/-
  UnionTyping/Proofs/Inference/InstanceKeys.lean
  ==============================================
  **The unit of an instance is found whatever the order of unions.**

  Instances are the keys under which units are looked up.  A table with hashed keys goes by
  what an instance feeds to a hash function (`Instantiation.writes`) before it compares the
  instance itself.  Reorderings of an instance write the same items, so such a table finds
  for each of them what a search through all units finds
  (`Engine.hashedUnitOf_eq_unitOf`, `Ty.beq_lawfulKey`).
-/
import UnionTyping.Proofs.Inference.NormalForm
import UnionTyping.Proofs.Ty.Hashing

namespace UnionTyping

/-! ### Instances -/

namespace Instantiation

variable {key key' : Instantiation} {digest : List Ty.Write → UInt64}

def writes (digest : List Ty.Write → UInt64) (key : Instantiation) : List Ty.Write :=
  let self := match key.self with
    | none => [.tag 0]
    | some self => .tag 1 :: self.writes digest
  .count key.method :: self ++ .count key.args.length :: Ty.writesEach digest key.args

/-- The same method, for the same types with their unions in some other order. -/
structure Reordered (key key' : Instantiation) : Prop where
  method : key.method = key'.method
  self : Option.Rel Ty.Reordered key.self key'.self
  args : List.Forall₂ Ty.Reordered key.args key'.args

/-- A reordering of an instance is the same instance, in both directions. -/
theorem Reordered.beq (h : key.Reordered key') : (key == key') = true ∧ (key' == key) = true := by
  obtain ⟨method, self, args⟩ := key
  obtain ⟨method', self', args'⟩ := key'
  obtain ⟨hmethod, hself, hargs⟩ := h
  have hselves : (self == self') = true ∧ (self' == self) = true := by
    cases hself with
    | none => exact ⟨rfl, rfl⟩
    | some hs => exact hs.beq
  have hforth := Ty.beq_list_iff.mpr (hargs.imp fun _ _ ht => ht.beq.1)
  have hback := Ty.beq_list_iff.mpr (hargs.imp fun _ _ ht => ht.beq.2).flip
  exact ⟨beq_iff.mpr ⟨hmethod, hselves.1, hforth⟩, beq_iff.mpr ⟨hmethod.symm, hselves.2, hback⟩⟩

/-- Instances in normal form that are the same are reorderings of each other. -/
theorem Normal.reordered_of_beq (hkey : key.Normal) (hkey' : key'.Normal)
    (h : (key == key') = true) : key.Reordered key' := by
  obtain ⟨method, self, args⟩ := key
  obtain ⟨method', self', args'⟩ := key'
  obtain ⟨hmethod, hself, hargs⟩ := beq_iff.mp h
  have hpaired := Ty.beq_list_iff.mp hargs
  refine ⟨hmethod, ?_, List.forall₂_iff_zip.mpr ⟨hpaired.length_eq, fun hpair => ?_⟩⟩
  · cases self with
    | none => cases self' with
      | none => exact .none
      | some => cases hself
    | some s => cases self' with
      | none => cases hself
      | some s' => exact .some ((hkey.self s rfl).reordered_of_beq (hkey'.self s' rfl) hself)
  · obtain ⟨ht, ht'⟩ := List.of_mem_zip hpair
    exact (hkey.args _ ht).reordered_of_beq (hkey'.args _ ht') (List.forall₂_zip hpaired hpair)

/-- A reordering feeds the same items to a hash function. -/
theorem Reordered.writes_eq (h : key.Reordered key') : key.writes digest = key'.writes digest := by
  obtain ⟨method, self, args⟩ := key
  obtain ⟨method', self', args'⟩ := key'
  obtain ⟨rfl, hself, hargs⟩ := h
  have heach : Ty.writesEach digest args = Ty.writesEach digest args' :=
    Ty.writesEach_congr (hargs.imp fun _ _ ht => ht.writes_eq)
  cases hself with
  | none => rw [writes, writes, heach, hargs.length_eq]
  | some hs => simp only [writes, heach, hargs.length_eq, hs.writes_eq]

end Instantiation

/-! ### Tables -/

theorem findIdx?_congr {α : Type} {p q : α → Bool} {l : List α} (h : ∀ x ∈ l, p x = q x) :
    l.findIdx? p = l.findIdx? q := by
  induction l with
  | nil => rfl
  | cons x xs ih =>
    obtain ⟨hx, hxs⟩ := List.forall_mem_cons.mp h
    rw [List.findIdx?_cons, List.findIdx?_cons, hx, ih hxs]

namespace Engine

variable {e : Engine} {key key' : Instantiation} {hash digest : List Ty.Write → UInt64}

/-- The unit that a table with hashed keys holds for an instance: a unit whose instance
    hashes alike and is the same. -/
def hashedUnitOf (hash digest : List Ty.Write → UInt64) (e : Engine) (key : Instantiation) :
    Option UnitId :=
  e.keys.findIdx? fun k => k.any fun k =>
    hash (k.writes digest) == hash (key.writes digest) && key == k

/-- Reorderings of an instance have the same entry. -/
theorem hashedUnitOf_reordered (h : key.Reordered key') :
    e.hashedUnitOf hash digest key' = e.hashedUnitOf hash digest key := by
  have hsame : ∀ k : Instantiation, (key' == k) = (key == k) := by
    intro k
    rw [Bool.eq_iff_iff]
    exact ⟨Instantiation.beq_trans h.beq.1, Instantiation.beq_trans h.beq.2⟩
  simp only [hashedUnitOf, hsame, h.writes_eq]

/-- Instances that are the same hash alike, so going by their hashes misses none. -/
theorem hashedUnitOf_eq_unitOf (hkeys : ∀ k, some k ∈ e.keys → k.Normal) (hkey : key.Normal) :
    e.hashedUnitOf hash digest key = e.unitOf key := by
  have hsame : ∀ k ∈ e.keys, (k.any fun k =>
      hash (k.writes digest) == hash (key.writes digest) && key == k) = k.any (key == ·) := by
    rintro (_ | k) hk
    · rfl
    · rw [Option.any_some, Option.any_some]
      cases hbeq : key == k with
      | false => rw [Bool.and_false]
      | true =>
        have hreordered := hkey.reordered_of_beq (hkeys k hk) hbeq
        rw [hreordered.writes_eq, BEq.rfl, Bool.and_true]
  rw [hashedUnitOf, unitOf_eq]
  exact findIdx?_congr hsame

end Engine

/-! ### Types as keys -/

/-- On types in normal form sameness is an equivalence relation, and it is the order of
    unions, at any depth, that it passes over.  Types that are the same feed the same items to
    any hash function, whatever function makes the digests of members.  So a table of units
    with hashed keys finds for a reordering of an instance what it finds for the instance, and
    what a search through all units finds. -/
theorem Ty.beq_lawfulKey {a b c : Ty} (ha : a.Normal) (hb : b.Normal) :
    (a == a) = true ∧
      ((a == b) = true → (b == a) = true) ∧
      ((a == b) = true → (b == c) = true → (a == c) = true) ∧
      ((a == b) = true ↔ a.Reordered b) ∧
      ((a == b) = true → ∀ digest, a.writes digest = b.writes digest) ∧
      ∀ (e : Engine) (key key' : Instantiation), (∀ k, some k ∈ e.keys → k.Normal) →
        key.Normal → key.Reordered key' → ∀ hash digest,
          e.hashedUnitOf hash digest key' = e.hashedUnitOf hash digest key ∧
            e.hashedUnitOf hash digest key = e.unitOf key := by
  refine ⟨BEq.rfl, ha.beq_symm hb, beq_trans, ha.beq_iff_reordered hb, ?_, ?_⟩
  · intro hsame digest
    exact (ha.reordered_of_beq hb hsame).writes_eq
  · intro e key key' hkeys hkey hreordered hash digest
    exact ⟨Engine.hashedUnitOf_reordered hreordered, Engine.hashedUnitOf_eq_unitOf hkeys hkey⟩

def textPointer : Ty := .pointer (.oneOf [.pointer (.oneOf [.int, .nil]), .char, .string])
def textPointer' : Ty := .pointer (.oneOf [.string, .pointer (.oneOf [.nil, .int]), .char])
def textPointer'' : Ty := .pointer (.oneOf [.char, .string, .pointer (.oneOf [.nil, .int])])

def pointerEngine : Engine :=
  ⟨.empty, [.fresh none, .fresh (some ⟨0, some .int, [textPointer]⟩)], 0⟩

/-- The unit of the instance is found in whatever order its unions are given. -/
theorem textPointer_lawfulKey :
    textPointer.Normal ∧ textPointer'.Normal ∧
      (textPointer == textPointer'') = true ∧ (textPointer' == textPointer) = true ∧
      (∀ digest, textPointer.writes digest = textPointer'.writes digest) ∧
      ∀ hash digest, pointerEngine.hashedUnitOf hash digest ⟨0, some .int, [textPointer']⟩ =
        some 1 := by
  have ha : textPointer.Normal := by decide +kernel
  have hb : textPointer'.Normal := by decide +kernel
  have hab : (textPointer == textPointer') = true := by decide +kernel
  have hbc : (textPointer' == textPointer'') = true := by decide +kernel
  obtain ⟨_, hsymm, htrans, hiff, hwrites, hfound⟩ := Ty.beq_lawfulKey ha hb
  refine ⟨ha, hb, htrans hab hbc, hsymm hab, hwrites hab, fun hash digest => ?_⟩
  have hint : Ty.int.Normal := by decide +kernel
  have hkey : Instantiation.Normal ⟨0, some .int, [textPointer]⟩ :=
    ⟨fun s hs => Option.some.inj hs ▸ hint, List.forall_mem_singleton.mpr ha⟩
  have hkeys : ∀ k, some k ∈ pointerEngine.keys → k.Normal := by
    intro k hk
    simp only [pointerEngine, Engine.keys, UnitRecord.fresh, List.map_cons, List.map_nil,
      List.mem_cons, reduceCtorEq, Option.some.injEq, List.not_mem_nil, or_false, false_or] at hk
    exact hk ▸ hkey
  obtain ⟨hsame, hsearch⟩ := hfound pointerEngine _ ⟨0, some .int, [textPointer']⟩ hkeys hkey
    ⟨rfl, .some (hint.reordered_of_beq hint BEq.rfl), .cons (hiff.mp hab) .nil⟩ hash digest
  rw [hsame, hsearch]
  decide +kernel

end UnionTyping
