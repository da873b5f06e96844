/-
  UnionTyping/Proofs/Binding/Renaming.lean
  ========================================
  **Bindings under other numbers of nodes.**

  A local that a block declares belongs to the call whose block it is, and that call is
  told by its number.  Giving the nodes other numbers therefore changes the slots of
  bindings and the owners of frames, and nothing else.  As long as different nodes keep
  different numbers, every step on scopes and on the store does the same as before
  (`Scopes.lookup_rename`, `Store.intern_rename`, `Store.assign_rename`).
-/
import Mathlib.Logic.Function.Basic
import UnionTyping.Proofs.Binding.Growth

namespace UnionTyping

/-! ### Scopes -/

def Scope.rename (f : NodeId → NodeId) : Scope → Scope
  | .body => .body
  | .block call => .block (f call)

theorem Scope.rename_injective {f : NodeId → NodeId} (hf : Function.Injective f) :
    Function.Injective (Scope.rename f) := by
  intro s s' h
  cases s with
  | body =>
    cases s' with
    | body => rfl
    | block call => cases h
  | block call =>
    cases s' with
    | body => cases h
    | block call' => exact congrArg Scope.block (hf (Scope.block.inj h))

def Frame.rename (f : NodeId → NodeId) (frame : Frame) : Frame :=
  { frame with owner := frame.owner.rename f }

namespace Scopes

def rename (f : NodeId → NodeId) (s : Scopes) : Scopes :=
  { s with inner := s.inner.map (·.rename f) }

variable (f : NodeId → NodeId) (s : Scopes)

theorem leave_rename : (s.rename f).leave = s.leave.rename f := by
  simp only [leave, rename, List.map_tail]

theorem owner_rename : (s.rename f).owner = s.owner.rename f := by
  obtain ⟨inner, body⟩ := s
  cases inner <;> rfl

theorem declare_rename (name : String) (binding : BindingId) :
    (s.rename f).declare name binding = (s.declare name binding).rename f := by
  obtain ⟨inner, body⟩ := s
  cases inner <;> rfl

theorem lookup_rename (name : String) : (s.rename f).lookup name = s.lookup name := by
  have hinner : ∀ frames : List Frame,
      lookupIn name (frames.map (·.rename f)) = lookupIn name frames := by
    intro frames
    induction frames with
    | nil => rfl
    | cons frame frames ih =>
      rw [List.map_cons, lookupIn, lookupIn, ih]
      rfl
  exact congrArg (· <|> s.body.lookup name) (hinner s.inner)

end Scopes

/-! ### The store -/

def Slot.rename (f : NodeId → NodeId) : Slot → Slot
  | .local unit scope name => .local unit (scope.rename f) name
  | .ivar owner name => .ivar owner name
  | .returned unit => .returned unit

theorem Slot.rename_injective {f : NodeId → NodeId} (hf : Function.Injective f) :
    Function.Injective (Slot.rename f) := by
  intro s s' h
  cases s with
  | «local» unit scope name =>
    cases s' with
    | «local» unit' scope' name' =>
      obtain ⟨rfl, hscope, rfl⟩ := Slot.local.inj h
      rw [Scope.rename_injective hf hscope]
    | _ => cases h
  | ivar owner name =>
    cases s' with
    | ivar owner' name' => exact h
    | _ => cases h
  | returned unit =>
    cases s' with
    | returned unit' => exact h
    | _ => cases h

def Binding.rename (f : NodeId → NodeId) (b : Binding) : Binding :=
  { b with slot := b.slot.rename f }

namespace Store

def rename (f : NodeId → NodeId) (s : Store) : Store :=
  { s with bindings := s.bindings.map (·.rename f) }

variable {f : NodeId → NodeId}

theorem find_rename (hf : Function.Injective f) (s : Store) (slot : Slot) :
    (s.rename f).find (slot.rename f) = s.find slot := by
  unfold find rename
  rw [List.findIdx?_map]
  refine congrArg (List.findIdx? · s.bindings) (funext fun b => ?_)
  exact decide_eq_decide.mpr (Slot.rename_injective hf).eq_iff

theorem intern_rename (hf : Function.Injective f) (s : Store) (slot : Slot) :
    (s.rename f).intern (slot.rename f) = ((s.intern slot).1, (s.intern slot).2.rename f) := by
  unfold intern
  rw [find_rename hf]
  cases s.find slot with
  | some id => rfl
  | none => simp only [rename, List.length_map, List.map_append, List.map_cons, List.map_nil]; rfl

theorem typeOf_rename (s : Store) (id : BindingId) : (s.rename f).typeOf id = s.typeOf id := by
  unfold typeOf rename
  rw [List.getElem?_map, Option.map_map]
  rfl

theorem read_rename (s : Store) (id : BindingId) (reader : UnitId) :
    (s.rename f).read id reader = ((s.read id reader).1, (s.read id reader).2.rename f) := by
  have hmodify := map_modify (Binding.rename f) (·.readBy reader) (·.readBy reader) (fun _ => rfl)
    s.bindings id
  unfold read
  rw [typeOf_rename]
  exact congrArg (fun bindings => (_, (⟨bindings, s.queue⟩ : Store))) hmodify

theorem assign_rename (s : Store) (id : BindingId) (site : Location) (ty : Ty) (cause : Location) :
    (s.rename f).assign id site ty cause =
      ((s.assign id site ty cause).1, (s.assign id site ty cause).2.rename f) := by
  have hmodify := map_modify (Binding.rename f) (·.assigned ⟨site, ty⟩) (·.assigned ⟨site, ty⟩)
    (fun _ => rfl) s.bindings id
  unfold assign
  split
  · rfl
  · simp only [rename, List.getElem?_map, hmodify]
    cases s.bindings[id]? with
    | none => rfl
    | some b =>
      simp only [Option.map_some, Binding.rename]
      split <;> rfl

theorem sealStarved_rename (s : Store) (ty : Ty) :
    (s.rename f).sealStarved ty = ((s.sealStarved ty).1, (s.sealStarved ty).2.rename f) := by
  have hreaders : starvedReaders (s.bindings.map (·.rename f)) = starvedReaders s.bindings := by
    unfold starvedReaders
    rw [List.filter_map, List.foldl_map]
    rfl
  have hsealed : (s.bindings.map (·.rename f)).map
        (fun b => if b.isStarved then { b with current := ty } else b) =
      (s.bindings.map fun b => if b.isStarved then { b with current := ty } else b).map
        (·.rename f) := by
    rw [List.map_map, List.map_map]
    refine List.map_congr_left fun b _ => ?_
    simp only [Function.comp_apply]
    have hstarved : (b.rename f).isStarved = b.isStarved := rfl
    rw [hstarved]
    split <;> rfl
  unfold sealStarved
  simp only [rename, hreaders, hsealed]

end Store

end UnionTyping
