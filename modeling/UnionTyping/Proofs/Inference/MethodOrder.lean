/-
  UnionTyping/Proofs/Inference/MethodOrder.lean
  =============================================
  **The place of a method among the items of a program does not matter.**

  Moving top-level methods, as long as those of one name keep their order, is a row of
  exchanges of neighbours.  Each exchange leads to declarations that differ in the numbers of
  nodes and methods only (`Env.renamed_of_swapped`), and programs that differ in their
  numbers get the same answer (`Env.check_renamed`).  This is passed on along the row
  (`Program.check_rearranged`).
-/
import UnionTyping.Proofs.Inference.Mirrored
import UnionTyping.Proofs.Inference.Reordered

namespace UnionTyping

/-- The methods of `env` are those of `env'` under the numbers that `σ` gives them, and the
    checks of both get the same answer. -/
structure Env.AgreesUpTo (env : Env) (σ : MethodId → MethodId) (env' : Env) : Prop where
  injective : Function.Injective σ
  methods : ∀ id, (env'.methods.get? (σ id)).map Method.unnumbered =
    (env.methods.get? id).map Method.unnumbered
  answer : SameAnswer σ env.check env'.check

namespace Env

theorem AgreesUpTo.refl (env : Env) : env.AgreesUpTo (fun id => id) env :=
  ⟨Function.injective_id, fun _ => rfl, .refl _⟩

theorem AgreesUpTo.trans {env₁ env₂ env₃ : Env} {σ τ : MethodId → MethodId}
    (h : env₁.AgreesUpTo σ env₂) (h' : env₂.AgreesUpTo τ env₃) : env₁.AgreesUpTo (τ ∘ σ) env₃ :=
  ⟨h'.injective.comp h.injective, fun id => (h'.methods (σ id)).trans (h.methods id),
    h.answer.trans h'.answer⟩

/-- One exchange of neighbours. -/
theorem agreesUpTo_of_swapped {settings : Settings} {file : String} {items items' : List Item}
    (h : Swapped items items') {env : Env}
    (henv : ofProgram settings ⟨file, Item.numberAllFrom 0 items⟩ = .ok env) :
    ∃ σ env', ofProgram settings ⟨file, Item.numberAllFrom 0 items'⟩ = .ok env' ∧
      env.AgreesUpTo σ env' := by
  obtain ⟨f, hf, swapped, hswapped, hitems⟩ := h.numberAllFrom
  obtain ⟨σ, hσ, env', henv', hsettings, hrenamed⟩ := renamed_of_swapped hswapped f henv
  rw [← hitems] at henv'
  refine ⟨σ, env', henv', hσ, fun id => ?_, check_renamed hrenamed hsettings ⟨hf, hσ⟩⟩
  rw [hrenamed.get? id, Option.map_map]
  exact congrArg (Option.map · _) (funext (Method.unnumbered_rename f))

/-- A row of exchanges of neighbours. -/
theorem agreesUpTo_of_swaps {settings : Settings} {file : String} {items items' : List Item}
    (h : Relation.ReflTransGen Swapped items items') {env : Env}
    (henv : ofProgram settings ⟨file, Item.numberAllFrom 0 items⟩ = .ok env) :
    ∃ σ env', ofProgram settings ⟨file, Item.numberAllFrom 0 items'⟩ = .ok env' ∧
      env.AgreesUpTo σ env' := by
  induction h with
  | refl => exact ⟨_, env, henv, .refl env⟩
  | tail _ hswap ih =>
    obtain ⟨σ, env₁, henv₁, hagrees⟩ := ih
    obtain ⟨τ, env₂, henv₂, hagrees'⟩ := agreesUpTo_of_swapped hswap henv₁
    exact ⟨τ ∘ σ, env₂, henv₂, hagrees.trans hagrees'⟩

end Env

theorem Rearranged.mem_iff {items items' : List Item} (h : Rearranged items items') {i : Item} :
    i ∈ items ↔ i ∈ items' := by
  have hfilter : ∀ is : List Item,
      i ∈ is ↔ i ∈ is.filter (·.methodName? = i.methodName?) := fun is => by
    rw [List.mem_filter, decide_eq_true_eq, and_iff_left rfl]
  rw [hfilter items, hfilter items', h]

theorem Program.check_of_ofProgram {settings : Settings} {p : Program} {env : Env}
    (h : Env.ofProgram settings p = .ok env) : p.check settings = env.check := by
  rw [check, h]

/-- Moving the top-level methods of a placed program whose declarations are in order, while
    those of one name and all other items keep their order, gives a program whose declarations
    are in order, too.  The methods are the same under other numbers, and both programs are
    rejected for the same problem, or given up after the same number of checks, or have the
    same result and the same instances of these methods. -/
theorem Program.check_rearranged {settings : Settings} {file : String} {items items' : List Item}
    (hplaced : ∀ i ∈ items, i.loc.isPlaced) (hmoved : Rearranged items items') {env : Env}
    (hdeclared : Env.ofProgram settings (.ofItems file items) = .ok env) :
    ∃ σ env', Env.ofProgram settings (.ofItems file items') = .ok env' ∧ Function.Injective σ ∧
      (∀ id, (env'.methods.get? (σ id)).map Method.unnumbered =
        (env.methods.get? id).map Method.unnumbered) ∧
      SameAnswer σ ((ofItems file items).check settings)
        ((ofItems file items').check settings) := by
  have hplaced' : ∀ i ∈ items', i.loc.isPlaced := fun i hi => hplaced i (hmoved.mem_iff.mpr hi)
  have hswaps : Relation.ReflTransGen Swapped (Item.placeAll file items)
      (Item.placeAll file items') := by
    rw [Item.placeAll_eq_map hplaced, Item.placeAll_eq_map hplaced']
    exact hmoved.swaps.lift _ fun _ _ hswap => hswap.map fun i => i.methodName?_place file _
  obtain ⟨σ, env', hdeclared', hagrees⟩ :
      ∃ σ env', Env.ofProgram settings (ofItems file items') = .ok env' ∧
        env.AgreesUpTo σ env' := by
    rw [ofItems_eq] at hdeclared ⊢
    exact Env.agreesUpTo_of_swaps hswaps hdeclared
  refine ⟨σ, env', hdeclared', hagrees.injective, hagrees.methods, ?_⟩
  rw [check_of_ofProgram hdeclared, check_of_ofProgram hdeclared']
  exact hagrees.answer

/-- Methods among their calls: `def twice(a); a + a; end`, `x = twice(1)`,
    `def letter; 'c'; end` and `twice(x) { |k| letter }`. -/
def scatteredItems : List Item :=
  let m (line : Nat) : Mark := ⟨0, "order.qz", line, 1⟩
  [.method ⟨"twice", [⟨"a", none, none⟩],
      [.call (m 1) (some (.ident (m 1) "a")) "+" [.ident (m 1) "a"] none false], (m 1).loc⟩,
    .expr (.assign (m 2) (.local "x") (.call (m 2) none "twice" [.literal (m 2) .int] none true)),
    .method ⟨"letter", [], [.literal (m 3) .char], (m 3).loc⟩,
    .expr (.call (m 4) none "twice" [.ident (m 4) "x"] (some (.mk ["k"] [.ident (m 4) "letter"]))
      true)]

def gatheredItems : List Item :=
  match scatteredItems with
  | [twice, first, letter, second] => [first, second, letter, twice]
  | items => items

theorem gatheredItems_same :
    (∀ i ∈ scatteredItems, i.loc.isPlaced) ∧ Rearranged scatteredItems gatheredItems ∧
    ∃ env, Env.ofProgram {} (.ofItems "order.qz" scatteredItems) = .ok env ∧
    ∃ σ env', Env.ofProgram {} (.ofItems "order.qz" gatheredItems) = .ok env' ∧
      Function.Injective σ ∧
      (∀ id, (env'.methods.get? (σ id)).map Method.unnumbered =
        (env.methods.get? id).map Method.unnumbered) ∧
      SameAnswer σ ((Program.ofItems "order.qz" scatteredItems).check {})
        ((Program.ofItems "order.qz" gatheredItems).check {}) := by
  have hplaced : ∀ i ∈ scatteredItems, i.loc.isPlaced := by decide
  have hmoved : Rearranged scatteredItems gatheredItems := by
    intro key
    simp only [scatteredItems, gatheredItems, List.filter_cons, Item.methodName?, List.filter_nil]
    grind
  obtain ⟨env, henv⟩ := exists_of_toBool
    (x := Env.ofProgram {} (.ofItems "order.qz" scatteredItems)) (by decide +kernel)
  exact ⟨hplaced, hmoved, env, henv, Program.check_rearranged hplaced hmoved henv⟩

end UnionTyping
