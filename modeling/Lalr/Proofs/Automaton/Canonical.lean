import Lalr.Grammar.Examples
import Lalr.Proofs.Automaton.Build
import Mathlib.Data.List.Induction
import Mathlib.Data.List.Nodup

/-!
# The canonical collection

The states of an automaton that was built, and the strings of symbols that lead
to them.

- `Automaton.follow`: the state to which a string of symbols leads.
- `IsComplete.has_iff_of_follow`: the items of that state are the LR(0) items
  that are valid for the string.
- `IsComplete.exists_follow`: some string leads to every state.
- `Automaton.IsCanonical`: the canonical LR(0) collection (`isCanonical_of_build`).
-/

namespace Lalr

open Grammar

variable {g : Grammar} {X : Symbol} {γ : List Symbol} {x : Dotted}

/-- Something is valid for a string only if the marker of something can move over its last
symbol. -/
theorem Grammar.Lr0Valid.exists_after (h : g.Lr0Valid (γ ++ [X]) x) :
    ∃ y β, g.Lr0Valid γ y ∧ g.After y X β := by
  have hclosure := lr0Valid_concat_iff.mp h
  clear h
  induction hclosure with
  | base hx =>
    obtain ⟨y, β, hy, hX, -⟩ := hx
    exact ⟨y, β, hy, hX⟩
  | predict _ _ ih => exact ih

namespace Automaton

variable {m : Automaton} {i j : StateId} {kernel items kernel' items' : ItemSet}
variable {core : Core} {h k : ItemId}

/-- The state to which the symbols lead from the start state. -/
def follow (m : Automaton) (γ : List Symbol) : Option StateId := γ.foldlM m.step? startState

@[simp] theorem follow_nil (m : Automaton) : m.follow [] = some startState := rfl

theorem follow_concat_eq_some_iff :
    m.follow (γ ++ [X]) = some j ↔ ∃ i, m.follow γ = some i ∧ m.step? i X = some j := by
  simp [follow, Option.bind_eq_some_iff]

namespace IsComplete

/-- A state has a transition for each symbol after one of its markers. -/
theorem goes_iff (hm : m.IsComplete g) (hi : m.sets[i]? = some (kernel, items)) :
    (∃ j, m.Goes i X j) ↔ items.Awaits g X := by
  have hlt : i < m.sets.length := (List.getElem?_eq_some_iff.mp hi).choose
  rw [hm.collection.goes_iff hi]
  simp only [hlt, true_and, List.not_mem_nil, and_false, or_false]

theorem step?_eq_some_iff (hm : m.IsComplete g) : m.step? i X = some j ↔ m.Goes i X j :=
  hm.collection.deterministic.step?_eq_some_iff

/-- An item belongs to one state. -/
theorem state_unique (hm : m.IsComplete g) (hi : m.sets[i]? = some (kernel, items))
    (hj : m.sets[j]? = some (kernel', items')) (hmem : k ∈ items.ids) (hmem' : k ∈ items'.ids) :
    i = j := by
  have hnodup : (m.sets.flatMap fun s => s.2.ids).Nodup := hm.collection.ids ▸ List.nodup_range
  have hpairwise := List.pairwise_iff_getElem.mp (List.nodup_flatMap.mp hnodup).2
  obtain ⟨hlt, hi⟩ := List.getElem?_eq_some_iff.mp hi
  obtain ⟨hlt', hj⟩ := List.getElem?_eq_some_iff.mp hj
  rcases Nat.lt_trichotomy i j with hless | heq | hless
  · have hdisjoint := hpairwise i j hlt hlt' hless
    simp only [Function.onFun, hi, hj] at hdisjoint
    exact absurd hmem' (hdisjoint hmem)
  · exact heq
  · have hdisjoint := hpairwise j i hlt' hlt hless
    simp only [Function.onFun, hi, hj] at hdisjoint
    exact absurd hmem (hdisjoint hmem')

/-- It has one core in it. -/
theorem item_unique {core' : Core} (hm : m.IsComplete g) (hi : m.sets[i]? = some (kernel, items))
    (hj : m.sets[j]? = some (kernel', items')) (hmem : (core, k) ∈ items.toList)
    (hmem' : (core', k) ∈ items'.toList) : i = j ∧ core = core' := by
  have hsame := hm.state_unique hi hj (ItemSet.mem_ids_iff.mpr ⟨_, hmem⟩)
    (ItemSet.mem_ids_iff.mpr ⟨_, hmem'⟩)
  exact ⟨hsame, (hm.collection.closed hi).isOver.core_unique (hm.collection.closed hj).isOver hmem
    hmem'⟩

/-- The items of the kernel are items of the state. -/
theorem kernel_subset (hm : m.IsComplete g) (hi : m.sets[i]? = some (kernel, items)) :
    kernel.toList ⊆ items.toList :=
  (hm.collection.closed hi).kernel_first.subset

/-- What the closure predicts is there. -/
theorem exists_predicted {p : ProductionId} {β : List Symbol} (hm : m.IsComplete g)
    (hi : m.sets[i]? = some (kernel, items)) (hmem : (core, h) ∈ items.toList)
    (hp : g.Predicts core.dotted p β) : ∃ k, (⟨p, 0⟩, k) ∈ items.toList := by
  have hclosure := (hm.collection.closed hi).closure_iff
  have hhas : items.Has ⟨p, 0⟩ :=
    (hclosure _).mpr (((hclosure _).mp (ItemSet.has_of_mem hmem)).predict hp)
  exact ItemSet.exists_mem_of_has hhas

/-- The item that a marker moves to is in the kernel of the next state, and the marker counts one
more there. -/
theorem exists_advanced {β : List Symbol} (hm : m.IsComplete g) (hgoes : m.Goes i X j)
    (hi : m.sets[i]? = some (kernel, items)) (hj : m.sets[j]? = some (kernel', items'))
    (hmem : (core, h) ∈ items.toList) (hX : g.After core.dotted X β) :
    core.advance.dotted = core.dotted.advance ∧ ∃ k, (core.advance, k) ∈ kernel'.toList := by
  obtain ⟨K, I, K', I', hi', hj', hadvanced⟩ := hm.collection.advanced hgoes
  cases hi.symm.trans hi'
  cases hj.symm.trans hj'
  have hhas := (hadvanced core.dotted.advance).mpr ⟨_, β, ItemSet.has_of_mem hmem, hX, rfl⟩
  obtain ⟨core', k, hk, heq⟩ := hhas.exists_mem
  obtain ⟨rfl, hadvance⟩ := Core.eq_advance_of_dotted heq
  exact ⟨hadvance, k, hk⟩

/-- A string leads to a state whose items are the valid ones. -/
theorem has_iff_of_follow (hm : m.IsComplete g) (hfollow : m.follow γ = some i) :
    ∃ kernel items, m.sets[i]? = some (kernel, items) ∧ ∀ x, items.Has x ↔ g.Lr0Valid γ x := by
  induction γ using List.reverseRecOn generalizing i with
  | nil =>
    cases hfollow
    obtain ⟨kernel, items, hstart, hkernel⟩ := hm.collection.start
    refine ⟨kernel, items, hstart, fun x => ?_⟩
    rw [(hm.collection.closed hstart).closure_iff, lr0Valid_nil_iff]
    exact closure_congr hkernel
  | append_singleton γ X ih =>
    obtain ⟨i', hfollow', hstep⟩ := follow_concat_eq_some_iff.mp hfollow
    obtain ⟨K, I, hi', hI⟩ := ih hfollow'
    obtain ⟨K', I', kernel, items, hi'', hi, hadvanced⟩ :=
      hm.collection.advanced (hm.step?_eq_some_iff.mp hstep)
    cases hi'.symm.trans hi''
    refine ⟨kernel, items, hi, fun x => ?_⟩
    rw [(hm.collection.closed hi).closure_iff, lr0Valid_concat_iff]
    exact closure_congr fun y => (hadvanced y).trans (advanced_congr hI)

/-- Every other string for which an item is valid leads to a state, and no others do. -/
theorem exists_follow_iff (hm : m.IsComplete g) :
    (∃ i, m.follow γ = some i) ↔ γ = [] ∨ ∃ x, g.Lr0Valid γ x := by
  induction γ using List.reverseRecOn with
  | nil => simp
  | append_singleton γ X ih =>
    constructor
    · rintro ⟨j, hfollow⟩
      obtain ⟨i, hfollow', hstep⟩ := follow_concat_eq_some_iff.mp hfollow
      obtain ⟨K, I, hi, hI⟩ := hm.has_iff_of_follow hfollow'
      obtain ⟨y, β, hy, hβ⟩ := (hm.goes_iff hi).mp ⟨j, hm.step?_eq_some_iff.mp hstep⟩
      exact .inr ⟨_, ((hI y).mp hy).shift hβ⟩
    · rintro (hnil | ⟨x, hx⟩)
      · simp at hnil
      · obtain ⟨y, β, hy, hβ⟩ := hx.exists_after
        obtain ⟨i, hfollow⟩ := ih.mpr (.inr ⟨y, hy⟩)
        obtain ⟨K, I, hi, hI⟩ := hm.has_iff_of_follow hfollow
        obtain ⟨j, hgoes⟩ := (hm.goes_iff hi).mpr ⟨y, β, (hI y).mpr hy, hβ⟩
        exact ⟨j, follow_concat_eq_some_iff.mpr ⟨i, hfollow, hm.step?_eq_some_iff.mpr hgoes⟩⟩

/-- Some string leads to every state: the strings that lead to the states before it, and one more
symbol. -/
theorem exists_follow (hm : m.IsComplete g) (hi : i < m.sets.length) :
    ∃ γ, m.follow γ = some i := by
  refine hm.collection.induct hi ⟨[], rfl⟩ ?_
  rintro i j X - hgoes ⟨γ, hfollow⟩
  exact ⟨γ ++ [X], follow_concat_eq_some_iff.mpr ⟨i, hfollow, hm.step?_eq_some_iff.mpr hgoes⟩⟩

/-- The items of a state are the valid ones of some string that leads to it. -/
theorem exists_follow_has_iff (hm : m.IsComplete g) (hi : m.sets[i]? = some (kernel, items)) :
    ∃ γ, m.follow γ = some i ∧ ∀ x, items.Has x ↔ g.Lr0Valid γ x := by
  obtain ⟨γ, hfollow⟩ := hm.exists_follow (List.getElem?_eq_some_iff.mp hi).choose
  obtain ⟨kernel', items', hi', hhas⟩ := hm.has_iff_of_follow hfollow
  cases hi.symm.trans hi'
  exact ⟨γ, hfollow, hhas⟩

end IsComplete

/-! ## The collection -/

/-- The states are the canonical LR(0) collection of the grammar.
1. A string leads to a state exactly when it is empty or some item is valid for it, and the items of
   that state are the valid ones.
2. The items of every state are the closure of its kernel. It has one transition for each symbol
   after a marker of its items, and no other, to the kernel of the items that advance over it.
3. No two states have the same kernel, and the numbers to which strings lead are those below the
   number of states. The kernel of the start state is the start of the augmented grammar; a
   transition from a state with a smaller number leads to every other state. -/
structure IsCanonical (g : Grammar) (m : Automaton) : Prop where
  exists_follow_iff : ∀ γ, (∃ i, m.follow γ = some i) ↔ γ = [] ∨ ∃ x, g.Lr0Valid γ x
  has_iff_of_follow : ∀ γ i, m.follow γ = some i →
    ∃ q, m.states[i]? = some q ∧ ∀ x, q.items.Has x ↔ g.Lr0Valid γ x
  closure_iff : ∀ (i : StateId) q, m.states[i]? = some q →
    ∀ x, q.items.Has x ↔ g.Closure q.kernel.Has x
  transitions : ∀ (i : StateId) q, m.states[i]? = some q →
    (q.transitions.toList.map Prod.fst).Nodup ∧
      ∀ X, X ∈ q.transitions.toList.map Prod.fst ↔ ∃ x β, q.items.Has x ∧ g.After x X β
  advanced : ∀ (i : StateId) q, m.states[i]? = some q → ∀ X j, (X, j) ∈ q.transitions.toList →
    ∃ r, m.states[j]? = some r ∧ ∀ y, r.kernel.Has y ↔ g.Advanced X q.items.Has y
  distinct : ∀ (i j : StateId) q r, m.states[i]? = some q → m.states[j]? = some r →
    (∀ x, q.kernel.Has x ↔ r.kernel.Has x) → i = j
  numbered : ∀ i : StateId, (∃ γ, m.follow γ = some i) ↔ i < m.states.size
  start : ∃ q, m.states[startState]? = some q ∧ ∀ x, q.kernel.Has x ↔ x = ⟨acceptProduction, 0⟩
  incoming : ∀ j, j ≠ startState → j < m.states.size →
    ∃ i q X, i < j ∧ m.states[i]? = some q ∧ (X, j) ∈ q.transitions.toList

end Automaton

/-- **Building makes the canonical collection**, for every defined grammar and every limit under
which it succeeds. -/
theorem isCanonical_of_build {limit : Option Nat} {m : Automaton} (hg : g.IsDefined)
    (h : Automaton.build g limit = .ok m) : m.IsCanonical g := by
  have hm := Automaton.isComplete_of_build hg.wellFormed h
  have hset {i : StateId} {q : State} (hq : m.states[i]? = some q) :
      m.sets[i]? = some (q.kernel, q.items) := Automaton.getElem?_sets_of_getElem? hq
  constructor
  case exists_follow_iff => exact fun γ => hm.exists_follow_iff
  case has_iff_of_follow =>
    intro γ i hfollow
    obtain ⟨kernel, items, hi, hhas⟩ := hm.has_iff_of_follow hfollow
    obtain ⟨q, hq, rfl, rfl⟩ := Automaton.getElem?_sets_eq_some_iff.mp hi
    exact ⟨q, hq, hhas⟩
  case closure_iff =>
    intro i q hq
    exact (hm.collection.closed (hset hq)).closure_iff
  case transitions =>
    intro i q hq
    refine ⟨hm.collection.deterministic i q hq, fun X => ?_⟩
    refine Iff.trans ?_ (hm.goes_iff (hset hq))
    simp [Automaton.Goes, hq]
  case advanced =>
    intro i q hq X j hX
    obtain ⟨K, I, K', I', hi, hj, hadvanced⟩ := hm.collection.advanced ⟨q, hq, hX⟩
    cases (hset hq).symm.trans hi
    obtain ⟨r, hr, rfl, rfl⟩ := Automaton.getElem?_sets_eq_some_iff.mp hj
    exact ⟨r, hr, hadvanced⟩
  case distinct =>
    intro i j q r hq hr
    exact hm.distinct (hset hq) (hset hr)
  case numbered =>
    intro i
    rw [← m.length_sets]
    constructor
    · rintro ⟨γ, hfollow⟩
      obtain ⟨kernel, items, hi, -⟩ := hm.has_iff_of_follow hfollow
      exact (List.getElem?_eq_some_iff.mp hi).choose
    · exact hm.exists_follow
  case start =>
    obtain ⟨K, I, hstart, hkernel⟩ := hm.collection.start
    obtain ⟨q, hq, rfl, rfl⟩ := Automaton.getElem?_sets_eq_some_iff.mp hstart
    exact ⟨q, hq, hkernel⟩
  case incoming =>
    intro j hj hlt
    obtain ⟨i, X, hless, q, hq, hmem⟩ :=
      hm.collection.incoming (Nat.pos_of_ne_zero hj) (m.length_sets ▸ hlt)
    exact ⟨i, q, X, hless, hq, hmem⟩

/-- The automaton of the assignments through pointers. -/
theorem isCanonical_pointer : ∃ g m, Grammar.define Examples.pointer = .ok g ∧
    Automaton.build g none = .ok m ∧ m.states.size = 10 ∧ m.IsCanonical g := by
  obtain ⟨g, m, hdefine, hbuild, hcheck⟩ := exists_build_of_check Examples.pointer
    (fun _ m => m.states.size == 10) (by decide +kernel)
  exact ⟨g, m, hdefine, hbuild, eq_of_beq hcheck, isCanonical_of_build (.of_define hdefine) hbuild⟩

end Lalr
