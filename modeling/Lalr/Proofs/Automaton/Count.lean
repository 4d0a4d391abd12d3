import Lalr.Proofs.Automaton.Collection
import Lalr.Proofs.CanonicalSet

/-!
# How many states there are

The states of a part of the canonical collection have different item sets, all of
them sets of the canonical collection. So there are never more states than such
sets, and fewer if some state leads to a set that no state has.

- `Collection.exists_validItems`: the items of a state are the valid ones of some
  string.
- `Collection.size_lt_ncard`: a state that is missing leaves room for one more.
-/

namespace Lalr

open Grammar

variable {g : Grammar} {m : Automaton} {id i j : StateId} {done : List Symbol} {X : Symbol}
variable {kernel items kernel' items' : ItemSet}

/-- The items that a set stands for. -/
def ItemSet.dotted (s : ItemSet) : Set Dotted := {x | s.Has x}

/-- The item sets of the states. -/
def Automaton.itemSets (m : Automaton) : Set (Set Dotted) :=
  {I | ∃ (i : StateId) (kernel items : ItemSet), m.sets[i]? = some (kernel, items) ∧
    items.dotted = I}

namespace Collection

/-- The items of a state are those that are valid for a string: the string of a state before it, and
one more symbol. -/
theorem exists_validItems (h : Collection g m id done)
    (hi : m.sets[i]? = some (kernel, items)) : ∃ γ, g.validItems γ = items.dotted := by
  suffices hall : ∀ kernel items, m.sets[i]? = some (kernel, items) →
      ∃ γ, ∀ x, items.Has x ↔ g.Lr0Valid γ x by
    obtain ⟨γ, hγ⟩ := hall kernel items hi
    exact ⟨γ, Set.ext fun x => (hγ x).symm⟩
  refine h.induct (List.getElem?_eq_some_iff.mp hi).choose ?_ ?_
  · intro kernel items hi
    obtain ⟨K, I, hstart, hkernel⟩ := h.start
    cases hi.symm.trans hstart
    refine ⟨[], fun x => ?_⟩
    rw [(h.closed hi).closure_iff, lr0Valid_nil_iff]
    exact closure_congr hkernel
  · intro i j X _ hgoes ih kernel items hj
    obtain ⟨K, I, K', I', hi', hj', hadvanced⟩ := h.advanced hgoes
    cases hj.symm.trans hj'
    obtain ⟨γ, hγ⟩ := ih K I hi'
    refine ⟨γ ++ [X], fun x => ?_⟩
    rw [(h.closed hj).closure_iff, lr0Valid_concat_iff]
    exact closure_congr fun y => (hadvanced y).trans (advanced_congr hγ)

/-- Every item of a state is one of a production, with the marker not behind its end. -/
theorem expands_of_has {x : Dotted} (wf : g.WellFormed) (h : Collection g m id done)
    (hi : m.sets[i]? = some (kernel, items)) (hx : items.Has x) :
    ∃ n right, g.Expands x.production n right ∧ x.dot ≤ right.length := by
  obtain ⟨γ, hγ⟩ := h.exists_validItems hi
  have hvalid : x ∈ g.validItems γ := hγ ▸ hx
  exact Lr0Valid.expands wf hvalid

/-- No state is without items. -/
theorem nonempty_dotted (h : Collection g m id done) (hi : m.sets[i]? = some (kernel, items)) :
    items.dotted.Nonempty := by
  suffices hkernel : ∃ x, kernel.Has x by
    obtain ⟨x, hx⟩ := hkernel
    exact ⟨x, ((h.closed hi).closure_iff x).mpr (.base hx)⟩
  by_cases hpos : 0 < i
  · -- the symbol that leads to the state stands after a marker
    obtain ⟨i', Y, -, hgoes⟩ := h.incoming hpos (List.getElem?_eq_some_iff.mp hi).choose
    obtain ⟨K, I, K', I', hi', hj, hadvanced⟩ := h.advanced hgoes
    cases hi.symm.trans hj
    obtain ⟨x, β, hx, hβ⟩ := h.awaits hi' hgoes
    exact ⟨x.advance, (hadvanced _).mpr ⟨x, β, hx, hβ, rfl⟩⟩
  · obtain ⟨K, I, hstart, hkernel⟩ := h.start
    obtain rfl : i = startState := Nat.eq_zero_of_not_pos hpos
    cases hi.symm.trans hstart
    exact ⟨_, (hkernel _).mpr rfl⟩

/-- States with the same items are the same: their kernels are the same part of them. -/
theorem state_unique_of_has (wf : g.WellFormed) (h : Collection g m id done)
    (hdistinct : m.HasDistinctKernels) (hi : m.sets[i]? = some (kernel, items))
    (hj : m.sets[j]? = some (kernel', items')) (hsame : ∀ x, items.Has x ↔ items'.Has x) :
    i = j := by
  refine hdistinct hi hj fun x => ?_
  rw [h.kernel_has_iff wf hi, h.kernel_has_iff wf hj, hsame]

/-- There are as many item sets as states. -/
theorem ncard_itemSets (wf : g.WellFormed) (h : Collection g m id done)
    (hdistinct : m.HasDistinctKernels) : m.itemSets.ncard = m.sets.length := by
  let itemsAt (i : StateId) : Set Dotted := (m.sets[i]?.getD default).2.dotted
  have hitems {i : StateId} {K I : ItemSet} (hi : m.sets[i]? = some (K, I)) :
      itemsAt i = I.dotted := by
    simp [itemsAt, hi]
  have himage : m.itemSets = itemsAt '' Set.Iio m.sets.length := by
    refine Set.ext fun S => ⟨?_, ?_⟩
    · rintro ⟨i, K, I, hi, rfl⟩
      exact ⟨i, (List.getElem?_eq_some_iff.mp hi).choose, hitems hi⟩
    · rintro ⟨i, hlt, rfl⟩
      have hi := List.getElem?_eq_getElem hlt
      exact ⟨i, _, _, hi, (hitems hi).symm⟩
  have hinj : Set.InjOn itemsAt (Set.Iio m.sets.length) := by
    intro i hi j hj heq
    have hi := List.getElem?_eq_getElem hi
    have hj := List.getElem?_eq_getElem hj
    rw [hitems hi, hitems hj] at heq
    exact h.state_unique_of_has wf hdistinct hi hj fun x => Set.ext_iff.mp heq x
  rw [himage, hinj.ncard_image, ← Finset.coe_range, Set.ncard_coe_finset, Finset.card_range]

/-- The item sets of the states are sets of the canonical collection. -/
theorem itemSets_subset (h : Collection g m id done) : m.itemSets ⊆ g.canonicalSets := by
  rintro S ⟨i, K, I, hi, rfl⟩
  exact ⟨canonicalSet_iff.mpr (h.exists_validItems hi), h.nonempty_dotted hi⟩

/-- **A state that is missing leaves room for one more.** If no state has the kernel to which a
symbol leads, the canonical collection has a set that is no item set of a state. -/
theorem size_lt_ncard (wf : g.WellFormed) (h : Collection g m id done)
    (hdistinct : m.HasDistinctKernels) (hi : m.sets[i]? = some (kernel, items))
    (hX : items.Awaits g X)
    (hmissing : ∀ {j : StateId} {kernel' items'}, m.sets[j]? = some (kernel', items') →
      ¬∀ x, kernel'.Has x ↔ g.Advanced X items.Has x) :
    m.sets.length < g.canonicalSets.ncard := by
  let next : Set Dotted := {x | g.Closure (g.Advanced X (· ∈ items.dotted)) x}
  have hnext : next ∈ g.canonicalSets := by
    refine ⟨(canonicalSet_iff.mpr (h.exists_validItems hi)).goto X, ?_⟩
    obtain ⟨x, β, hx, hβ⟩ := hX
    exact ⟨x.advance, .base ⟨x, β, hx, hβ, rfl⟩⟩
  have hnew : next ∉ m.itemSets := by
    rintro ⟨j, K, I, hj, heq⟩
    refine hmissing hj fun x => ?_
    -- both kernels are the part of the set with a symbol before the marker, or the start
    have hhas : I.Has x ↔ g.Closure (g.Advanced X items.Has) x := Set.ext_iff.mp heq x
    rw [h.kernel_has_iff wf hj, hhas]
    constructor
    · exact fun ⟨hx, hmem⟩ => hx.mem_kernel wf hmem
    · rintro ⟨y, β, hy, hβ, rfl⟩
      exact ⟨.base ⟨y, β, hy, hβ, rfl⟩, .inl (Nat.succ_pos y.dot)⟩
  have hfinite := finite_canonicalSets wf
  rw [← h.ncard_itemSets wf hdistinct, Nat.lt_iff_add_one_le,
    ← Set.ncard_insert_of_notMem hnew (hfinite.subset h.itemSets_subset)]
  exact Set.ncard_le_ncard (Set.insert_subset hnext h.itemSets_subset) hfinite

end Collection

end Lalr
