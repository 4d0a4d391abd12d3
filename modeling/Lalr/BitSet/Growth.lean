import Lalr.BitSet

/-!
# Sets that only grow

Loops that let sets grow until nothing changes end because there is only so much to gain. `room`
counts, on the masks, what the sets of a list still lack to a common ceiling, and `room_set_lt` says
that it gets smaller when one of them grows below the ceiling. `join` is the least ceiling.
-/

namespace Lalr.BitSet

/-- The union of all sets of a list. -/
def join (sets : List BitSet) : BitSet := sets.foldr (· ∪ ·) ∅

/-- What the masks of the sets lack to the mask of the ceiling, added up. -/
def room (ceiling : BitSet) (sets : List BitSet) : Nat :=
  sets.foldr (fun s lacking => ceiling.bits - s.bits + lacking) 0

@[simp] theorem mem_join {n : Nat} {sets : List BitSet} : n ∈ join sets ↔ ∃ s ∈ sets, n ∈ s := by
  induction sets with
  | nil => simp [join]
  | cons s sets ih =>
    rw [show join (s :: sets) = s ∪ join sets from rfl, mem_union, ih]
    simp

theorem subset_join {s : BitSet} {sets : List BitSet} (h : s ∈ sets) : s ⊆ join sets :=
  fun _ m => mem_join.2 ⟨s, h, m⟩

/-- The union stays the same when one of the sets grows by members that some set already has. -/
theorem join_set {sets : List BitSet} {i : Nat} {t : BitSet} (lt : i < sets.length)
    (grows : sets[i] ⊆ t) (known : t ⊆ join sets) : join (sets.set i t) = join sets := by
  refine ext fun n => ?_
  simp only [mem_join, List.mem_iff_getElem, List.length_set, List.getElem_set]
  constructor
  · rintro ⟨s, ⟨j, k, rfl⟩, m⟩
    split at m
    · simpa only [mem_join, List.mem_iff_getElem] using known n m
    · exact ⟨_, ⟨j, k, rfl⟩, m⟩
  · rintro ⟨s, ⟨j, k, rfl⟩, m⟩
    refine ⟨_, ⟨j, k, rfl⟩, ?_⟩
    split
    · next e =>
      subst e
      exact grows n m
    · exact m

/-- One set gets smaller room by growing below the ceiling, and so does the whole list. -/
theorem room_set_lt {ceiling t : BitSet} {sets : List BitSet} {i : Nat} (lt : i < sets.length)
    (grows : sets[i] ⊆ t) (proper : ¬t ⊆ sets[i]) (below : t ⊆ ceiling) :
    room ceiling (sets.set i t) < room ceiling sets := by
  induction sets generalizing i with
  | nil => simp at lt
  | cons s sets ih =>
    cases i with
    | zero =>
      have := bits_lt_bits grows proper
      have := bits_le_bits below
      simp only [room, List.set_cons_zero, List.foldr_cons, List.getElem_cons_zero] at *
      omega
    | succ i =>
      have := ih (Nat.lt_of_succ_lt_succ lt) grows proper
      simp only [room, List.set_cons_succ, List.foldr_cons] at *
      omega

end Lalr.BitSet
