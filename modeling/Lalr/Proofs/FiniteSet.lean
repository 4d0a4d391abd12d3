import Lalr.BitSet
import Mathlib.Data.Finset.Lattice.Basic
import Mathlib.Data.Finset.Sort
import Mathlib.Order.Bounds.Basic

/-!
# Bit sets are finite sets

Whatever is done with bit sets, they answer every question as the finite sets do
with which the same is done: membership, size, inclusion, equality, the list of
the members, and the news of insertions and unions (`run_isExact`). Masks have
no room of their own, so sets with the same members are equal, however they came
about.

- `members`: a bit set as a finite set, and what each operation does to it.
- `Shows`: the answers of a bit set are those of a finite set.
- `Operation`: what can be done with the sets in any number of registers, on bit
  sets (`apply`, `run`) and on finite sets (`applyFinite`, `runFinite`).
-/

namespace Lalr

namespace BitSet

variable {s t : BitSet} {n : Nat}

/-! ## Members -/

/-- The members as a finite set. -/
def members (s : BitSet) : Finset Nat := s.toList.toFinset

@[simp] theorem mem_members : n ∈ s.members ↔ n ∈ s := by simp [members]

theorem members_inj : s.members = t.members ↔ s = t := by
  refine ⟨fun h => BitSet.ext fun n => ?_, congrArg members⟩
  rw [← mem_members, h, mem_members]

theorem members_subset_iff : s.members ⊆ t.members ↔ s ⊆ t := by
  simp [Finset.subset_iff, subset_def]

@[simp] theorem members_empty : members ∅ = ∅ := by ext; simp

theorem members_insert (s : BitSet) (n : Nat) :
    (s.insert n).members = Insert.insert n s.members := by
  ext
  simp

theorem members_insertMany (s : BitSet) (ns : List Nat) :
    (s.insertMany ns).members = s.members ∪ ns.toFinset := by
  ext
  simp

theorem members_ofList (ns : List Nat) : (ofList ns).members = ns.toFinset := by
  ext
  simp

theorem members_union (s t : BitSet) : (s ∪ t).members = s.members ∪ t.members := by
  ext
  simp

theorem toList_eq_sort (s : BitSet) : s.toList = s.members.sort (· ≤ ·) := by
  refine List.Perm.eq_of_pairwise (fun a b _ _ hab hba => Nat.le_antisymm hab hba)
    (s.pairwise_toList.imp Nat.le_of_lt) (Finset.pairwise_sort ..) ?_
  refine (List.perm_ext_iff_of_nodup (s.pairwise_toList.imp Nat.ne_of_lt)
    (Finset.sort_nodup ..)).mpr fun n => ?_
  simp

theorem size_eq_card (s : BitSet) : s.size = s.members.card := by
  rw [size, toList_eq_sort, Finset.length_sort]

theorem isEmpty_iff : s.isEmpty = true ↔ s.members = ∅ := by
  rw [← members_empty, members_inj, isEmpty, beq_iff_eq]
  exact ⟨fun h => by cases s; cases h; rfl, fun h => h ▸ rfl⟩

/-- The bit set gives all answers that the finite set gives; its members are listed in ascending
order. -/
structure Shows (s : BitSet) (m : Finset Nat) : Prop where
  contains : ∀ n, s.contains n = decide (n ∈ m)
  size : s.size = m.card
  isEmpty : s.isEmpty = decide (m = ∅)
  toList : s.toList = m.sort (· ≤ ·)
  ascending : s.toList.Pairwise (· < ·)

theorem shows_members (s : BitSet) : s.Shows s.members where
  contains n := by rw [Bool.eq_iff_iff, contains_eq_true, decide_eq_true_iff, mem_members]
  size := s.size_eq_card
  isEmpty := by rw [Bool.eq_iff_iff, isEmpty_iff, decide_eq_true_iff]
  toList := s.toList_eq_sort
  ascending := s.pairwise_toList

/-- Sets are equal exactly if their members are listed alike. -/
theorem toList_inj : s.toList = t.toList ↔ s = t := by
  rw [toList_eq_sort, toList_eq_sort, ← members_inj]
  refine ⟨fun h => ?_, fun h => h ▸ rfl⟩
  rw [← Finset.sort_toFinset s.members (· ≤ ·), h, Finset.sort_toFinset]

/-- A union is the least set that has all members of both. -/
theorem isLUB_absorb (s t : BitSet) :
    IsLUB {s.members, t.members} (s.absorb t).2.members := by
  rw [absorb_snd, members_union]
  exact isLUB_pair

/-- A union is news exactly if it adds a member. -/
theorem absorb_fst_iff (s t : BitSet) :
    (s.absorb t).1 = true ↔ ∃ n ∈ t.members, n ∉ s.members := by
  simp [not_subset_iff]

/-! ## Sets in registers -/

/-- What can be done with sets in registers. To insert a natural, or all members of another set, is
answered with whether something is new. -/
inductive Operation (ι : Type) where
  | new (k : ι)
  | ofList (k : ι) (ns : List Nat)
  | copy (k other : ι)
  | extend (k : ι) (ns : List Nat)
  | insert (k : ι) (n : Nat)
  | union (k other : ι)

variable {ι : Type}

/-- The naturals that an operation names. -/
def Operation.names : Operation ι → List Nat
  | ofList _ ns => ns
  | extend _ ns => ns
  | insert _ n => [n]
  | _ => []

variable [DecidableEq ι]

namespace Operation

open Function

/-- The answer of an operation, if it has one, and the sets after it. -/
def apply (sets : ι → BitSet) : Operation ι → Option Bool × (ι → BitSet)
  | new k => (none, update sets k ∅)
  | ofList k ns => (none, update sets k (.ofList ns))
  | copy k other => (none, update sets k (sets other))
  | extend k ns => (none, update sets k ((sets k).insertMany ns))
  | insert k n => (some ((sets k).insertNew n).1, update sets k ((sets k).insertNew n).2)
  | union k other =>
    (some ((sets k).absorb (sets other)).1, update sets k ((sets k).absorb (sets other)).2)

/-- The same with finite sets. -/
def applyFinite (sets : ι → Finset Nat) : Operation ι → Option Bool × (ι → Finset Nat)
  | new k => (none, update sets k ∅)
  | ofList k ns => (none, update sets k ns.toFinset)
  | copy k other => (none, update sets k (sets other))
  | extend k ns => (none, update sets k (sets k ∪ ns.toFinset))
  | insert k n => (some (decide (n ∉ sets k)), update sets k (Insert.insert n (sets k)))
  | union k other =>
    (some (decide (¬sets other ⊆ sets k)), update sets k (sets k ∪ sets other))

/-- An operation has the same answer and makes the same sets. -/
theorem applyFinite_members (sets : ι → BitSet) (op : Operation ι) :
    op.applyFinite (members ∘ sets) = ((op.apply sets).1, members ∘ (op.apply sets).2) := by
  cases op with
  | new k => simp [apply, applyFinite, comp_update]
  | ofList k ns => simp [apply, applyFinite, comp_update, members_ofList]
  | copy k other => simp [apply, applyFinite, comp_update]
  | extend k ns => simp [apply, applyFinite, comp_update, members_insertMany]
  | insert k n =>
    have hnews : ((sets k).insertNew n).1 = decide (n ∉ (sets k).members) := by
      rw [Bool.eq_iff_iff, insertNew_fst, decide_eq_true_iff, mem_members]
    simp only [apply, applyFinite, comp_update, comp_apply, hnews, insertNew_snd, members_insert]
  | union k other =>
    have hnews : ((sets k).absorb (sets other)).1 =
        decide (¬(sets other).members ⊆ (sets k).members) := by
      rw [Bool.eq_iff_iff, absorb_fst, decide_eq_true_iff, members_subset_iff]
    simp only [apply, applyFinite, comp_update, comp_apply, hnews, absorb_snd, members_union]

end Operation

/-- The answers of some operations, and the sets after them. -/
def run (sets : ι → BitSet) : List (Operation ι) → List (Option Bool) × (ι → BitSet)
  | [] => ([], sets)
  | op :: ops =>
    ((op.apply sets).1 :: (run (op.apply sets).2 ops).1, (run (op.apply sets).2 ops).2)

/-- The same with finite sets. -/
def runFinite (sets : ι → Finset Nat) : List (Operation ι) → List (Option Bool) × (ι → Finset Nat)
  | [] => ([], sets)
  | op :: ops => ((op.applyFinite sets).1 :: (runFinite (op.applyFinite sets).2 ops).1,
      (runFinite (op.applyFinite sets).2 ops).2)

theorem runFinite_members (sets : ι → BitSet) (ops : List (Operation ι)) :
    runFinite (members ∘ sets) ops = ((run sets ops).1, members ∘ (run sets ops).2) := by
  induction ops generalizing sets with
  | nil => rfl
  | cons op ops ih => rw [runFinite, op.applyFinite_members, ih, run]

/-! ## Where members come from -/

/-- What holds of all members before an operation and of all naturals that it names holds of all
members after it. -/
theorem Operation.forall_mem_apply {P : Nat → Prop} {sets : ι → BitSet} {op : Operation ι}
    (hnames : ∀ n ∈ op.names, P n) (h : ∀ k, ∀ n ∈ sets k, P n) :
    ∀ k, ∀ n ∈ (op.apply sets).2 k, P n := by
  have hupdate (j : ι) (s : BitSet) (hs : ∀ n ∈ s, P n) :
      ∀ k, ∀ n ∈ Function.update sets j s k, P n :=
    (Function.forall_update_iff sets fun _ s => ∀ n ∈ s, P n).mpr ⟨hs, fun k _ => h k⟩
  cases op with
  | new k => exact hupdate k _ fun n hn => absurd hn (not_mem_empty n)
  | ofList k ns => exact hupdate k _ fun n hn => hnames n (mem_ofList.mp hn)
  | copy k other => exact hupdate k _ (h other)
  | extend k ns => exact hupdate k _ fun n hn => (mem_insertMany.mp hn).elim (h k n) (hnames n)
  | insert k m =>
    refine hupdate k _ fun n hn => ?_
    rw [insertNew_snd, mem_insert] at hn
    exact hn.elim (fun heq => hnames n (List.mem_singleton.mpr heq)) (h k n)
  | union k other =>
    refine hupdate k _ fun n hn => ?_
    rw [absorb_snd, mem_union] at hn
    exact hn.elim (h k n) (h other n)

theorem forall_mem_run {P : Nat → Prop} {sets : ι → BitSet} {ops : List (Operation ι)}
    (hnames : ∀ op ∈ ops, ∀ n ∈ op.names, P n) (h : ∀ k, ∀ n ∈ sets k, P n) :
    ∀ k, ∀ n ∈ (run sets ops).2 k, P n := by
  induction ops generalizing sets with
  | nil => exact h
  | cons op ops ih =>
    rw [List.forall_mem_cons] at hnames
    exact ih hnames.2 (Operation.forall_mem_apply hnames.1 h)

/-! ## Bit sets and finite sets -/

/-- **Bit sets are finite sets.** Whatever is done with the sets in registers, the same done with
finite sets has the same answers, and then each bit set shows its finite set: it gives the same
answers to all questions, and lists the members in ascending order. Every member was named by an
operation. Two of the sets include each other, are equal and are listed alike exactly as the finite
sets are. A union is the least set above both and is news if it adds a member, and an insertion is
news if the natural is not there. -/
theorem run_isExact (ops : List (Operation ι)) : ∃ answers sets finite,
    run (fun _ => ∅) ops = (answers, sets) ∧ runFinite (fun _ => ∅) ops = (answers, finite) ∧
    (∀ k, (sets k).Shows (finite k) ∧ ∀ n ∈ finite k, ∃ op ∈ ops, n ∈ op.names) ∧
    (∀ j k, (sets j ⊆ sets k ↔ finite j ⊆ finite k) ∧ (sets j = sets k ↔ finite j = finite k) ∧
      ((sets j).toList = (sets k).toList ↔ finite j = finite k) ∧
      IsLUB {finite j, finite k} ((sets j).absorb (sets k)).2.members ∧
      (((sets j).absorb (sets k)).1 = true ↔ ∃ n ∈ finite k, n ∉ finite j)) ∧
    ∀ k n, ((sets k).insertNew n).2.members = Insert.insert n (finite k) ∧
      (((sets k).insertNew n).1 = true ↔ n ∉ finite k) := by
  have hnone : members ∘ (fun _ : ι => (∅ : BitSet)) = fun _ => ∅ := funext fun _ => members_empty
  have hfinite := runFinite_members (fun _ : ι => ∅) ops
  have hnamed := forall_mem_run (P := fun n => ∃ op ∈ ops, n ∈ op.names)
    (fun op hop n hn => ⟨op, hop, hn⟩) fun (_ : ι) n hn => absurd hn (not_mem_empty n)
  rw [hnone] at hfinite
  refine ⟨_, _, _, rfl, hfinite, fun k => ⟨shows_members _, fun n hn => ?_⟩, fun j k => ?_,
    fun k n => ?_⟩
  · exact hnamed k n (mem_members.mp hn)
  · exact ⟨members_subset_iff.symm, members_inj.symm, toList_inj.trans members_inj.symm,
      isLUB_absorb _ _, absorb_fst_iff _ _⟩
  · exact ⟨members_insert _ n, by simp⟩

/-- Sets that come together: two of them with 3, one with itself, one with the greatest number of
16 bits, and the same set in another way. -/
def meeting : List (Operation Nat) :=
  [.ofList 0 [3, 0], .insert 1 3, .union 0 1, .copy 2 0, .union 0 2, .union 0 0, .insert 1 3,
    .insert 2 65535, .union 0 2, .extend 3 [65535, 3, 0, 3], .union 1 2, .new 2]

/-- The sets 0 and 3 have the same members then, and they are listed in ascending order. -/
theorem run_isExact_meeting : ∃ answers sets, run (fun _ => ∅) meeting = (answers, sets) ∧
    answers = [none, some true, some false, none, some false, some false, some false, some true,
      some true, none, some true, none] ∧
    sets 0 = sets 3 ∧ (sets 0).toList = [0, 3, 65535] ∧ (sets 0).size = 3 ∧ sets 2 ⊆ sets 0 := by
  obtain ⟨answers, sets, finite, hrun, hfinite, hshows, hpairs, -⟩ := run_isExact meeting
  have hcheck : (runFinite (fun _ => ∅) meeting).1 = [none, some true, some false, none, some false,
      some false, some false, some true, some true, none, some true, none] ∧
      (runFinite (fun _ => ∅) meeting).2 0 = [0, 3, 65535].toFinset ∧
      (runFinite (fun _ => ∅) meeting).2 3 = [0, 3, 65535].toFinset ∧
      (runFinite (fun _ => ∅) meeting).2 2 = ∅ := by decide +kernel
  simp only [hfinite] at hcheck
  obtain ⟨hanswers, hzero, hthree, htwo⟩ := hcheck
  refine ⟨answers, sets, hrun, hanswers, ?_, ?_, ?_, ?_⟩
  · exact (hpairs 0 3).2.1.mpr (hzero.trans hthree.symm)
  · rw [(hshows 0).1.toList, hzero]
    exact (List.toFinset_sort _ (by decide)).mpr (by decide)
  · rw [(hshows 0).1.size, hzero]
    rfl
  · exact (hpairs 2 0).1.mpr (htwo ▸ Finset.empty_subset _)

end BitSet

end Lalr
