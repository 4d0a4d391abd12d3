/-!
# Bit sets

A `BitSet` is a finite set of naturals kept in one mask. It serves for sets of terminals and of
nonterminals, whose members are small indices.

- Membership is the view: `mem_insert`, `mem_union`, `mem_ofList` say what each operation does to
  it, and `BitSet.ext` says that it determines the set.
- `toList` is the strictly ascending list of members.
- `insertNew` and `absorb` are insertion and union together with the news whether anything was
  added.
- `bits_lt_bits` orders a set below every proper superset, for loops that end because sets only
  grow.
-/

namespace Lalr

/-- A finite set of naturals: `n` is a member when bit `n` of the mask is set. -/
structure BitSet where
  bits : Nat
deriving DecidableEq, Repr

namespace BitSet

instance : EmptyCollection BitSet := ⟨⟨0⟩⟩

instance : Inhabited BitSet := ⟨∅⟩

/-- Whether `n` is a member. -/
def contains (s : BitSet) (n : Nat) : Bool := s.bits.testBit n

instance : Membership Nat BitSet := ⟨fun s n => s.contains n = true⟩

instance (n : Nat) (s : BitSet) : Decidable (n ∈ s) :=
  inferInstanceAs (Decidable (s.contains n = true))

instance : HasSubset BitSet := ⟨fun s t => ∀ n, n ∈ s → n ∈ t⟩

instance : Union BitSet := ⟨fun s t => ⟨s.bits ||| t.bits⟩⟩

/-- The set with `n` added. -/
def insert (s : BitSet) (n : Nat) : BitSet := ⟨s.bits ||| 1 <<< n⟩

/-- The set with `n` added, and whether `n` is new. -/
def insertNew (s : BitSet) (n : Nat) : Bool × BitSet := (!s.contains n, s.insert n)

/-- The set with all of `ns` added. -/
def insertMany (s : BitSet) (ns : List Nat) : BitSet := ns.foldl insert s

/-- The set of the naturals in a list. -/
def ofList (ns : List Nat) : BitSet := insertMany ∅ ns

/-- The set whose only member is `n`. -/
def singleton (n : Nat) : BitSet := insert ∅ n

/-- Whether there is no member. -/
def isEmpty (s : BitSet) : Bool := s.bits == 0

/-- A mask without its highest bit. -/
def withoutHighest (bits : Nat) : Nat := bits % Nat.pow 2 bits.log2

theorem withoutHighest_lt {bits : Nat} (h : bits ≠ 0) : withoutHighest bits < bits :=
  Nat.lt_of_lt_of_le (Nat.mod_lt _ (Nat.two_pow_pos _)) (Nat.log2_self_le h)

/-- The members of a mask in ascending order, followed by `rest`: the highest bit is taken off
first. -/
def ascending (bits : Nat) (rest : List Nat) : List Nat :=
  if _empty : bits = 0 then rest else ascending (withoutHighest bits) (bits.log2 :: rest)
termination_by bits
decreasing_by exact withoutHighest_lt _empty

/-- The members in ascending order. -/
def toList (s : BitSet) : List Nat := ascending s.bits []

/-- The number of members. -/
def size (s : BitSet) : Nat := s.toList.length

/-! ## Membership -/

theorem mem_iff_testBit {n : Nat} {s : BitSet} : n ∈ s ↔ s.bits.testBit n = true := Iff.rfl

@[simp] theorem contains_eq_true {s : BitSet} {n : Nat} : s.contains n = true ↔ n ∈ s := Iff.rfl

@[ext] theorem ext {s t : BitSet} (h : ∀ n, n ∈ s ↔ n ∈ t) : s = t := by
  cases s with | mk a =>
  cases t with | mk b =>
  exact congrArg mk (Nat.eq_of_testBit_eq fun n => Bool.eq_iff_iff.2 (h n))

@[simp] theorem not_mem_empty (n : Nat) : n ∉ (∅ : BitSet) := by
  simp [mem_iff_testBit, EmptyCollection.emptyCollection]

@[simp] theorem mem_union {n : Nat} {s t : BitSet} : n ∈ s ∪ t ↔ n ∈ s ∨ n ∈ t := by
  simp [mem_iff_testBit, Union.union]

@[simp] theorem mem_insert {n m : Nat} {s : BitSet} : n ∈ s.insert m ↔ n = m ∨ n ∈ s := by
  simp only [mem_iff_testBit, insert, Nat.testBit_or, Nat.one_shiftLeft, Nat.testBit_two_pow,
    Bool.or_eq_true, decide_eq_true_eq]
  rw [or_comm, @eq_comm _ m]

@[simp] theorem insertNew_fst {s : BitSet} {n : Nat} : (s.insertNew n).1 = true ↔ n ∉ s := by
  simp [insertNew, ← contains_eq_true]

@[simp] theorem insertNew_snd (s : BitSet) (n : Nat) : (s.insertNew n).2 = s.insert n := rfl

@[simp] theorem mem_singleton {n m : Nat} : n ∈ singleton m ↔ n = m := by simp [singleton]

@[simp] theorem mem_insertMany {n : Nat} {s : BitSet} {ns : List Nat} :
    n ∈ s.insertMany ns ↔ n ∈ s ∨ n ∈ ns := by
  unfold insertMany
  induction ns generalizing s with
  | nil => simp
  | cons m ns ih => simp only [List.foldl_cons, ih, mem_insert, List.mem_cons]; grind

@[simp] theorem mem_ofList {n : Nat} {ns : List Nat} : n ∈ ofList ns ↔ n ∈ ns := by simp [ofList]

/-! ## Inclusion -/

theorem subset_def {s t : BitSet} : s ⊆ t ↔ ∀ n, n ∈ s → n ∈ t := Iff.rfl

theorem Subset.refl (s : BitSet) : s ⊆ s := fun _ h => h

theorem Subset.trans {s t u : BitSet} (h : s ⊆ t) (k : t ⊆ u) : s ⊆ u := fun n m => k n (h n m)

theorem Subset.antisymm {s t : BitSet} (h : s ⊆ t) (k : t ⊆ s) : s = t :=
  ext fun n => ⟨h n, k n⟩

theorem not_subset_iff {s t : BitSet} : ¬s ⊆ t ↔ ∃ n, n ∈ s ∧ n ∉ t := by
  simp only [subset_def, Classical.not_forall, exists_prop]

theorem subset_union_left (s t : BitSet) : s ⊆ s ∪ t := fun _ h => mem_union.2 (.inl h)

theorem subset_union_right (s t : BitSet) : t ⊆ s ∪ t := fun _ h => mem_union.2 (.inr h)

theorem union_subset {s t u : BitSet} (h : s ⊆ u) (k : t ⊆ u) : s ∪ t ⊆ u := fun n m =>
  (mem_union.1 m).elim (h n) (k n)

/-- A set lies in another one exactly when it adds nothing to it. -/
theorem subset_iff_union_eq {s t : BitSet} : s ⊆ t ↔ s ∪ t = t := by
  refine ⟨fun h => ext fun n => by grind [subset_def, mem_union], fun h n m => ?_⟩
  rw [← h]
  exact mem_union.2 (.inl m)

instance (s t : BitSet) : Decidable (s ⊆ t) := decidable_of_iff _ subset_iff_union_eq.symm

/-- The union, and whether it has a member that `s` does not have. -/
def absorb (s t : BitSet) : Bool × BitSet := if t ⊆ s then (false, s) else (true, s ∪ t)

@[simp] theorem absorb_snd (s t : BitSet) : (s.absorb t).2 = s ∪ t := by
  unfold absorb
  split
  · next h =>
    refine ext fun n => ?_
    rw [mem_union]
    exact ⟨.inl, fun m => m.elim id (h n)⟩
  · rfl

@[simp] theorem absorb_fst (s t : BitSet) : (s.absorb t).1 = true ↔ ¬t ⊆ s := by
  unfold absorb
  split <;> simp_all

theorem bits_le_bits {s t : BitSet} (h : s ⊆ t) : s.bits ≤ t.bits := by
  rw [subset_iff_union_eq] at h
  rw [← h]
  exact Nat.left_le_or

/-- A proper subset has the smaller mask. -/
theorem bits_lt_bits {s t : BitSet} (h : s ⊆ t) (k : ¬t ⊆ s) : s.bits < t.bits := by
  refine Nat.lt_of_le_of_ne (bits_le_bits h) fun e => k ?_
  cases s with | mk a =>
  cases t with | mk b =>
  cases (show a = b from e)
  exact Subset.refl _

/-! ## The ascending list -/

theorem testBit_withoutHighest {bits n : Nat} :
    (withoutHighest bits).testBit n = true ↔ n < bits.log2 ∧ bits.testBit n = true := by
  rw [withoutHighest, Nat.pow_eq, Nat.testBit_mod_two_pow, Bool.and_eq_true, decide_eq_true_eq]

theorem testBit_iff_log2 {bits n : Nat} (h : bits ≠ 0) :
    bits.testBit n = true ↔ n = bits.log2 ∨ (withoutHighest bits).testBit n = true := by
  rw [testBit_withoutHighest]
  rcases Nat.lt_trichotomy n bits.log2 with k | k | k
  · simp [k, Nat.ne_of_lt k]
  · simp [k, Nat.testBit_log2 h]
  · have : bits < 2 ^ n := (Nat.log2_lt h).1 k
    simp [Nat.testBit_lt_two_pow this]
    omega

theorem mem_ascending {bits n : Nat} {rest : List Nat} :
    n ∈ ascending bits rest ↔ bits.testBit n = true ∨ n ∈ rest := by
  fun_induction ascending bits rest with
  | case1 => simp
  | case2 bits rest h ih => rw [ih, List.mem_cons, testBit_iff_log2 h]; grind

theorem pairwise_ascending {bits : Nat} {rest : List Nat} (h : rest.Pairwise (· < ·))
    (k : ∀ n m, bits.testBit n = true → m ∈ rest → n < m) :
    (ascending bits rest).Pairwise (· < ·) := by
  fun_induction ascending bits rest with
  | case1 => exact h
  | case2 bits rest nonzero ih =>
    have above := List.pairwise_cons.2 ⟨fun m => k _ m (Nat.testBit_log2 nonzero), h⟩
    refine ih above fun n m a b => ?_
    rcases List.mem_cons.1 b with rfl | b
    · exact (testBit_withoutHighest.1 a).1
    · exact k n m ((testBit_iff_log2 nonzero).2 (.inr a)) b

@[simp] theorem mem_toList {n : Nat} {s : BitSet} : n ∈ s.toList ↔ n ∈ s := by
  simp [toList, mem_ascending, mem_iff_testBit]

theorem pairwise_toList (s : BitSet) : s.toList.Pairwise (· < ·) :=
  pairwise_ascending .nil fun _ _ _ h => absurd h List.not_mem_nil

end BitSet

end Lalr
