import Lalr.Proofs.Closure
import Mathlib.Data.List.Fold
import Mathlib.Data.List.Perm.Basic

/-!
# Hashes of item sets

The hash of an item set is the exclusive or of the Fx hashes of its cores, so it
does not depend on their order. A set remembers its hash until the cores change.

- `fxHash`: the Fx hash of some words. That of a core is the one of its two
  numbers (`Core.hashCode_eq`).
- `xorHash`: the exclusive or. Permuted cores have the same one
  (`xorHash_perm`).
- `ItemSet.IsHashed`: no core is there twice, and the hash that the set remembers
  is the one of the cores that it has now. Every operation on sets keeps this;
  those that merge an item into a member may keep the hash, too.
- `ItemSet.sameCores_iff`: such sets compare equal exactly when they have the
  same cores, and then they have the same hash (`ItemSet.hashCode_congr`).
- `ItemSet.signature_eq_iff_sameCores`: the same goes for signatures, by which
  kernels are looked up.
-/

namespace Lalr

/-! ## Fx hashes -/

/-- One round of the Fx hash: what there is goes five bits to the left, those that leave it come
back in, and a word is mixed in. -/
def fxRound (hash word : BitVec 64) : BitVec 64 :=
  (hash.rotateLeft 5 ^^^ word) * 0x517cc1b727220a95#64

/-- The Fx hash of some words. -/
def fxHash (words : List (BitVec 64)) : BitVec 64 := words.foldl fxRound 0

/-- The numbers of the production and of the marker, each in a word of its own. -/
def Core.words (c : Core) : List (BitVec 64) :=
  [.ofNat 64 c.production, c.dot.toBitVec.setWidth 64]

/-- The exclusive or of the hashes of the cores. -/
def xorHash (cores : List Core) : UInt64 :=
  (cores.map fun core => .ofBitVec (fxHash core.words)).foldr (· ^^^ ·) 0

/-- The order of the cores does not matter. -/
theorem xorHash_perm {cores cores' : List Core} (h : cores.Perm cores') :
    xorHash cores = xorHash cores' :=
  (h.map _).foldr_op_eq

namespace Core

theorem toBitVec_mixWord (hash word : UInt64) :
    (mixWord hash word).toBitVec = fxRound hash.toBitVec word.toBitVec := by
  -- the two shifts are by constants, so they make up the rotation as it is defined
  have hrotate : (hash <<< 5 ||| hash >>> 59).toBitVec = hash.toBitVec.rotateLeft 5 := rfl
  rw [mixWord, fxRound, UInt64.toBitVec_mul, UInt64.toBitVec_xor, hrotate]
  rfl

theorem hashCode_eq (c : Core) : c.hashCode = .ofBitVec (fxHash c.words) := by
  rw [← UInt64.toBitVec_inj, hashCode, toBitVec_mixWord, toBitVec_mixWord]
  rfl

end Core

namespace ItemSet

variable {s t s' : ItemSet} {a a' : Arena} {core : Core} {id : ItemId} {placed : Placed}

theorem coreHash_eq (s : ItemSet) : s.coreHash = xorHash s.cores := by
  unfold coreHash xorHash cores
  simp only [← Core.hashCode_eq]
  rw [← Array.foldl_toList, ← List.foldl_eq_foldr, List.map_map, List.foldl_map]
  rfl

/-! ## Equal sets -/

theorem isSubset_iff : s.isSubset t = true ↔ s.cores ⊆ t.cores := by
  unfold isSubset
  rw [Array.all_eq_true_iff_forall_mem]
  constructor
  · intro h core hcore
    obtain ⟨id, hmem⟩ := mem_cores_iff.mp hcore
    exact contains_iff.mp (h _ (Array.mem_toList_iff.mp hmem))
  · intro h member hmem
    refine contains_iff.mpr (h ?_)
    exact mem_cores_iff.mpr ⟨member.2, Array.mem_toList_iff.mpr hmem⟩

theorem length_cores (s : ItemSet) : s.cores.length = s.size := by simp [cores, size]

/-- A set that has as many cores as another one, all of them cores of that one, lacks none. -/
theorem sameCores_iff_perm (hs : s.cores.Nodup) :
    s.sameCores t = true ↔ s.cores.Perm t.cores := by
  unfold sameCores
  rw [Bool.and_eq_true, beq_iff_eq, isSubset_iff, ← length_cores, ← length_cores]
  constructor
  · rintro ⟨hlength, hsub⟩
    exact (List.subperm_of_subset hs hsub).perm_of_length_le (Nat.le_of_eq hlength.symm)
  · exact fun hperm => ⟨hperm.length_eq, hperm.subset⟩

theorem sameCores_iff (hs : s.cores.Nodup) (ht : t.cores.Nodup) :
    s.sameCores t = true ↔ ∀ core, core ∈ s.cores ↔ core ∈ t.cores := by
  rw [sameCores_iff_perm hs, List.perm_ext_iff_of_nodup hs ht]

/-- Kernels are looked up by their signatures: those with the same one compare equal. -/
theorem signature_eq_iff_sameCores (hs : s.cores.Nodup) (ht : t.cores.Nodup) :
    s.signature = t.signature ↔ s.sameCores t = true :=
  signature_eq_iff.trans (sameCores_iff hs ht).symm

/-! ## Remembered hashes -/

theorem toList_hashCode (s : ItemSet) : s.hashCode.2.toList = s.toList := by
  unfold hashCode
  split <;> rfl

/-- No core is there twice, and a hash that is remembered is the one of the cores. -/
structure IsHashed (s : ItemSet) : Prop where
  nodup : s.cores.Nodup
  cached : ∀ hash, s.cached = some hash → hash = xorHash s.cores

namespace IsHashed

theorem empty : ItemSet.empty.IsHashed := ⟨.nil, nofun⟩

/-- Sets that remember nothing are right about it. -/
theorem of_cached_eq_none (hnodup : s.cores.Nodup) (hnone : s.cached = none) : s.IsHashed := by
  refine ⟨hnodup, fun hash hsome => ?_⟩
  rw [hnone] at hsome
  cases hsome

theorem push (h : s.IsHashed) (habsent : s.contains core = false) (id : ItemId) :
    (s.push core id).IsHashed :=
  .of_cached_eq_none (nodup_cores_push h.nodup habsent) rfl

/-- A merge leaves the set as it is, with the hash that it remembers. -/
theorem add (h : s.IsHashed) (hadd : s.add a id = .ok placed) : placed.set.IsHashed := by
  obtain ⟨item, -, ⟨existing, grew, b, -, -, rfl⟩ | ⟨habsent, rfl⟩⟩ := add_cases hadd
  · exact h
  · exact h.push habsent id

theorem addNew {lookahead : TerminalSet} (h : s.IsHashed)
    (hadd : s.addNew a core lookahead = .ok placed) : placed.set.IsHashed := by
  unfold ItemSet.addNew at hadd
  split at hadd
  · obtain ⟨b, -, hadd⟩ := bind_eq_ok_iff.mp hadd
    cases hadd
    exact h
  · next hfind =>
    cases hadd
    exact h.push (find?_eq_none_iff.mp hfind) _

theorem addSet (h : s.IsHashed) (hadd : s.addSet t a = .ok (s', a')) : s'.IsHashed := by
  refine foldlM_induction (P := fun r : ItemSet × Arena => r.1.IsHashed) hadd h ?_
  rintro id - ⟨r, b⟩ next hr hstep
  obtain ⟨placed, hplaced, rfl⟩ := map_eq_ok_iff.mp hstep
  exact hr.add hplaced

/-- What goes out takes the hash along. -/
theorem sublist (h : s.IsHashed) (hsub : s'.toList.Sublist s.toList) (hnone : s'.cached = none) :
    s'.IsHashed :=
  .of_cached_eq_none (h.nodup.sublist (hsub.map Prod.fst)) hnone

theorem remove (h : s.IsHashed) (core : Core) : (s.remove core).2.IsHashed :=
  h.sublist (remove_sublist s core) rfl

theorem removeSet (h : s.IsHashed) (t : ItemSet) : (s.removeSet t).IsHashed :=
  removeSet_induction t (fun _ core hr => hr.remove core) h

theorem takeLast? (h : s.IsHashed) (htake : s.takeLast? = some (id, s')) : s'.IsHashed := by
  refine h.sublist (takeLast?_sublist htake) ?_
  unfold ItemSet.takeLast? at htake
  split at htake <;> cases htake
  rfl

theorem closure {g : Grammar} (h : s.IsHashed) (hclosure : s.closure g a = .ok (s', a')) :
    s'.IsHashed := by
  refine Closing.run_induction (P := fun set _ => set.IsHashed) ?_ ?_ hclosure
  · intro source isVisible lookahead p before after hbefore hpredict
    obtain ⟨placed, linked, hplaced, -, rfl⟩ := Closing.exists_of_predict hpredict
    exact hbefore.addNew hplaced
  · exact .of_cached_eq_none h.nodup rfl

/-- The hash that a set answers with, remembered or not, is the one of its cores. -/
theorem hashCode_fst (h : s.IsHashed) : s.hashCode.1 = xorHash s.cores := by
  unfold ItemSet.hashCode
  split
  · next hash hcached => exact h.cached hash hcached
  · exact coreHash_eq s

theorem hashCode_snd (h : s.IsHashed) : s.hashCode.2.IsHashed := by
  unfold ItemSet.hashCode
  split
  · exact h
  · refine ⟨h.nodup, fun hash hcached => ?_⟩
    cases hcached
    exact coreHash_eq s

end IsHashed

/-- Sets that compare equal have the same hash. -/
theorem hashCode_congr (hs : s.IsHashed) (ht : t.IsHashed) (h : s.sameCores t = true) :
    s.hashCode.1 = t.hashCode.1 := by
  rw [hs.hashCode_fst, ht.hashCode_fst]
  exact xorHash_perm ((sameCores_iff_perm hs.nodup).mp h)

end ItemSet

end Lalr
