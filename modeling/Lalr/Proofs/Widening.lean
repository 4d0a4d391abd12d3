import Lalr.Proofs.Arena
import Mathlib.Logic.Basic

/-!
# Arenas that differ in lookaheads

Some operations on items change nothing but lookaheads, and only let them grow.

- `Arena.skeleton`: what an arena says apart from lookaheads.
- `Arena.Widens`: one arena comes from another by lookaheads that grow. Arenas
  that widen and look at the same terminals are equal (`Widens.eq_of_looks`).
- `absorb_widens`: a union of lookaheads widens the arena.
-/

namespace Lalr

namespace Arena

variable {a b c : Arena} {id source target : ItemId} {t : TerminalId}

/-- What an arena says apart from lookaheads: the cores of the items and their targets in the order
in which they were linked. -/
def skeleton (a : Arena) : List (Core × Array ItemId) :=
  a.items.toList.map fun item => (item.core, item.targets)

theorem getElem?_skeleton (a : Arena) (id : ItemId) :
    a.skeleton[id]? = a[id]?.map fun item => (item.core, item.targets) := by
  rw [skeleton, List.getElem?_map, Array.getElem?_toList, getElem?_items]

/-- The arena `b` is `a` with lookaheads that may have grown. -/
structure Widens (a b : Arena) : Prop where
  skeleton_eq : b.skeleton = a.skeleton
  looks : ∀ {id t}, a.Looks id t → b.Looks id t

theorem Widens.refl (a : Arena) : a.Widens a := ⟨rfl, id⟩

theorem Widens.trans (h : a.Widens b) (h' : b.Widens c) : a.Widens c :=
  ⟨h'.skeleton_eq.trans h.skeleton_eq, fun ht => h'.looks (h.looks ht)⟩

theorem Widens.cores_eq (h : a.Widens b) : b.cores = a.cores := by
  have hcores (c : Arena) : c.cores = c.skeleton.map Prod.fst := by
    rw [cores, skeleton, List.map_map]
    rfl
  rw [hcores, hcores, h.skeleton_eq]

theorem Widens.links_iff (h : a.Widens b) : b.Links source target ↔ a.Links source target := by
  have hlinks (c : Arena) :
      c.Links source target ↔ ∃ entry, c.skeleton[source]? = some entry ∧ target ∈ entry.2 := by
    simp [Links, getElem?_skeleton]
  rw [hlinks, hlinks, h.skeleton_eq]

theorem Widens.size_eq (h : a.Widens b) : b.size = a.size := by
  rw [← length_cores, ← length_cores, h.cores_eq]

/-- What is at a place is the same item, apart from its lookahead. -/
theorem Widens.exists_item (h : a.Widens b) {item : Item} (ha : a[id]? = some item) :
    ∃ item', b[id]? = some item' ∧ item'.core = item.core ∧ item'.targets = item.targets := by
  have hentry := congrArg (·[id]?) h.skeleton_eq
  simp only [getElem?_skeleton, ha, Option.map_some, Option.map_eq_some_iff] at hentry
  obtain ⟨item', hb, heq⟩ := hentry
  obtain ⟨hcore, htargets⟩ := Prod.mk.inj heq
  exact ⟨item', hb, hcore, htargets⟩

theorem Widens.getElem?_eq_none (h : a.Widens b) (ha : a[id]? = none) : b[id]? = none := by
  rw [getElem?_eq_none_iff] at ha ⊢
  exact h.size_eq ▸ ha

/-- The lookaheads at a place differ exactly when the wider one has a terminal more. -/
theorem Widens.lookahead_ne_iff (h : a.Widens b) :
    a[id]?.map Item.lookahead ≠ b[id]?.map Item.lookahead ↔
      ∃ t, b.Looks id t ∧ ¬a.Looks id t := by
  cases ha : a[id]? with
  | none => simp [Looks, ha, h.getElem?_eq_none ha]
  | some item =>
    obtain ⟨item', hb, -⟩ := h.exists_item ha
    have hsub : item.lookahead ⊆ item'.lookahead := fun t ht =>
      (looks_iff hb).mp (h.looks ((looks_iff ha).mpr ht))
    simp only [looks_iff ha, looks_iff hb, hb, Option.map_some, ne_eq, Option.some.injEq]
    rw [← BitSet.not_subset_iff, not_iff_not]
    exact ⟨fun heq => heq ▸ BitSet.Subset.refl _, BitSet.Subset.antisymm hsub⟩

/-- Where a wider arena says the same, it has the same item. -/
theorem Widens.getElem?_eq (h : a.Widens b) (hlooks : ∀ t, b.Looks id t → a.Looks id t) :
    b[id]? = a[id]? := by
  cases ha : a[id]? with
  | none => exact h.getElem?_eq_none ha
  | some item =>
    obtain ⟨item', hb, hcore, htargets⟩ := h.exists_item ha
    have hsame : a[id]?.map Item.lookahead = b[id]?.map Item.lookahead :=
      Classical.byContradiction fun hne =>
        let ⟨t, ht, hnot⟩ := h.lookahead_ne_iff.mp hne
        hnot (hlooks t ht)
    rw [ha, hb, Option.map_some, Option.map_some, Option.some.injEq] at hsame
    rw [hb]
    cases item
    cases item'
    simp_all

/-- Arenas that say the same are equal. -/
theorem Widens.eq_of_looks (h : a.Widens b) (hlooks : ∀ id t, b.Looks id t → a.Looks id t) :
    b = a :=
  Arena.ext fun id => h.getElem?_eq (hlooks id)

theorem widens_modify_extend {old : Item} (h : a[id]? = some old) (lookahead : TerminalSet) :
    a.Widens (a.modify id fun item => item.extend lookahead) := by
  refine ⟨List.ext_getElem? fun k => ?_, (growth_modify_extend h lookahead).looks⟩
  rw [getElem?_skeleton, getElem?_skeleton, getElem?_modify]
  split
  · rw [Option.map_map]
    rfl
  · rfl

/-! ## Unions of lookaheads -/

/-- A union that has a result has its target in the arena, unless that is the source. -/
theorem target_of_absorb {grew : Bool} (h : a.absorb target source = .ok (grew, b)) :
    target = source ∨ target < a.size := by
  unfold absorb at h
  split at h
  · next heq => exact .inl heq
  · split at h
    · next hold _ => exact .inr (lt_size_of_getElem? hold)
    · cases h

/-- A union changes nothing but lookaheads. -/
theorem absorb_widens {grew : Bool} (h : a.absorb target source = .ok (grew, b)) :
    a.Widens b := by
  unfold absorb at h
  split at h
  · cases h
    exact .refl a
  · split at h
    · next old item hold _ =>
      dsimp only at h
      split at h
      · cases h
        exact .refl a
      · cases h
        exact widens_modify_extend hold _
    · cases h

/-- A union by which a lookahead grows changes nothing else. -/
theorem widens_of_absorb (h : a.absorb target source = .ok (true, b)) :
    a.Widens b ∧ ∃ t, b.Looks target t ∧ ¬a.Looks target t := by
  refine ⟨absorb_widens h, ?_⟩
  unfold absorb at h
  split at h
  · cases h
  · split at h
    · next old item hold hitem =>
      dsimp only at h
      split at h
      · cases h
      · next hnew =>
        cases h
        obtain ⟨t, ht, hnot⟩ := BitSet.not_subset_iff.mp hnew
        refine ⟨t, ?_, by rwa [looks_iff hold]⟩
        exact ((growth_modify_extend hold item.lookahead).looks_iff _ _).mpr (.inr ⟨rfl, ht⟩)
    · cases h

end Arena

end Lalr
