import Lalr.Proofs.Evolution
import Mathlib.Order.Monotone.Basic

/-!
# Arenas under other numbers

An arena can have the items of another one under other numbers, in the same
order, with spare items among them: items that no link leads from or to. Nobody
who starts from the items of the first arena can tell the two apart.

- `Arena.Renumbered`: one arena has the items of the other, and spare ones.
- `Renumbered.alloc`, `Renumbered.alloc_spare`: an item that both get, and one
  that only the second gets. Later numbers make room for it (`skipping`).
- `Renumbered.modify`: what is done to one item in both. Unions and links are
  changes of this kind (`absorb_eq_modify`, `linkIf_eq_modify`).
- `Renumbered.propagate`: spare items take no part in propagation, and are not
  counted.
-/

namespace Lalr

/-! ## Numbers -/

/-- The numbers `ρ`, with those from `n` on one greater to make room for one more item. -/
def skipping (n : ItemId) (ρ : ItemId → ItemId) (k : ItemId) : ItemId :=
  if k < n then ρ k else ρ k + 1

section Numbers

variable {ρ σ : ItemId → ItemId} {n k : ItemId}

theorem skipping_of_lt (h : k < n) : skipping n ρ k = ρ k := if_pos h

theorem skipping_of_le (h : n ≤ k) : skipping n ρ k = ρ k + 1 := if_neg (Nat.not_lt_of_le h)

theorem strictMono_skipping (hρ : StrictMono ρ) : StrictMono (skipping n ρ) := by
  intro j k hlt
  by_cases hk : k < n
  · rw [skipping_of_lt (Nat.lt_trans hlt hk), skipping_of_lt hk]
    exact hρ hlt
  · rw [skipping_of_le (Nat.le_of_not_lt hk), skipping]
    split
    · exact Nat.lt_succ_of_lt (hρ hlt)
    · exact Nat.succ_lt_succ (hρ hlt)

/-- The item with the numbers `ρ` for those to which it is linked. -/
def Item.renumber (ρ : ItemId → ItemId) (item : Item) : Item :=
  { item with targets := item.targets.map ρ }

@[simp] theorem Item.lookahead_renumber (ρ : ItemId → ItemId) (item : Item) :
    (item.renumber ρ).lookahead = item.lookahead := rfl

@[simp] theorem Item.renumber_id : Item.renumber id = id := by
  funext item
  simp [renumber]

theorem Item.renumber_congr {item : Item} (h : ∀ k ∈ item.targets, ρ k = σ k) :
    item.renumber ρ = item.renumber σ := by
  rw [renumber, renumber, Array.map_congr_left h]

end Numbers

/-! ## Sets under other numbers -/

namespace ItemSet

variable {ρ σ : ItemId → ItemId} {s : ItemSet}

/-- The set with the numbers `ρ` for its items. -/
def renumber (ρ : ItemId → ItemId) (s : ItemSet) : ItemSet :=
  ⟨s.members.map fun member => (member.1, ρ member.2), s.cached⟩

@[simp] theorem cores_renumber (ρ : ItemId → ItemId) (s : ItemSet) :
    (s.renumber ρ).cores = s.cores := by
  simp [renumber, cores, Function.comp_def]

@[simp] theorem ids_renumber (ρ : ItemId → ItemId) (s : ItemSet) :
    (s.renumber ρ).ids = s.ids.map ρ := by
  simp [renumber, ids, Function.comp_def]

@[simp] theorem renumber_id (s : ItemSet) : s.renumber id = s := by
  simp [renumber]

theorem renumber_congr (h : ∀ id ∈ s.ids, ρ id = σ id) : s.renumber ρ = s.renumber σ := by
  unfold renumber
  congr 1
  refine Array.map_congr_left fun member hmem => ?_
  rw [h member.2 (List.mem_map.mpr ⟨member, Array.mem_toList_iff.mpr hmem, rfl⟩)]

theorem renumber_push (ρ : ItemId → ItemId) (s : ItemSet) (core : Core) (id : ItemId) :
    (s.push core id).renumber ρ = (s.renumber ρ).push core (ρ id) := by
  simp [renumber, push]

theorem find?_renumber (ρ : ItemId → ItemId) (s : ItemSet) (core : Core) :
    (s.renumber ρ).find? core = (s.find? core).map ρ := by
  simp [renumber, find?, Array.find?_map, Function.comp_def]

/-- The hash depends on the cores alone. -/
theorem hashCode_renumber (ρ : ItemId → ItemId) (s : ItemSet) :
    (s.renumber ρ).hashCode.1 = s.hashCode.1 := by
  have hhash : (s.renumber ρ).coreHash = s.coreHash := Array.foldl_map
  unfold hashCode renumber
  cases s.cached with
  | some hash => rfl
  | none => exact hhash

end ItemSet

/-! ## Operations as changes of one item -/

/-- The item with a link, unless it has it already. -/
def Item.linkOnce (item : Item) (target : ItemId) : Item :=
  if item.targets.contains target then item else item.linkTo target

theorem Item.renumber_linkOnce {ρ : ItemId → ItemId} (hρ : Function.Injective ρ) (item : Item)
    (target : ItemId) :
    (item.linkOnce target).renumber ρ = (item.renumber ρ).linkOnce (ρ target) := by
  have hcontains : (item.renumber ρ).targets.contains (ρ target) =
      item.targets.contains target := by
    rw [Bool.eq_iff_iff]
    simp [renumber, hρ.eq_iff]
  unfold linkOnce
  rw [hcontains]
  split
  · rfl
  · simp [renumber, linkTo]

theorem Item.extend_of_subset {item : Item} {lookahead : TerminalSet}
    (h : lookahead ⊆ item.lookahead) : item.extend lookahead = item := by
  have hunion : item.lookahead ∪ lookahead = item.lookahead :=
    BitSet.ext fun t => by simpa using h t
  rw [extend, hunion]

namespace Arena

variable {ρ : ItemId → ItemId} {a b a' b' : Arena} {k source target : ItemId} {t : TerminalId}

theorem modify_eq_self {item : Item} {f : Item → Item} (h : a[k]? = some item)
    (hf : f item = item) : a.modify k f = a := by
  refine Arena.ext fun j => ?_
  rw [getElem?_modify]
  split
  · next heq => rw [← heq, h, Option.map_some, hf]
  · rfl

theorem modify_congr {item : Item} {f f' : Item → Item} (h : a[k]? = some item)
    (hf : f item = f' item) : a.modify k f = a.modify k f' := by
  refine Arena.ext fun j => ?_
  rw [getElem?_modify, getElem?_modify]
  split
  · next heq => rw [← heq, h, Option.map_some, Option.map_some, hf]
  · rfl

theorem extendLookahead_eq_modify {lookahead : TerminalSet}
    (h : a.extendLookahead k lookahead = .ok b) :
    b = a.modify k fun item => item.extend lookahead := by
  obtain ⟨_, -, h⟩ := bind_eq_ok_iff.mp h
  exact (pure_eq_ok_iff.mp h).symm

/-- A union of different items extends the first one, even where that changes nothing. -/
theorem absorb_eq_modify {old item : Item} (hne : target ≠ source) (hold : a[target]? = some old)
    (hitem : a[source]? = some item) : ∃ grew,
    a.absorb target source = .ok (grew, a.modify target fun old => old.extend item.lookahead) := by
  unfold absorb
  rw [if_neg hne]
  simp only [hold, hitem]
  split
  · next hsub => exact ⟨false, by rw [modify_eq_self hold (Item.extend_of_subset hsub)]⟩
  · exact ⟨true, rfl⟩

theorem linkIf_eq_modify {item : Item} (hitem : a[source]? = some item) (wanted : Bool) :
    a.linkIf wanted source target = .ok (a.modify source fun item =>
      if wanted then item.linkOnce target else item) := by
  cases wanted with
  | false => exact congrArg Except.ok (modify_eq_self hitem rfl).symm
  | true =>
    refine map_eq_ok_iff.mpr ?_
    show ∃ r, a.link source target = .ok r ∧
      r.2 = a.modify source fun item => item.linkOnce target
    by_cases hknown : item.targets.contains target = true
    · refine ⟨(false, a), bind_eq_ok_iff.mpr ⟨item, get_eq_ok_iff.mpr hitem, if_pos hknown⟩, ?_⟩
      have hsame : item.linkOnce target = item := if_pos hknown
      exact (modify_eq_self hitem hsame).symm
    · refine ⟨_, bind_eq_ok_iff.mpr ⟨item, get_eq_ok_iff.mpr hitem, if_neg hknown⟩, ?_⟩
      have hlinked : item.linkOnce target = item.linkTo target := if_neg hknown
      exact modify_congr hitem hlinked.symm

/-! ## Arenas with spare items -/

/-- The arena `b` has the items of `a` under the numbers `ρ`, in their order, and spare items from
which no link leads. What is not in the one arena is not in the other. -/
structure Renumbered (ρ : ItemId → ItemId) (a b : Arena) : Prop where
  strictMono : StrictMono ρ
  next : ∀ i, ρ (a.size + i) = b.size + i
  item : ∀ id, b[ρ id]? = a[id]?.map (Item.renumber ρ)
  spare : ∀ {source target}, b.Links source target → source ∈ Set.range ρ

namespace Renumbered

theorem refl (a : Arena) : Renumbered id a a where
  strictMono := strictMono_id
  next _ := rfl
  item _ := by simp
  spare _ := ⟨_, rfl⟩

theorem size_eq (h : Renumbered ρ a b) : ρ a.size = b.size := h.next 0

theorem lt_size_iff (h : Renumbered ρ a b) : ρ k < b.size ↔ k < a.size := by
  rw [← h.size_eq, h.strictMono.lt_iff_lt]

/-- An item that both arenas get. -/
theorem alloc (h : Renumbered ρ a b) (core : Core) (lookahead : TerminalSet) :
    Renumbered ρ (a.alloc core lookahead).2 (b.alloc core lookahead).2 where
  strictMono := h.strictMono
  next i := by
    rw [size_alloc, size_alloc, Nat.add_assoc, Nat.add_assoc]
    exact h.next (1 + i)
  item id := by
    rw [getElem?_alloc, getElem?_alloc, ← h.size_eq]
    by_cases heq : id = a.size
    · rw [if_pos heq, if_pos (congrArg ρ heq), Option.map_some, Item.renumber, Array.map_empty]
    · rw [if_neg heq, if_neg (h.strictMono.injective.ne heq)]
      exact h.item id
  spare hlink := by
    rw [(growth_alloc b core lookahead).links_iff, or_false] at hlink
    exact h.spare hlink

/-- An item that only the second arena gets. -/
theorem alloc_spare (h : Renumbered ρ a b) (hclosed : a.IsClosed) (core : Core)
    (lookahead : TerminalSet) :
    Renumbered (skipping a.size ρ) a (b.alloc core lookahead).2 where
  strictMono := strictMono_skipping h.strictMono
  next i := by
    rw [skipping_of_le (Nat.le_add_right _ _), h.next, size_alloc, Nat.add_right_comm]
  item id := by
    rw [getElem?_alloc]
    by_cases hlt : id < a.size
    · have hne : ρ id ≠ b.size := Nat.ne_of_lt (h.lt_size_iff.mpr hlt)
      rw [skipping_of_lt hlt, if_neg hne, h.item]
      obtain ⟨item, hitem⟩ := exists_getElem? hlt
      rw [hitem, Option.map_some, Option.map_some]
      refine congrArg some (Item.renumber_congr fun k hk => (skipping_of_lt ?_).symm)
      exact hclosed ((links_iff hitem).mpr hk)
    · -- behind the last items there is nothing in either arena
      have hle : a.size ≤ id := Nat.le_of_not_lt hlt
      have hρle : b.size ≤ ρ id := h.size_eq ▸ h.strictMono.monotone hle
      rw [skipping_of_le hle, if_neg (Nat.ne_of_gt (Nat.lt_succ_of_le hρle)),
        getElem?_eq_none_iff.mpr hle, getElem?_eq_none_iff.mpr (Nat.le_succ_of_le hρle)]
      rfl
  spare hlink := by
    rw [(growth_alloc b core lookahead).links_iff, or_false] at hlink
    obtain ⟨id, rfl⟩ := h.spare hlink
    exact ⟨id, skipping_of_lt (h.lt_size_iff.mp hlink.lt_size)⟩

/-- What is done to an item in both arenas. -/
theorem modify {f f' : Item → Item} (h : Renumbered ρ a b) (id : ItemId)
    (hf : ∀ item, (f item).renumber ρ = f' (item.renumber ρ)) :
    Renumbered ρ (a.modify id f) (b.modify (ρ id) f') where
  strictMono := h.strictMono
  next := by simpa using h.next
  item k := by
    rw [getElem?_modify, getElem?_modify, h.item]
    by_cases heq : id = k
    · rw [if_pos heq, if_pos (congrArg ρ heq), Option.map_map, Option.map_map]
      exact congrFun (congrArg Option.map (funext fun item => (hf item).symm)) _
    · rw [if_neg heq, if_neg (h.strictMono.injective.ne heq)]
  spare {source target} hlink := by
    by_cases heq : ρ id = source
    · exact ⟨id, heq⟩
    · obtain ⟨item, hitem, htarget⟩ := hlink
      rw [getElem?_modify, if_neg heq] at hitem
      exact h.spare ⟨item, hitem, htarget⟩

/-- A link that both arenas get, if there is to be one. -/
theorem linkIf {wanted : Bool} (h : Renumbered ρ a b) (hsource : source < a.size)
    (hlink : a.linkIf wanted source target = .ok a') :
    ∃ b', b.linkIf wanted (ρ source) (ρ target) = .ok b' ∧ Renumbered ρ a' b' := by
  obtain ⟨item, hitem⟩ := exists_getElem? hsource
  have hitem' : b[ρ source]? = some (item.renumber ρ) := by rw [h.item, hitem, Option.map_some]
  cases (linkIf_eq_modify hitem wanted).symm.trans hlink
  refine ⟨_, linkIf_eq_modify hitem' wanted, h.modify source fun item => ?_⟩
  split
  · exact item.renumber_linkOnce h.strictMono.injective target
  · rfl

/-! ### What the arenas say -/

theorem looks_iff (h : Renumbered ρ a b) : b.Looks (ρ k) t ↔ a.Looks k t := by
  simp [Looks, h.item]

theorem links_iff (h : Renumbered ρ a b) :
    b.Links (ρ source) (ρ target) ↔ a.Links source target := by
  simp [Links, h.item, Item.renumber, h.strictMono.injective.eq_iff]

/-- All links are those of `a`. -/
theorem exists_links (h : Renumbered ρ a b) (hlink : b.Links source target) :
    ∃ s k, ρ s = source ∧ ρ k = target ∧ a.Links s k := by
  obtain ⟨s, rfl⟩ := h.spare hlink
  obtain ⟨item', hitem', htarget⟩ := hlink
  obtain ⟨item, hitem, rfl⟩ := Option.map_eq_some_iff.mp ((h.item s).symm.trans hitem')
  obtain ⟨k, hk, rfl⟩ := Array.mem_map.mp htarget
  exact ⟨s, k, rfl, rfl, item, hitem, hk⟩

/-- No link leads to a spare item, either. -/
theorem target_mem_range (h : Renumbered ρ a b) (hlink : b.Links source target) :
    target ∈ Set.range ρ := by
  obtain ⟨-, k, -, hk, -⟩ := h.exists_links hlink
  exact ⟨k, hk⟩

theorem isClosed (h : Renumbered ρ a b) (hclosed : a.IsClosed) : b.IsClosed := by
  intro source target hlink
  obtain ⟨s, k, -, rfl, hold⟩ := h.exists_links hlink
  exact h.lt_size_iff.mpr (hclosed hold)

/-- A path to an item of `a` is one of `a`: it is followed back from its end. -/
theorem exists_path (h : Renumbered ρ a b) (hpath : Relation.ReflTransGen b.Links source (ρ k)) :
    ∃ s, ρ s = source ∧ Relation.ReflTransGen a.Links s k := by
  induction hpath using Relation.ReflTransGen.head_induction_on with
  | refl => exact ⟨k, rfl, .refl⟩
  | head hlink _ ih =>
    obtain ⟨l, rfl, hrest⟩ := ih
    obtain ⟨s, l', rfl, heq, hold⟩ := h.exists_links hlink
    cases h.strictMono.injective heq
    exact ⟨s, rfl, hrest.head hold⟩

theorem reaches_iff (h : Renumbered ρ a b) : b.Reaches (ρ k) t ↔ a.Reaches k t := by
  constructor
  · rintro ⟨source, hpath, ht⟩
    obtain ⟨s, rfl, hold⟩ := h.exists_path hpath
    exact ⟨s, hold, h.looks_iff.mp ht⟩
  · rintro ⟨source, hpath, ht⟩
    exact ⟨ρ source, hpath.lift ρ fun _ _ => h.links_iff.mpr, h.looks_iff.mpr ht⟩

theorem reaches_spare (h : Renumbered ρ a b) (hk : k ∉ Set.range ρ) (ht : b.Reaches k t) :
    b.Looks k t := by
  obtain ⟨source, hpath, ht⟩ := ht
  cases hpath with
  | refl => exact ht
  | tail _ hlink => exact absurd (h.target_mem_range hlink) hk

/-! ### Propagation -/

/-- Lookaheads that grow in the same way. -/
theorem widens (h : Renumbered ρ a b) (haa : a.Widens a') (hbb : b.Widens b')
    (hlooks : ∀ id t, b'.Looks (ρ id) t ↔ a'.Looks id t) : Renumbered ρ a' b' where
  strictMono := h.strictMono
  next := by
    rw [haa.size_eq, hbb.size_eq]
    exact h.next
  item id := by
    have hitem := h.item id
    cases ha : a[id]? with
    | none =>
      rw [ha] at hitem
      rw [hbb.getElem?_eq_none hitem, haa.getElem?_eq_none ha]
      rfl
    | some old =>
      rw [ha] at hitem
      obtain ⟨new, hnew, hcore, htargets⟩ := haa.exists_item ha
      obtain ⟨new', hnew', hcore', htargets'⟩ := hbb.exists_item hitem
      have hlookahead : new'.lookahead = new.lookahead := BitSet.ext fun t => by
        rw [← Arena.looks_iff hnew', hlooks, Arena.looks_iff hnew]
      rw [hnew, hnew', Option.map_some, Option.some.injEq]
      cases new
      cases new'
      simp_all [Item.renumber]
  spare hlink := h.spare (hbb.links_iff.mp hlink)

/-- Where spare items do not change, as many lookaheads differ in the one pair of arenas as in the
other. -/
theorem differing_eq (h : Renumbered ρ a b) (h' : Renumbered ρ a' b')
    (hspare : ∀ k ∉ Set.range ρ, b'[k]? = b[k]?) : b.differing b' = a.differing a' := by
  unfold differing
  rw [List.countP_eq_length_filter, List.countP_eq_length_filter]
  -- the items that differ are those of the first pair, under their numbers
  refine Eq.trans (List.Perm.length_eq ?_) (List.length_map ρ)
  have hnodup : (((List.range a.size).filter fun id =>
      a[id]?.map Item.lookahead != a'[id]?.map Item.lookahead).map ρ).Nodup :=
    (List.nodup_range.filter _).map h.strictMono.injective
  refine (List.perm_ext_iff_of_nodup (List.nodup_range.filter _) hnodup).mpr fun k => ?_
  simp only [List.mem_map, List.mem_filter, List.mem_range, bne_iff_ne]
  constructor
  · rintro ⟨hlt, hne⟩
    by_cases hk : k ∈ Set.range ρ
    · obtain ⟨id, rfl⟩ := hk
      refine ⟨id, ⟨h.lt_size_iff.mp hlt, ?_⟩, rfl⟩
      simpa [h.item, h'.item, Function.comp_def] using hne
    · exact absurd (congrArg _ (hspare k hk).symm) hne
  · rintro ⟨id, ⟨hlt, hne⟩, rfl⟩
    refine ⟨h.lt_size_iff.mpr hlt, ?_⟩
    simpa [h.item, h'.item, Function.comp_def] using hne

/-- **Spare items take no part in propagation**: it has the same count, the items grow as they do
without them, and they stay as they are. -/
theorem propagate {n : Nat} (h : Renumbered ρ a b) (hpropagate : a.propagate = .ok (n, a')) :
    ∃ b', b.propagate = .ok (n, b') ∧ Renumbered ρ a' b' ∧ ∀ k ∉ Set.range ρ, b'[k]? = b[k]? := by
  obtain ⟨⟨m, b'⟩, hpropagate'⟩ :=
    (propagate_neverFails (h.isClosed (isClosed_of_propagate hpropagate))).exists_eq_ok
  obtain ⟨grown, hgrown, hn⟩ := grownTo_of_propagate hpropagate
  obtain ⟨grown', hgrown', hm⟩ := grownTo_of_propagate hpropagate'
  have hgrowth := growth_propagate hpropagate
  have hgrowth' := growth_propagate hpropagate'
  have hlooks (id : ItemId) (t : TerminalId) : b'.Looks (ρ id) t ↔ a'.Looks id t := by
    rw [hgrowth.looks_iff, hgrowth'.looks_iff, h.looks_iff, h.reaches_iff]
  have hend : Renumbered ρ a' b' := h.widens hgrown.widens hgrown'.widens hlooks
  have hspare (k : ItemId) (hk : k ∉ Set.range ρ) : b'[k]? = b[k]? := by
    refine hgrown'.widens.getElem?_eq fun t ht => ?_
    exact ((hgrowth'.looks_iff k t).mp ht).elim (fun ht => ht) (h.reaches_spare hk)
  have hcount : m = n := by
    rw [hm, hgrown'.size_eq, h.differing_eq hend hspare, ← hgrown.size_eq, hn]
  exact ⟨b', hcount ▸ hpropagate', hend, hspare⟩

end Renumbered

end Arena

end Lalr
