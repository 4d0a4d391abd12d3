import Lalr.Proofs.Evolution
import Lalr.Proofs.Hashing

/-!
# Joins of item sets

Taking in all items of another set joins the two sets. This changes items in
place, while their members are gone through, and the sets may have items in
common, with each other and with further sets.

- `ItemSet.Joined`: what there is after some items came in, one after the other.
  Their cores differ, so that an item which is still to come in has not changed
  (`Joined.append`).
- `ItemSet.IsJoin`: what a join comes to.
- `addSet_join_laws`: joins are commutative, associative and idempotent, as far
  as cores, lookaheads and hashes are concerned.
-/

namespace Lalr

namespace ItemSet

variable {s s' s₁ t t' u : ItemSet} {a a' a₁ b : Arena} {core : Core} {id k : ItemId}
variable {ms ns : List (Core × ItemId)} {x : Dotted} {τ : TerminalId}

theorem Looks.widens (h : s.Looks a x τ) (hwidens : a.Widens b) : s.Looks b x τ := by
  obtain ⟨core, id, hmem, hx, hlooks⟩ := h
  exact ⟨core, id, hmem, hx, hwidens.looks hlooks⟩

/-- A member that comes in once more changes nothing. -/
theorem add_of_mem (hs : s.IsOver a) (hmem : (core, id) ∈ s.toList) :
    s.add a id = .ok ⟨id, false, s, a⟩ := by
  obtain ⟨item, hitem, rfl⟩ := hs.exists_item hmem
  have hfind : s.find? item.core = some id := (find?_eq_some_iff hs.nodup).mpr hmem
  have habsorb : a.absorb id id = .ok (false, a) := if_pos rfl
  refine bind_eq_ok_iff.mpr ⟨item, Arena.get_eq_ok_iff.mpr hitem, ?_⟩
  simp only [hfind, habsorb]
  rfl

/-! ## One item after the other -/

/-- The set `s'` with the arena `a'` comes from `s` with `a` by taking in the items `ms`: members
stay what they were, and those with new cores come last. A member looks at what the item with its
core has brought along; nothing else changes. -/
structure Joined (s : ItemSet) (a : Arena) (ms : List (Core × ItemId)) (s' : ItemSet)
    (a' : Arena) : Prop where
  toList : s'.toList = s.toList ++ ms.filter fun m => m.1 ∉ s.cores
  isOver : s'.IsOver a'
  widens : a.Widens a'
  looks_iff : ∀ id τ, a'.Looks id τ ↔
    a.Looks id τ ∨ ∃ core k, (core, id) ∈ s.toList ∧ (core, k) ∈ ms ∧ a.Looks k τ

theorem Joined.refl (hs : s.IsOver a) : Joined s a [] s a where
  toList := by simp
  isOver := hs
  widens := .refl a
  looks_iff := by simp

theorem Joined.mem_cores_iff (h : Joined s a ms s' a') :
    core ∈ s'.cores ↔ core ∈ s.cores ∨ core ∈ ms.map Prod.fst := by
  rw [← map_fst_toList, h.toList, List.map_append, List.mem_append, map_fst_toList]
  by_cases hcore : core ∈ s.cores
  · simp [hcore]
  · simp only [hcore, false_or, List.mem_map, List.mem_filter, decide_eq_true_eq]
    constructor
    · rintro ⟨m, ⟨hm, -⟩, rfl⟩
      exact ⟨m, hm, rfl⟩
    · rintro ⟨m, hm, rfl⟩
      exact ⟨m, ⟨hm, hcore⟩, rfl⟩

/-- An item of the arena that comes in. -/
theorem add_joined (hs : s.IsOver a) (hid : a.cores[id]? = some core) :
    ∃ placed, s.add a id = .ok placed ∧ Joined s a [(core, id)] placed.set placed.arena := by
  obtain ⟨item, hitem, rfl⟩ := Arena.getElem?_cores_eq_some_iff.mp hid
  obtain ⟨placed, hadd⟩ := (add_neverFails hs (Arena.lt_size_of_getElem? hitem)).exists_eq_ok
  refine ⟨placed, hadd, ?_⟩
  obtain ⟨item', hitem', hplaced⟩ := add_cases hadd
  cases hitem.symm.trans hitem'
  rcases hplaced with ⟨existing, grew, b, hfind, habsorb, rfl⟩ | ⟨habsent, rfl⟩
  · have hmem := (find?_eq_some_iff hs.nodup).mp hfind
    have hgrowth := Arena.growth_absorb habsorb
    constructor
    case toList => simp [mem_cores_iff.mpr ⟨existing, hmem⟩]
    case isOver => exact hs.growth hgrowth
    case widens => exact Arena.absorb_widens habsorb
    case looks_iff =>
      intro j τ
      rw [hgrowth.looks_iff]
      refine or_congr_right ⟨?_, ?_⟩
      · rintro ⟨rfl, hlooks⟩
        exact ⟨_, id, hmem, List.mem_cons_self, hlooks⟩
      · rintro ⟨core, k, hj, hk, hlooks⟩
        cases List.mem_singleton.mp hk
        exact ⟨hs.id_unique hj hmem, hlooks⟩
  · have hnot : item.core ∉ s.cores := by
      rw [← contains_iff, habsent]
      exact Bool.false_ne_true
    constructor
    case toList => simp [hnot]
    case isOver => exact hs.push habsent hid
    case widens => exact .refl a
    case looks_iff =>
      intro j τ
      refine (or_iff_left ?_).symm
      rintro ⟨core, k, hj, hk, -⟩
      cases List.mem_singleton.mp hk
      exact hnot (ItemSet.mem_cores_iff.mpr ⟨j, hj⟩)

/-- What comes in later has a core that none of the earlier ones has. So it was not changed by them,
and it meets the members that were there at the beginning. -/
theorem Joined.append (h : Joined s a ms s₁ a₁) (h' : Joined s₁ a₁ ns s' a') (hs : s.IsOver a)
    (hns : ∀ m ∈ ns, a.cores[m.2]? = some m.1) (hnodup : ((ms ++ ns).map Prod.fst).Nodup) :
    Joined s a (ms ++ ns) s' a' := by
  have hnew {m : Core × ItemId} (hm : m ∈ ns) : m.1 ∉ ms.map Prod.fst := by
    rw [List.map_append, List.nodup_append] at hnodup
    exact fun hmem => hnodup.2.2 _ hmem _ (List.mem_map.mpr ⟨m, hm, rfl⟩) rfl
  have hcores {m : Core × ItemId} (hm : m ∈ ns) : m.1 ∈ s₁.cores ↔ m.1 ∈ s.cores := by
    rw [h.mem_cores_iff]
    exact or_iff_left (hnew hm)
  have hmember {core : Core} {id k : ItemId} (hk : (core, k) ∈ ns) :
      (core, id) ∈ s₁.toList ↔ (core, id) ∈ s.toList := by
    rw [h.toList, List.mem_append]
    refine or_iff_left fun hmem => hnew hk ?_
    exact List.mem_map.mpr ⟨_, (List.mem_filter.mp hmem).1, rfl⟩
  have hlooks {core : Core} {k : ItemId} {τ : TerminalId} (hk : (core, k) ∈ ns) :
      a₁.Looks k τ ↔ a.Looks k τ := by
    rw [h.looks_iff]
    refine or_iff_left ?_
    rintro ⟨c, j, hmem, hj, -⟩
    -- the item would have changed as a member of `s`, and that with its own core
    obtain rfl : c = core := Option.some.inj ((hs.stored hmem).symm.trans (hns _ hk))
    exact hnew hk (List.mem_map.mpr ⟨_, hj, rfl⟩)
  constructor
  case toList =>
    have hfilter : (ns.filter fun m => m.1 ∉ s₁.cores) = ns.filter fun m => m.1 ∉ s.cores :=
      List.filter_congr fun m hm => by simp only [hcores hm]
    rw [h'.toList, h.toList, hfilter, List.filter_append, List.append_assoc]
  case isOver => exact h'.isOver
  case widens => exact h.widens.trans h'.widens
  case looks_iff =>
    intro id τ
    rw [h'.looks_iff, h.looks_iff, or_assoc]
    refine or_congr_right ⟨?_, ?_⟩
    · rintro (⟨c, j, hmem, hj, hlook⟩ | ⟨c, j, hmem, hj, hlook⟩)
      · exact ⟨c, j, hmem, List.mem_append_left _ hj, hlook⟩
      · exact ⟨c, j, (hmember hj).mp hmem, List.mem_append_right _ hj, (hlooks hj).mp hlook⟩
    · rintro ⟨c, j, hmem, hj, hlook⟩
      rcases List.mem_append.mp hj with hj | hj
      · exact .inl ⟨c, j, hmem, hj, hlook⟩
      · exact .inr ⟨c, j, (hmember hj).mpr hmem, hj, (hlooks hj).mpr hlook⟩

/-- Items of the arena with different cores come in one after the other. -/
theorem exists_joined (hs : s.IsOver a) (hms : ∀ m ∈ ms, a.cores[m.2]? = some m.1)
    (hnodup : (ms.map Prod.fst).Nodup) :
    ∃ s' a', s.addMany a (ms.map Prod.snd) = .ok (s', a') ∧ Joined s a ms s' a' := by
  induction ms generalizing s a with
  | nil => exact ⟨s, a, rfl, .refl hs⟩
  | cons m ms ih =>
    obtain ⟨placed, hadd, hfirst⟩ := add_joined hs (hms m List.mem_cons_self)
    have hstored (n : Core × ItemId) (hn : n ∈ ms) : a.cores[n.2]? = some n.1 :=
      hms n (List.mem_cons_of_mem _ hn)
    obtain ⟨s', a', hrest, hjoined⟩ := ih hfirst.isOver
      (by rwa [hfirst.widens.cores_eq]) (List.nodup_cons.mp hnodup).2
    refine ⟨s', a', ?_, hfirst.append hjoined hs hstored hnodup⟩
    exact foldlM_cons_eq_ok_iff.mpr ⟨_, map_eq_ok_iff.mpr ⟨placed, hadd, rfl⟩, hrest⟩

theorem exists_addSet (hs : s.IsOver a) (ht : t.IsOver a) :
    ∃ s' a', s.addSet t a = .ok (s', a') ∧ Joined s a t.toList s' a' :=
  exists_joined hs (fun _ hm => ht.stored hm) ht.nodup

/-! ## Whole sets -/

/-- The set `s'` with the arena `a'` is the join of `s` with `t`, which had the arena `a`. The new
cores come behind those of `s`, in the order of `t` and with the items of `t`; every lookahead is
the union of those that the two sets had for the core, and no items but members of `s` have changed.
-/
structure IsJoin (s t : ItemSet) (a : Arena) (s' : ItemSet) (a' : Arena) : Prop where
  toList : s'.toList = s.toList ++ t.toList.filter fun m => m.1 ∉ s.cores
  isOver : s'.IsOver a'
  looks_iff : ∀ x τ, s'.Looks a' x τ ↔ s.Looks a x τ ∨ t.Looks a x τ
  widens : a.Widens a'
  outside : ∀ id : ItemId, (∀ core ∈ t.cores, (core, id) ∉ s.toList) → a'[id]? = a[id]?
  kept : t.IsOver a'

namespace Joined

/-- Whatever sets look at, they have gained nothing but what came in for the same core. -/
theorem looks_of_looks (h : Joined s a t.toList s' a') (hs : s.IsOver a) (hu : u.IsOver a)
    (hlooks : u.Looks a' x τ) : u.Looks a x τ ∨ t.Looks a x τ := by
  obtain ⟨core, id, hmem, hx, hlooks⟩ := hlooks
  rcases (h.looks_iff id τ).mp hlooks with hold | ⟨c, k, hc, hk, hnew⟩
  · exact .inl ⟨core, id, hmem, hx, hold⟩
  · obtain rfl : c = core := hs.core_unique hu hc hmem
    exact .inr ⟨c, k, hk, hx, hnew⟩

theorem isJoin (h : Joined s a t.toList s' a') (hs : s.IsOver a) (ht : t.IsOver a) :
    IsJoin s t a s' a' := by
  constructor
  case toList => exact h.toList
  case isOver => exact h.isOver
  case widens => exact h.widens
  case kept => exact ht.evolves h.widens.evolves
  case outside =>
    intro id hid
    refine h.widens.getElem?_eq fun τ hlooks => ?_
    rcases (h.looks_iff id τ).mp hlooks with hold | ⟨core, k, hmem, hk, -⟩
    · exact hold
    · exact absurd hmem (hid core (ItemSet.mem_cores_iff.mpr ⟨k, hk⟩))
  case looks_iff =>
    intro x τ
    constructor
    · rintro ⟨core, id, hmem, hx, hlooks⟩
      rw [h.toList, List.mem_append, List.mem_filter] at hmem
      rcases hmem with hmem | ⟨hmem, -⟩
      · exact h.looks_of_looks hs hs ⟨core, id, hmem, hx, hlooks⟩
      · exact .inr (or_self_iff.mp (h.looks_of_looks hs ht ⟨core, id, hmem, hx, hlooks⟩))
    · rintro (⟨core, id, hmem, hx, hlooks⟩ | ⟨core, k, hk, hx, hlooks⟩)
      · refine ⟨core, id, ?_, hx, h.widens.looks hlooks⟩
        exact h.toList ▸ List.mem_append_left _ hmem
      · by_cases hcore : core ∈ s.cores
        -- the item of `s` has taken in the lookahead
        · obtain ⟨id, hmem⟩ := ItemSet.mem_cores_iff.mp hcore
          refine ⟨core, id, h.toList ▸ List.mem_append_left _ hmem, hx, ?_⟩
          exact (h.looks_iff id τ).mpr (.inr ⟨core, k, hmem, hk, hlooks⟩)
        · refine ⟨core, k, ?_, hx, h.widens.looks hlooks⟩
          rw [h.toList, List.mem_append, List.mem_filter]
          exact .inr ⟨hk, decide_eq_true hcore⟩

end Joined

/-- All members of a set come in once more, from a copy of it, and nothing changes. -/
theorem addSet_self (hs : s.IsOver a) (ht : t.members = s.members) :
    s.addSet t a = .ok (s, a) := by
  have hadd (ks : List ItemId) (hks : ks ⊆ s.ids) : s.addMany a ks = .ok (s, a) := by
    induction ks with
    | nil => rfl
    | cons k ks ih =>
      obtain ⟨hk, hrest⟩ := List.cons_subset.mp hks
      obtain ⟨core, hmem⟩ := mem_ids_iff.mp hk
      refine foldlM_cons_eq_ok_iff.mpr ⟨(s, a), ?_, ih hrest⟩
      exact map_eq_ok_iff.mpr ⟨_, add_of_mem hs hmem, rfl⟩
  refine hadd t.ids fun k hk => ?_
  rwa [ids, ht] at hk

/-- Joins can be made in any order: the members are the same, and so is what they look at. -/
theorem exists_addSet_assoc (hs : s.IsOver a) (ht : t.IsOver a) (hu : u.IsOver a) :
    ∃ r b r' b' v c v' c', s.addSet t a = .ok (r, b) ∧ r.addSet u b = .ok (r', b') ∧
      t.addSet u a = .ok (v, c) ∧ s.addSet v c = .ok (v', c') ∧ r'.toList = v'.toList ∧
      ∀ x τ, r'.Looks b' x τ ↔ v'.Looks c' x τ := by
  obtain ⟨r, b, hst, hr⟩ := exists_addSet hs ht
  have hub : u.IsOver b := hu.evolves hr.widens.evolves
  obtain ⟨r', b', hstu, hr'⟩ := exists_addSet hr.isOver hub
  obtain ⟨v, c, htu, hv⟩ := exists_addSet ht hu
  have hsc : s.IsOver c := hs.evolves hv.widens.evolves
  obtain ⟨v', c', hstu', hv'⟩ := exists_addSet hsc hv.isOver
  refine ⟨r, b, r', b', v, c, v', c', hst, hstu, htu, hstu', ?_, fun x τ => ?_⟩
  · have hfilter : (u.toList.filter fun m => m.1 ∉ r.cores) =
        (u.toList.filter fun m => m.1 ∉ t.cores).filter fun m => m.1 ∉ s.cores := by
      rw [List.filter_filter]
      refine List.filter_congr fun m _ => ?_
      simp [hr.mem_cores_iff, map_fst_toList]
    rw [hr'.toList, hr.toList, hv'.toList, hv.toList, hfilter, List.filter_append,
      List.append_assoc]
  · rw [(hr'.isJoin hr.isOver hub).looks_iff, (hr.isJoin hs ht).looks_iff,
      (hv'.isJoin hsc hv.isOver).looks_iff, (hv.isJoin ht hu).looks_iff]
    constructor
    · rintro ((hlooks | hlooks) | hlooks)
      · exact .inl (hlooks.widens hv.widens)
      · exact .inr (.inl hlooks)
      -- what `u` has gained by the first join, it has from `t`
      · exact .inr (hr.looks_of_looks hs hu hlooks).symm
    · rintro (hlooks | hlooks | hlooks)
      -- what `s` has gained by the first join, it has from `u`
      · rcases hv.looks_of_looks ht hs hlooks with hlooks | hlooks
        · exact .inl (.inl hlooks)
        · exact .inr (hlooks.widens hr.widens)
      · exact .inl (.inr hlooks)
      · exact .inr (hlooks.widens hr.widens)

/-- **Joins of item sets.** A join has a result, and it is the union of the two sets. Joined the
other way round, the sets have the same cores, with the same hash, and look at the same terminals. A
set is not changed by its own copy. Three sets can be joined in any order. All this holds of sets
that have items in common, too. -/
theorem addSet_join_laws (hs : s.IsOver a) (ht : t.IsOver a) (hu : u.IsOver a)
    (hshash : s.IsHashed) (hthash : t.IsHashed) :
    (∃ s' a' t' b', s.addSet t a = .ok (s', a') ∧ IsJoin s t a s' a' ∧
      t.addSet s a = .ok (t', b') ∧ s'.sameCores t' = true ∧ s'.hashCode.1 = t'.hashCode.1 ∧
      ∀ x τ, s'.Looks a' x τ ↔ t'.Looks b' x τ) ∧
    (∀ r : ItemSet, r.members = s.members → s.addSet r a = .ok (s, a)) ∧
    ∃ r b r' b' v c v' c', s.addSet t a = .ok (r, b) ∧ r.addSet u b = .ok (r', b') ∧
      t.addSet u a = .ok (v, c) ∧ s.addSet v c = .ok (v', c') ∧ r'.toList = v'.toList ∧
      ∀ x τ, r'.Looks b' x τ ↔ v'.Looks c' x τ := by
  refine ⟨?_, fun r hr => addSet_self hs hr, exists_addSet_assoc hs ht hu⟩
  obtain ⟨s', a', hst, hjoined⟩ := exists_addSet hs ht
  obtain ⟨t', b', hts, hjoined'⟩ := exists_addSet ht hs
  have hsame : s'.sameCores t' = true := by
    rw [sameCores_iff hjoined.isOver.nodup hjoined'.isOver.nodup]
    intro core
    rw [hjoined.mem_cores_iff, hjoined'.mem_cores_iff, map_fst_toList, map_fst_toList, or_comm]
  refine ⟨s', a', t', b', hst, hjoined.isJoin hs ht, hts, hsame, ?_, fun x τ => ?_⟩
  · exact hashCode_congr (hshash.addSet hst) (hthash.addSet hts) hsame
  · rw [(hjoined.isJoin hs ht).looks_iff, (hjoined'.isJoin ht hs).looks_iff, or_comm]

/-- Four items; two of them have the same core. -/
def shelf : Arena :=
  ⟨#[⟨⟨2, 0⟩, .singleton 1, #[]⟩, ⟨⟨1, 0⟩, .singleton 2, #[]⟩, ⟨⟨2, 0⟩, .singleton 3, #[]⟩,
    ⟨⟨3, 0⟩, .singleton 1, #[]⟩]⟩

/-- The first two of the items. -/
def upper : ItemSet := (empty.push ⟨2, 0⟩ 0).push ⟨1, 0⟩ 1

/-- All of them but the first. -/
def lower : ItemSet := ((empty.push ⟨3, 0⟩ 3).push ⟨2, 0⟩ 2).push ⟨1, 0⟩ 1

theorem isOver_shelf : upper.IsOver shelf ∧ lower.IsOver shelf :=
  ⟨((isOver_empty _).push rfl rfl).push rfl rfl,
    (((isOver_empty _).push rfl rfl).push rfl rfl).push rfl rfl⟩

/-- Both sets have item 1. Item 0 takes in the lookahead of item 2, and item 3 comes last. -/
theorem addSet_join_laws_shelf : ∃ s' a', upper.addSet lower shelf = .ok (s', a') ∧
    IsJoin upper lower shelf s' a' ∧ s'.ids = [0, 1, 3] ∧ a'.Looks 0 3 ∧
    upper.addSet upper shelf = .ok (upper, shelf) := by
  obtain ⟨hupper, hlower⟩ := isOver_shelf
  have hashed : upper.IsHashed ∧ lower.IsHashed :=
    ⟨(IsHashed.empty.push rfl 0).push rfl 1, ((IsHashed.empty.push rfl 3).push rfl 2).push rfl 1⟩
  obtain ⟨⟨s', a', -, -, hjoin, hisJoin, -⟩, hself, -⟩ :=
    addSet_join_laws hupper hlower hupper hashed.1 hashed.2
  have hresult : upper.addSet lower shelf = .ok (⟨upper.members.push (⟨3, 0⟩, 3), none⟩,
      shelf.modify 0 fun item => item.extend (.singleton 3)) := by decide +kernel
  obtain ⟨rfl, rfl⟩ : _ = s' ∧ _ = a' := Prod.mk.inj (Except.ok.inj (hresult.symm.trans hjoin))
  exact ⟨_, _, hjoin, hisJoin, rfl, ⟨_, rfl, by decide +kernel⟩, hself upper rfl⟩

end ItemSet

end Lalr
