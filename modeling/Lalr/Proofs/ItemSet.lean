import Lalr.ItemSet.Basic
import Lalr.Proofs.Arena
import Lalr.Proofs.Validity

/-!
# Item sets over an arena

An item set is *over* an arena when it holds at most one item for each core, and
the arena has that item under that core (`ItemSet.IsOver`). Taking in a core
keeps this, and either finds the item of the core or appends a new one
(`addNew_spec`); taking in an item of the arena does so, too (`add_cases`). What
goes out leaves the others in their order (`remove_sublist`,
`takeLast?_sublist`).
-/

namespace Lalr

/-- Moving the marker tells different cores apart, even where the count starts anew. -/
theorem Core.advance_inj {c d : Core} : c.advance = d.advance ↔ c = d := by
  cases c
  cases d
  simp [advance]

/-- Below the greatest count, moving the marker counts one up. -/
theorem Core.dotted_advance {c : Core} (h : c.dot.toNat < 65535) :
    c.advance.dotted = c.dotted.advance := by
  have hsum : (c.dot + 1).toNat = c.dot.toNat + 1 := by
    rw [UInt16.toNat_add]
    exact Nat.mod_eq_of_lt (Nat.succ_lt_succ h)
  simp [dotted, Dotted.advance, advance, hsum]

/-- A core that stands for an advanced item is the advanced core: its count is one of 16 bits. -/
theorem Core.eq_advance_of_dotted {c d : Core} (h : d.dotted = c.dotted.advance) :
    d = c.advance ∧ c.advance.dotted = c.dotted.advance := by
  have hdot : d.dot.toNat = c.dot.toNat + 1 := congrArg Dotted.dot h
  have hlt := d.dot.toNat_lt
  have hadvance : c.advance.dotted = c.dotted.advance := dotted_advance (by omega)
  exact ⟨dotted_inj.mp (h.trans hadvance.symm), hadvance⟩

namespace ItemSet

variable {s s' : ItemSet} {a b : Arena} {core : Core} {id : ItemId}

/-- The members, each with the number of its item, in the order in which they came in. -/
def toList (s : ItemSet) : List (Core × ItemId) := s.members.toList

/-- The set has an item that stands for `x`. -/
def Has (s : ItemSet) (x : Dotted) : Prop := ∃ core ∈ s.cores, core.dotted = x

/-- The item of the set that stands for `x` looks at the terminal. -/
def Looks (s : ItemSet) (a : Arena) (x : Dotted) (t : TerminalId) : Prop :=
  ∃ core id, (core, id) ∈ s.toList ∧ core.dotted = x ∧ a.Looks id t

@[simp] theorem toList_empty : empty.toList = [] := rfl

@[simp] theorem toList_push (s : ItemSet) (core : Core) (id : ItemId) :
    (s.push core id).toList = s.toList ++ [(core, id)] := by simp [toList]

theorem map_fst_toList (s : ItemSet) : s.toList.map Prod.fst = s.cores := rfl

theorem map_snd_toList (s : ItemSet) : s.toList.map Prod.snd = s.ids := rfl

@[simp] theorem length_ids (s : ItemSet) : s.ids.length = s.size := by simp [ids, size]

theorem mem_cores_iff : core ∈ s.cores ↔ ∃ id, (core, id) ∈ s.toList := by
  simp [← map_fst_toList]

theorem mem_ids_iff : id ∈ s.ids ↔ ∃ core, (core, id) ∈ s.toList := by
  simp [← map_snd_toList]

theorem has_dotted_iff : s.Has core.dotted ↔ core ∈ s.cores := by
  constructor
  · rintro ⟨c, hc, heq⟩
    exact Core.dotted_inj.mp heq ▸ hc
  · exact fun hc => ⟨core, hc, rfl⟩

theorem has_of_mem (h : (core, id) ∈ s.toList) : s.Has core.dotted :=
  has_dotted_iff.mpr (mem_cores_iff.mpr ⟨id, h⟩)

theorem exists_mem_of_has (h : s.Has core.dotted) : ∃ id, (core, id) ∈ s.toList :=
  mem_cores_iff.mp (has_dotted_iff.mp h)

theorem Has.exists_mem {x : Dotted} (h : s.Has x) :
    ∃ core id, (core, id) ∈ s.toList ∧ core.dotted = x := by
  obtain ⟨core, hcore, rfl⟩ := h
  obtain ⟨id, hmem⟩ := mem_cores_iff.mp hcore
  exact ⟨core, id, hmem, rfl⟩

theorem find?_eq_some_iff (h : s.cores.Nodup) :
    s.find? core = some id ↔ (core, id) ∈ s.toList := by
  have hlist : s.find? core = (s.toList.find? fun member => member.1 == core).map Prod.snd := by
    rw [find?, toList, Array.find?_toList]
  rw [hlist]
  rw [← map_fst_toList] at h
  generalize s.toList = members at h ⊢
  induction members with
  | nil => simp
  | cons member members ih =>
    obtain ⟨c, k⟩ := member
    rw [List.map_cons, List.nodup_cons] at h
    by_cases hc : c = core
    · subst hc
      have habsent : (c, id) ∉ members := fun hmem => h.1 (List.mem_map.mpr ⟨_, hmem, rfl⟩)
      simp [habsent, eq_comm]
    · rw [List.find?_cons_of_neg (by simpa using hc)]
      exact (ih h.2).trans (by simp [Ne.symm hc])

/-- The set holds one item for each of its cores, and the arena has it under that core. -/
structure IsOver (s : ItemSet) (a : Arena) : Prop where
  nodup : s.cores.Nodup
  stored : ∀ {core id}, (core, id) ∈ s.toList → a.cores[id]? = some core

theorem isOver_empty (a : Arena) : empty.IsOver a := ⟨.nil, by simp⟩

/-- An item has one core. -/
theorem IsOver.core_unique {core' : Core} (h : s.IsOver a) (h' : s'.IsOver a)
    (hmem : (core, id) ∈ s.toList) (hmem' : (core', id) ∈ s'.toList) : core = core' :=
  Option.some.inj ((h.stored hmem).symm.trans (h'.stored hmem'))

/-- A core has one item. -/
theorem IsOver.id_unique {id' : ItemId} (h : s.IsOver a) (hmem : (core, id) ∈ s.toList)
    (hmem' : (core, id') ∈ s.toList) : id = id' :=
  Option.some.inj (((find?_eq_some_iff h.nodup).mpr hmem).symm.trans
    ((find?_eq_some_iff h.nodup).mpr hmem'))

theorem IsOver.growth {news : List Core} {gained : ItemId → TerminalId → Prop}
    {linked : ItemId → ItemId → Prop} (h : s.IsOver a) (hg : a.Growth b news gained linked) :
    s.IsOver b :=
  ⟨h.nodup, fun hmem => hg.getElem?_cores (h.stored hmem)⟩

theorem IsOver.id_lt_size (h : s.IsOver a) (hmem : (core, id) ∈ s.toList) : id < a.size := by
  rw [← Arena.length_cores]
  exact (List.getElem?_eq_some_iff.mp (h.stored hmem)).choose

theorem nodup_cores_push (h : s.cores.Nodup) (habsent : s.contains core = false) :
    (s.push core id).cores.Nodup := by
  rw [cores_push, List.nodup_append]
  refine ⟨h, by simp, fun c hc d hd heq => ?_⟩
  rw [List.mem_singleton.mp hd] at heq
  rw [contains_iff.mpr (heq ▸ hc)] at habsent
  cases habsent

/-- A member has an item. -/
theorem IsOver.exists_item (h : s.IsOver a) (hmem : (core, id) ∈ s.toList) :
    ∃ item, a[id]? = some item ∧ item.core = core :=
  Arena.getElem?_cores_eq_some_iff.mp (h.stored hmem)

theorem IsOver.push (h : s.IsOver a) (habsent : s.contains core = false)
    (hid : a.cores[id]? = some core) : (s.push core id).IsOver a := by
  refine ⟨nodup_cores_push h.nodup habsent, fun {c k} hmem => ?_⟩
  rw [toList_push, List.mem_append, List.mem_singleton] at hmem
  rcases hmem with hmem | heq
  · exact h.stored hmem
  · cases heq
    exact hid

/-- The arena has all items of a set that is over it, in the order of the set. -/
theorem IsOver.exists_items (h : s.IsOver a) : ∃ items, s.items a = .ok items ∧
    items.map Item.core = s.cores ∧
    ∀ item, item ∈ items ↔ ∃ id, (item.core, id) ∈ s.toList ∧ a[id]? = some item := by
  have hlist : ∀ members : List (Core × ItemId), (∀ m ∈ members, a.cores[m.2]? = some m.1) →
      ∃ items, (members.map Prod.snd).mapM a.get = .ok items ∧
        items.map Item.core = members.map Prod.fst := by
    intro members
    induction members with
    | nil => exact fun _ => ⟨[], by simp [pure_eq_ok_iff], rfl⟩
    | cons m members ih =>
      intro hstored
      obtain ⟨item, hitem, hcore⟩ :=
        Arena.getElem?_cores_eq_some_iff.mp (hstored m List.mem_cons_self)
      obtain ⟨items, hitems, hcores⟩ := ih fun m' hm' => hstored m' (List.mem_cons_of_mem _ hm')
      refine ⟨item :: items, ?_, by rw [List.map_cons, List.map_cons, hcore, hcores]⟩
      rw [List.map_cons, List.mapM_cons]
      exact bind_eq_ok_iff.mpr ⟨item, Arena.get_eq_ok_iff.mpr hitem,
        bind_eq_ok_iff.mpr ⟨items, hitems, rfl⟩⟩
  obtain ⟨items, hitems, hcores⟩ := hlist s.toList fun m hm => h.stored hm
  refine ⟨items, hitems, hcores, fun item => ?_⟩
  rw [mem_of_mapM_eq_ok hitems]
  constructor
  · rintro ⟨id, hid, hget⟩
    obtain ⟨core, hmem⟩ := mem_ids_iff.mp hid
    have hitem := Arena.get_eq_ok_iff.mp hget
    obtain ⟨item', hitem', hcore⟩ := h.exists_item hmem
    cases hitem.symm.trans hitem'
    exact ⟨id, hcore ▸ hmem, hitem⟩
  · rintro ⟨id, hmem, hitem⟩
    exact ⟨id, mem_ids_iff.mpr ⟨_, hmem⟩, Arena.get_eq_ok_iff.mpr hitem⟩

/-- An item with a new core comes in as it is. -/
theorem add_of_not_mem (hid : a.cores[id]? = some core) (habsent : core ∉ s.cores) :
    s.add a id = .ok ⟨id, true, s.push core id, a⟩ := by
  obtain ⟨item, hitem, rfl⟩ := Arena.getElem?_cores_eq_some_iff.mp hid
  have hfind : s.find? item.core = none := by
    rw [find?_eq_none_iff, Bool.eq_false_iff, Ne, contains_iff]
    exact habsent
  refine bind_eq_ok_iff.mpr ⟨item, Arena.get_eq_ok_iff.mpr hitem, ?_⟩
  simp only [hfind]
  rfl

/-- An item that comes in is one of the arena. If the set has an item with its core already, that
one takes in the lookahead; otherwise the item itself becomes a member. -/
theorem add_cases {placed : Placed} (h : s.add a id = .ok placed) :
    ∃ item, a[id]? = some item ∧
      ((∃ existing grew b, s.find? item.core = some existing ∧
          a.absorb existing id = .ok (grew, b) ∧ placed = ⟨existing, false, s, b⟩) ∨
        s.contains item.core = false ∧ placed = ⟨id, true, s.push item.core id, a⟩) := by
  obtain ⟨item, hget, h⟩ := bind_eq_ok_iff.mp h
  refine ⟨item, Arena.get_eq_ok_iff.mp hget, ?_⟩
  dsimp only at h
  split at h
  · next existing hfind =>
    obtain ⟨⟨grew, b⟩, habsorb, h⟩ := bind_eq_ok_iff.mp h
    exact .inl ⟨existing, grew, b, hfind, habsorb, (pure_eq_ok_iff.mp h).symm⟩
  · next hfind => exact .inr ⟨find?_eq_none_iff.mp hfind, (pure_eq_ok_iff.mp h).symm⟩

/-- What it means that a core was taken in: the set holds an item for it, which has gained the
lookahead, and which is a new one at the end if there was none. -/
theorem addNew_spec {lookahead : TerminalSet} {placed : Placed} (hs : s.IsOver a)
    (h : s.addNew a core lookahead = .ok placed) : ∃ news,
      a.Growth placed.arena news (fun k t => k = placed.id ∧ t ∈ lookahead) (fun _ _ => False) ∧
      placed.set.toList = s.toList ++ news.zipIdx a.size ∧
      placed.set.IsOver placed.arena ∧
      (core, placed.id) ∈ placed.set.toList ∧
      (placed.isNew = false ∧ news = [] ∨
        placed.isNew = true ∧ news = [core] ∧ placed.id = a.size) := by
  unfold addNew at h
  split at h
  · next existing hfind =>
    obtain ⟨b, hextend, h⟩ := bind_eq_ok_iff.mp h
    cases h
    have hgrowth := Arena.growth_extendLookahead hextend
    exact ⟨[], hgrowth, by simp, hs.growth hgrowth, (find?_eq_some_iff hs.nodup).mp hfind,
      .inl ⟨rfl, rfl⟩⟩
  · next hfind =>
    cases h
    have hgrowth := Arena.growth_alloc a core lookahead
    have hlast : (a.alloc core lookahead).2.cores[a.size]? = some core := by
      rw [hgrowth.cores, ← Arena.length_cores]
      exact List.getElem?_concat_length
    exact ⟨[core], hgrowth, toList_push s core a.size,
      (hs.growth hgrowth).push (find?_eq_none_iff.mp hfind) hlast, by simp,
      .inr ⟨rfl, rfl, rfl⟩⟩

/-- The empty set takes in a core and has nothing else then. -/
theorem addNew_empty_spec {lookahead : TerminalSet} {placed : Placed}
    (h : empty.addNew a core lookahead = .ok placed) :
    placed.set.IsOver placed.arena ∧ ∀ x, placed.set.Has x ↔ x = core.dotted := by
  obtain ⟨news, -, hlist, hover, hmem, hnews⟩ := addNew_spec (isOver_empty a) h
  have hcores : placed.set.cores = [core] := by
    rw [← map_fst_toList, hlist]
    rcases hnews with ⟨-, rfl⟩ | ⟨-, rfl, -⟩
    · rw [hlist] at hmem
      cases hmem
    · rfl
  refine ⟨hover, fun x => ?_⟩
  simp [Has, hcores, eq_comm]

/-! ## Items go out -/

theorem remove_sublist (s : ItemSet) (core : Core) :
    (s.remove core).2.toList.Sublist s.toList := by
  obtain ⟨⟨members⟩, cached⟩ := s
  show (members.toArray.eraseP fun member => member.1 == core).toList.Sublist members
  rw [List.eraseP_toArray]
  exact List.eraseP_sublist

theorem takeLast?_sublist (h : s.takeLast? = some (id, s')) : s'.toList.Sublist s.toList := by
  unfold takeLast? at h
  split at h
  · cases h
  · cases h
    show s.members.pop.toList.Sublist s.members.toList
    rw [Array.toList_pop]
    exact List.dropLast_sublist _

/-- What every removal keeps is kept when the cores of a set are removed. -/
theorem removeSet_induction {P : ItemSet → Prop} (t : ItemSet)
    (hremove : ∀ r core, P r → P (r.remove core).2) (hs : P s) : P (s.removeSet t) := by
  unfold removeSet
  induction t.cores generalizing s with
  | nil => exact hs
  | cons core cores ih => exact ih (hremove s core hs)

theorem IsOver.sublist (h : s.IsOver a) (hsub : s'.toList.Sublist s.toList) : s'.IsOver a :=
  ⟨h.nodup.sublist (hsub.map Prod.fst), fun hmem => h.stored (hsub.subset hmem)⟩

end ItemSet

end Lalr
