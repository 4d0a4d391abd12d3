import Lalr.Item.Arena
import Lalr.Outcome

/-!
# How arenas grow

What an arena says, and what the operations on items do to it. An arena is seen
through three views: the cores of its items, the terminals that an item looks
at, and the links between items.

- `Arena.Growth`: one arena comes from another by new items, new terminals in
  lookaheads and new links. Nothing else ever happens to an arena but that it is
  cut off again (`looks_truncate_iff`, `links_truncate_iff`).
- `growth_alloc`, `growth_extendLookahead`, `growth_link`, `growth_absorb`: what
  each operation adds.
-/

namespace Lalr

namespace Arena

variable {a b c : Arena} {id source target : ItemId} {t : TerminalId}

/-- The cores of the items, in the order of their numbers. -/
def cores (a : Arena) : List Core := a.items.toList.map Item.core

/-- The terminal is in the lookahead of the item. -/
def Looks (a : Arena) (id : ItemId) (t : TerminalId) : Prop :=
  ∃ item, a[id]? = some item ∧ t ∈ item.lookahead

/-- The lookahead of one item flows on to the other. -/
def Links (a : Arena) (source target : ItemId) : Prop :=
  ∃ item, a[source]? = some item ∧ target ∈ item.targets

/-- No link is recorded twice. -/
def IsSimple (a : Arena) : Prop :=
  ∀ (id : ItemId) item, a[id]? = some item → item.targets.toList.Nodup

@[simp] theorem length_cores (a : Arena) : a.cores.length = a.size := by simp [cores, size]

theorem getElem?_cores (a : Arena) (id : ItemId) : a.cores[id]? = a[id]?.map Item.core := by
  rw [cores, List.getElem?_map, Array.getElem?_toList, getElem?_items]

theorem getElem?_cores_eq_some_iff {core : Core} :
    a.cores[id]? = some core ↔ ∃ item, a[id]? = some item ∧ item.core = core := by
  rw [getElem?_cores, Option.map_eq_some_iff]

theorem lt_size_of_getElem? {item : Item} (h : a[id]? = some item) : id < a.size :=
  Nat.lt_of_not_le fun hle => by rw [getElem?_eq_none_iff.mpr hle] at h; cases h

theorem Looks.lt_size (h : a.Looks id t) : id < a.size := lt_size_of_getElem? h.choose_spec.1

theorem Links.lt_size (h : a.Links source target) : source < a.size :=
  lt_size_of_getElem? h.choose_spec.1

theorem looks_iff {item : Item} (h : a[id]? = some item) : a.Looks id t ↔ t ∈ item.lookahead := by
  simp [Looks, h]

theorem links_iff {item : Item} (h : a[source]? = some item) :
    a.Links source target ↔ target ∈ item.targets := by
  simp [Links, h]

/-! ## Growth -/

/-- The arena `b` comes from `a` by items with the cores `news` at its end, by the terminals that
items have `gained` and by the links between items that are `linked` now. Links are not recorded
twice. -/
structure Growth (a b : Arena) (news : List Core) (gained : ItemId → TerminalId → Prop)
    (linked : ItemId → ItemId → Prop) : Prop where
  cores : b.cores = a.cores ++ news
  looks_iff : ∀ id t, b.Looks id t ↔ a.Looks id t ∨ gained id t
  links_iff : ∀ source target, b.Links source target ↔ a.Links source target ∨ linked source target
  simple : a.IsSimple → b.IsSimple

variable {news : List Core} {gained : ItemId → TerminalId → Prop} {linked : ItemId → ItemId → Prop}

/-- Nothing is added by what is there already. -/
theorem growth_self (hgained : ∀ id t, gained id t → a.Looks id t)
    (hlinked : ∀ source target, linked source target → a.Links source target) :
    a.Growth a [] gained linked :=
  ⟨(List.append_nil _).symm, fun id t => (or_iff_left_of_imp (hgained id t)).symm,
    fun source target => (or_iff_left_of_imp (hlinked source target)).symm, id⟩

theorem Growth.refl (a : Arena) : a.Growth a [] (fun _ _ => False) fun _ _ => False :=
  growth_self (fun _ _ => False.elim) fun _ _ => False.elim

theorem Growth.trans {news' : List Core} {gained' : ItemId → TerminalId → Prop}
    {linked' : ItemId → ItemId → Prop} (h : a.Growth b news gained linked)
    (h' : b.Growth c news' gained' linked') :
    a.Growth c (news ++ news') (fun id t => gained id t ∨ gained' id t)
      fun source target => linked source target ∨ linked' source target :=
  ⟨by rw [h'.cores, h.cores, List.append_assoc],
    fun id t => by rw [h'.looks_iff, h.looks_iff, or_assoc],
    fun source target => by rw [h'.links_iff, h.links_iff, or_assoc],
    fun hs => h'.simple (h.simple hs)⟩

theorem Growth.congr {news' : List Core} {gained' : ItemId → TerminalId → Prop}
    {linked' : ItemId → ItemId → Prop} (h : a.Growth b news gained linked) (hnews : news = news')
    (hgained : ∀ id t, gained id t ↔ gained' id t)
    (hlinked : ∀ source target, linked source target ↔ linked' source target) :
    a.Growth b news' gained' linked' :=
  ⟨hnews ▸ h.cores, fun id t => by rw [h.looks_iff, hgained],
    fun source target => by rw [h.links_iff, hlinked], h.simple⟩

theorem Growth.size_eq (h : a.Growth b news gained linked) : b.size = a.size + news.length := by
  rw [← length_cores, h.cores, List.length_append, length_cores]

theorem Growth.getElem?_cores {core : Core} (h : a.Growth b news gained linked)
    (hid : a.cores[id]? = some core) : b.cores[id]? = some core := by
  rw [h.cores, List.getElem?_append_left (List.getElem?_eq_some_iff.mp hid).choose, hid]

theorem Growth.looks (h : a.Growth b news gained linked) (ht : a.Looks id t) : b.Looks id t :=
  (h.looks_iff id t).mpr (.inl ht)

theorem Growth.links (h : a.Growth b news gained linked) (hl : a.Links source target) :
    b.Links source target :=
  (h.links_iff source target).mpr (.inl hl)

/-! ## What the operations add -/

theorem growth_alloc (a : Arena) (core : Core) (lookahead : TerminalSet) :
    a.Growth (a.alloc core lookahead).2 [core] (fun id t => id = a.size ∧ t ∈ lookahead)
      fun _ _ => False := by
  have hlast : a[a.size]? = none := getElem?_eq_none_iff.mpr (Nat.le_refl _)
  constructor
  case cores => simp [cores, alloc]
  case looks_iff =>
    intro id t
    rw [Looks, Looks, getElem?_alloc]
    split
    · next h => simp [h, hlast]
    · next h => simp [h]
  case links_iff =>
    intro source target
    rw [Links, Links, getElem?_alloc]
    split
    · next h => simp [h, hlast]
    · simp
  case simple =>
    intro hs id item h
    rw [getElem?_alloc] at h
    split at h
    · cases h
      exact .nil
    · exact hs id item h

theorem cores_modify {f : Item → Item} (hf : ∀ item, (f item).core = item.core) :
    (a.modify id f).cores = a.cores := by
  refine List.ext_getElem? fun k => ?_
  rw [getElem?_cores, getElem?_cores, getElem?_modify]
  split
  · rw [Option.map_map]
    exact congrFun (congrArg Option.map (funext hf)) _
  · rfl

/-- A change of one item adds what it adds to this item. -/
theorem growth_modify {old : Item} {f : Item → Item} {more : TerminalId → Prop}
    {further : ItemId → Prop} (h : a[id]? = some old) (hcore : ∀ item, (f item).core = item.core)
    (hlooks : ∀ t, t ∈ (f old).lookahead ↔ t ∈ old.lookahead ∨ more t)
    (hlinks : ∀ k, k ∈ (f old).targets ↔ k ∈ old.targets ∨ further k)
    (hsimple : old.targets.toList.Nodup → (f old).targets.toList.Nodup) :
    a.Growth (a.modify id f) [] (fun k t => k = id ∧ more t) fun s k => s = id ∧ further k := by
  constructor
  case cores =>
    rw [List.append_nil]
    exact cores_modify hcore
  case looks_iff =>
    intro k t
    rw [Looks, Looks, getElem?_modify]
    split
    · next hk => simp [← hk, h, hlooks]
    · next hk => simp [Ne.symm hk]
  case links_iff =>
    intro s k
    rw [Links, Links, getElem?_modify]
    split
    · next hs => simp [← hs, h, hlinks]
    · next hs => simp [Ne.symm hs]
  case simple =>
    intro hs k item hk
    rw [getElem?_modify] at hk
    split at hk
    · next heq =>
      rw [← heq, h, Option.map_some] at hk
      cases hk
      exact hsimple (hs id old h)
    · exact hs k item hk

theorem growth_modify_extend {old : Item} (h : a[id]? = some old) (lookahead : TerminalSet) :
    a.Growth (a.modify id fun item => item.extend lookahead) []
      (fun k t => k = id ∧ t ∈ lookahead) fun _ _ => False := by
  have hgrowth : a.Growth (a.modify id fun item => item.extend lookahead) []
      (fun k t => k = id ∧ t ∈ lookahead) fun s k => s = id ∧ False :=
    growth_modify h (fun _ => rfl) (by simp [Item.extend]) (by simp [Item.extend]) fun hs => hs
  exact hgrowth.congr rfl (fun k t => Iff.rfl) (by simp)

theorem growth_extendLookahead {lookahead : TerminalSet}
    (h : a.extendLookahead id lookahead = .ok b) :
    a.Growth b [] (fun k t => k = id ∧ t ∈ lookahead) fun _ _ => False := by
  obtain ⟨_, hget, h⟩ := bind_eq_ok_iff.mp h
  obtain ⟨item, hitem, -⟩ := map_eq_ok_iff.mp hget
  cases h
  exact growth_modify_extend (get_eq_ok_iff.mp hitem) lookahead

/-- A union adds the lookahead of the source to that of the target. -/
theorem growth_absorb {grew : Bool} (h : a.absorb target source = .ok (grew, b)) :
    a.Growth b [] (fun k t => k = target ∧ a.Looks source t) fun _ _ => False := by
  unfold absorb at h
  split at h
  · next heq =>
    cases h
    exact growth_self (fun k t ⟨hk, ht⟩ => hk ▸ heq ▸ ht) (by simp)
  · split at h
    · next old item hold hitem =>
      dsimp only at h
      split at h
      · next hsub =>
        cases h
        refine growth_self (fun k t ⟨hk, ht⟩ => ?_) (by simp)
        subst hk
        exact (looks_iff hold).mpr (hsub t ((looks_iff hitem).mp ht))
      · cases h
        exact (growth_modify_extend hold item.lookahead).congr rfl
          (fun k t => by rw [looks_iff hitem]) fun _ _ => Iff.rfl
    · cases h

theorem growth_modify_linkTo {old : Item} (h : a[source]? = some old)
    (hnew : target ∉ old.targets) :
    a.Growth (a.modify source fun item => item.linkTo target) [] (fun _ _ => False)
      fun s k => s = source ∧ k = target := by
  have hsimple (hold : old.targets.toList.Nodup) : (old.linkTo target).targets.toList.Nodup := by
    simp only [Item.linkTo, Array.toList_push, List.nodup_append, List.nodup_cons]
    refine ⟨hold, ⟨by simp, .nil⟩, ?_⟩
    intro k hk l hl heq
    rw [List.mem_singleton.mp hl] at heq
    exact hnew (Array.mem_toList_iff.mp (heq ▸ hk))
  have hgrowth : a.Growth (a.modify source fun item => item.linkTo target) []
      (fun k t => k = source ∧ False) fun s k => s = source ∧ k = target :=
    growth_modify h (fun _ => rfl) (by simp [Item.linkTo]) (by simp [Item.linkTo]) hsimple
  exact hgrowth.congr rfl (by simp) fun s k => Iff.rfl

theorem growth_link {isNew : Bool} (h : a.link source target = .ok (isNew, b)) :
    a.Growth b [] (fun _ _ => False) fun s k => s = source ∧ k = target := by
  obtain ⟨item, hitem, h⟩ := bind_eq_ok_iff.mp h
  rw [get_eq_ok_iff] at hitem
  split at h
  · next hknown =>
    cases h
    refine growth_self (by simp) fun s k ⟨hs, hk⟩ => ?_
    subst hs hk
    exact (links_iff hitem).mpr (by simpa using hknown)
  · next hnew =>
    cases h
    exact growth_modify_linkTo hitem (by simpa using hnew)

theorem growth_linkIf {wanted : Bool} (h : a.linkIf wanted source target = .ok b) :
    a.Growth b [] (fun _ _ => False) fun s k => wanted = true ∧ s = source ∧ k = target := by
  unfold linkIf at h
  split at h
  · next hwanted =>
    obtain ⟨⟨isNew, b'⟩, hlink, rfl⟩ := map_eq_ok_iff.mp h
    exact (growth_link hlink).congr rfl (by simp) (by simp [hwanted])
  · next hwanted =>
    cases h
    exact growth_self (by simp) (by simp [hwanted])

/-! ## Cutting off -/

theorem cores_truncate (a : Arena) (size : Nat) : (a.truncate size).cores = a.cores.take size := by
  simp [cores, truncate]

theorem looks_truncate_iff {size : Nat} :
    (a.truncate size).Looks id t ↔ id < size ∧ a.Looks id t := by
  rw [Looks, getElem?_truncate]
  split
  · next h => simp [h, Looks]
  · next h => simp [h]

theorem links_truncate_iff {size : Nat} :
    (a.truncate size).Links source target ↔ source < size ∧ a.Links source target := by
  rw [Links, getElem?_truncate]
  split
  · next h => simp [h, Links]
  · next h => simp [h]

/-- New items are gone when the arena is cut off to its old size, and nothing else is, if nothing
was added to the old items. -/
theorem Growth.truncate (h : a.Growth b news gained linked)
    (hgained : ∀ id t, gained id t → a.size ≤ id)
    (hlinked : ∀ source target, linked source target → a.size ≤ source) :
    a.Growth (b.truncate a.size) [] (fun _ _ => False) fun _ _ => False := by
  constructor
  case cores => rw [cores_truncate, h.cores, ← length_cores, List.take_left, List.append_nil]
  case looks_iff =>
    intro id t
    rw [looks_truncate_iff, h.looks_iff, or_false]
    constructor
    · rintro ⟨hlt, hlook | hnew⟩
      · exact hlook
      · exact absurd (hgained id t hnew) (Nat.not_le_of_lt hlt)
    · exact fun hlook => ⟨hlook.lt_size, .inl hlook⟩
  case links_iff =>
    intro source target
    rw [links_truncate_iff, h.links_iff, or_false]
    constructor
    · rintro ⟨hlt, hlink | hnew⟩
      · exact hlink
      · exact absurd (hlinked source target hnew) (Nat.not_le_of_lt hlt)
    · exact fun hlink => ⟨hlink.lt_size, .inl hlink⟩
  case simple =>
    intro hs id item hid
    rw [getElem?_truncate] at hid
    split at hid
    · exact h.simple hs id item hid
    · cases hid

end Arena

end Lalr
