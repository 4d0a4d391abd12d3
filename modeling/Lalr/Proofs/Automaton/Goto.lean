import Lalr.Automaton.Build
import Lalr.Proofs.Closure

/-!
# The state after a symbol

What one look for the state after a symbol does to a draft.

- `Shifted.From`: what shifting makes of the items before the symbol, their
  *sources*: one new item each, with the same lookahead (`across_spec`).
- `Draft.Knows`: the map of known states has exactly the states that there are,
  by the cores of their kernels.
- `Draft.Found`, `Draft.Added`: the two outcomes of `goto`. Either a known state
  has the kernel, and nothing stays of the new items but links from their
  sources; or no state has it, and a new one is closed and added (`goto_spec`).
-/

namespace Lalr

open Grammar

variable {g : Grammar} {X : Symbol}

/-- The symbol stands after a marker of the set. -/
def ItemSet.Awaits (g : Grammar) (s : ItemSet) (X : Symbol) : Prop :=
  ∃ x β, s.Has x ∧ g.After x X β

/-- Nothing is left twice when repetitions are erased. -/
theorem nodup_eraseDups {α : Type} [BEq α] [LawfulBEq α] : ∀ as : List α, as.eraseDups.Nodup
  | [] => .nil
  | a :: as => by
    rw [List.eraseDups_cons, List.nodup_cons]
    refine ⟨fun hmem => ?_, nodup_eraseDups (as.filter fun b => !b == a)⟩
    have hne := (List.mem_filter.mp (List.mem_eraseDups.mp hmem)).2
    simp at hne
termination_by as => as.length
decreasing_by exact Nat.lt_succ_of_le (List.length_filter_le _ _)

namespace Arena

variable {a b : Arena}

theorem growth_linkMany {links : List (ItemId × ItemId)} (h : a.linkMany links = .ok b) :
    a.Growth b [] (fun _ _ => False) fun s k => (s, k) ∈ links := by
  refine foldlM_prefix_induction (P := fun done b =>
    a.Growth b [] (fun _ _ => False) fun s k => (s, k) ∈ done) h
    ((Growth.refl a).congr rfl (by simp) (by simp)) ?_
  rintro done ⟨source, target⟩ b c - hgrowth hstep
  obtain ⟨⟨isNew, c⟩, hlink, rfl⟩ := map_eq_ok_iff.mp hstep
  exact (hgrowth.trans (growth_link hlink)).congr rfl (by simp) (by simp)

/-- Shifting an item makes a new one with the marker moved and the same lookahead. -/
theorem growth_shift {source id : ItemId} {core : Core} (hcore : a.cores[source]? = some core)
    (h : a.shift g source = .ok (id, b)) :
    id = a.size ∧ a.Growth b [core.advance] (fun k t => k = a.size ∧ a.Looks source t)
      fun _ _ => False := by
  obtain ⟨item, hget, h⟩ := bind_eq_ok_iff.mp h
  rw [get_eq_ok_iff] at hget
  obtain ⟨complete, -, h⟩ := bind_eq_ok_iff.mp h
  rw [getElem?_cores, hget, Option.map_some, Option.some.injEq] at hcore
  split at h
  · cases h
  · cases h
    refine ⟨rfl, hcore ▸ (growth_alloc a _ item.lookahead).congr rfl (fun k t => ?_) (by simp)⟩
    rw [looks_iff hget]

/-- The symbols that are met are those after a marker, each of them once. -/
theorem nextSymbols_spec {s : ItemSet} {symbols : List Symbol} (hs : s.IsOver a)
    (h : a.nextSymbols g s.ids = .ok symbols) :
    symbols.Nodup ∧ ∀ X, X ∈ symbols ↔ s.Awaits g X := by
  obtain ⟨next, hnext, h⟩ := bind_eq_ok_iff.mp h
  refine ⟨pure_eq_ok_iff.mp h ▸ nodup_eraseDups _, fun X => ?_⟩
  rw [← pure_eq_ok_iff.mp h, List.mem_eraseDups, List.mem_filterMap]
  simp only [id_eq, exists_eq_right]
  rw [mem_of_mapM_eq_ok hnext]
  constructor
  · rintro ⟨k, hk, hnextk⟩
    obtain ⟨core, hmem⟩ := ItemSet.mem_ids_iff.mp hk
    obtain ⟨item, hget, hcore⟩ := bind_eq_ok_iff.mp hnextk
    obtain ⟨item', hitem', rfl⟩ := hs.exists_item hmem
    cases hitem'.symm.trans (get_eq_ok_iff.mp hget)
    obtain ⟨β, hβ⟩ := Core.next?_eq_some_iff.mp hcore
    exact ⟨_, β, ItemSet.has_of_mem hmem, hβ⟩
  · rintro ⟨x, β, hx, hβ⟩
    obtain ⟨core, k, hmem, rfl⟩ := hx.exists_mem
    obtain ⟨item, hitem, rfl⟩ := hs.exists_item hmem
    exact ⟨k, ItemSet.mem_ids_iff.mpr ⟨_, hmem⟩, bind_eq_ok_iff.mpr
      ⟨item, get_eq_ok_iff.mpr hitem, Core.next?_eq_some_iff.mpr ⟨β, hβ⟩⟩⟩

end Arena

/-! ## Shifting -/

/-- The members with the symbol `X` after their marker, in their order. -/
structure Sources (g : Grammar) (X : Symbol) (members sources : List (Core × ItemId)) : Prop where
  sublist : sources.Sublist members
  mem_iff : ∀ core id, (core, id) ∈ sources ↔
    (core, id) ∈ members ∧ ∃ β, g.After core.dotted X β

/-- A further member is passed over if another symbol, or none, stands after its marker. -/
theorem Sources.skip {members sources : List (Core × ItemId)} {core : Core} {id : ItemId}
    (h : Sources g X members sources) (hnone : ¬∃ β, g.After core.dotted X β) :
    Sources g X (members ++ [(core, id)]) sources := by
  refine ⟨h.sublist.trans (List.sublist_append_left _ _), fun c k => ?_⟩
  rw [h.mem_iff, List.mem_append, List.mem_singleton, Prod.mk.injEq]
  constructor
  · exact fun ⟨hmem, hβ⟩ => ⟨.inl hmem, hβ⟩
  · rintro ⟨hmem | ⟨rfl, rfl⟩, hβ⟩
    · exact ⟨hmem, hβ⟩
    · exact absurd hβ hnone

theorem Sources.push {members sources : List (Core × ItemId)} {core : Core} {id : ItemId}
    (h : Sources g X members sources) (hsome : ∃ β, g.After core.dotted X β) :
    Sources g X (members ++ [(core, id)]) (sources ++ [(core, id)]) := by
  refine ⟨h.sublist.append_right _, fun c k => ?_⟩
  simp only [List.mem_append, h.mem_iff, List.mem_singleton, Prod.mk.injEq]
  constructor
  · rintro (⟨hmem, hβ⟩ | ⟨rfl, rfl⟩)
    · exact ⟨.inl hmem, hβ⟩
    · exact ⟨.inr ⟨rfl, rfl⟩, hsome⟩
  · rintro ⟨hmem | heq, hβ⟩
    · exact .inl ⟨hmem, hβ⟩
    · exact .inr heq

/-- What shifting makes of its sources: the kernel has a new item for each of them, with the marker
moved, that looks at what its source looks at. -/
structure Shifted.From (a : Arena) (sources : List (Core × ItemId)) (shifted : Shifted) : Prop where
  kernel : shifted.kernel.toList = (sources.map fun m => m.1.advance).zipIdx a.size
  moves : shifted.moves.toList = (sources.map Prod.snd).zipIdx a.size
  isOver : shifted.kernel.IsOver shifted.arena
  growth : a.Growth shifted.arena (sources.map fun m => m.1.advance)
    (fun id t => ∃ source, (source, id) ∈ shifted.moves.toList ∧ a.Looks source t)
    fun _ _ => False

namespace Shifted

variable {a : Arena} {core : Core} {source id : ItemId} {members sources : List (Core × ItemId)}

/-- What it means to shift one item, when the kernel does not have its core yet. -/
theorem move_cases {shifted next : Shifted} (hover : shifted.kernel.IsOver shifted.arena)
    (hcore : shifted.arena.cores[source]? = some core)
    (habsent : core.advance ∉ shifted.kernel.cores)
    (h : shifted.move g X source = .ok next) :
    (¬∃ β, g.After core.dotted X β) ∧ next = shifted ∨
      (∃ β, g.After core.dotted X β) ∧
        next.kernel = shifted.kernel.push core.advance shifted.arena.size ∧
        next.moves = shifted.moves.push (source, shifted.arena.size) ∧
        next.kernel.IsOver next.arena ∧
        shifted.arena.Growth next.arena [core.advance]
          (fun k t => k = shifted.arena.size ∧ shifted.arena.Looks source t) fun _ _ => False := by
  obtain ⟨kernel, arena, moves⟩ := shifted
  obtain ⟨item, hget, h⟩ := bind_eq_ok_iff.mp h
  obtain ⟨next?, hnext, h⟩ := bind_eq_ok_iff.mp h
  obtain ⟨item', hitem', rfl⟩ := Arena.getElem?_cores_eq_some_iff.mp hcore
  cases hitem'.symm.trans (Arena.get_eq_ok_iff.mp hget)
  split at h
  · next heq =>
    subst heq
    obtain ⟨⟨id, arena'⟩, hshift, h⟩ := bind_eq_ok_iff.mp h
    obtain ⟨placed, hadd, h⟩ := bind_eq_ok_iff.mp h
    obtain ⟨rfl, hgrowth⟩ := Arena.growth_shift hcore hshift
    have hstored : arena'.cores[arena.size]? = some item.core.advance := by
      rw [hgrowth.cores, ← Arena.length_cores]
      exact List.getElem?_concat_length
    -- the new item is the first of the kernel with its core
    rw [ItemSet.add_of_not_mem hstored habsent] at hadd
    cases hadd
    cases h
    exact .inr ⟨Core.next?_eq_some_iff.mp hnext, rfl, rfl,
      (hover.growth hgrowth).push (Bool.eq_false_iff.mpr (mt ItemSet.contains_iff.mp habsent))
        hstored, hgrowth⟩
  · next hne =>
    cases h
    refine .inl ⟨fun hβ => hne ?_, rfl⟩
    rw [Core.next?_eq_some_iff.mpr hβ] at hnext
    exact (Except.ok.inj hnext).symm

/-- Shifting one more item makes a new item of it if the symbol stands after its marker. -/
theorem From.step {done : List (Core × ItemId)} {shifted next : Shifted}
    (h : From a sources shifted) (hsources : Sources g X done sources)
    (hcore : a.cores[source]? = some core) (habsent : core ∉ done.map Prod.fst)
    (hmove : shifted.move g X source = .ok next) :
    ∃ sources', Sources g X (done ++ [(core, source)]) sources' ∧ From a sources' next := by
  have hnew : core.advance ∉ shifted.kernel.cores := by
    rw [← ItemSet.map_fst_toList, h.kernel, List.zipIdx_map_fst]
    intro hmem
    obtain ⟨⟨c, k⟩, hc, heq⟩ := List.mem_map.mp hmem
    obtain rfl : c = core := Core.advance_inj.mp heq
    exact habsent (List.mem_map_of_mem (hsources.sublist.subset hc))
  rcases move_cases h.isOver (h.growth.getElem?_cores hcore) hnew hmove with
    ⟨hnone, rfl⟩ | ⟨hsome, hkernel, hmoves, hover, hgrowth⟩
  · exact ⟨sources, hsources.skip hnone, h⟩
  · have hsize : shifted.arena.size = a.size + sources.length := by
      rw [h.growth.size_eq, List.length_map]
    refine ⟨sources ++ [(core, source)], hsources.push hsome, ?_⟩
    constructor
    case kernel =>
      rw [hkernel, ItemSet.toList_push, h.kernel, List.map_append, List.zipIdx_append, hsize,
        List.length_map]
      rfl
    case moves =>
      rw [hmoves, Array.toList_push, h.moves, List.map_append, List.zipIdx_append, hsize,
        List.length_map]
      rfl
    case isOver => exact hover
    case growth =>
      refine (h.growth.trans hgrowth).congr (by simp) (fun k t => ?_) (by simp)
      have hsource : shifted.arena.Looks source t ↔ a.Looks source t := by
        refine (h.growth.looks_iff source t).trans (or_iff_left ?_)
        -- new items come last, and the source is not one of them
        rintro ⟨other, hother, -⟩
        rw [h.moves] at hother
        exact Nat.not_le_of_lt (List.getElem?_eq_some_iff.mp hcore).choose
          (Arena.length_cores a ▸ (List.mem_zipIdx hother).1)
      rw [hmoves, Array.toList_push, hsource]
      constructor
      · rintro (⟨other, hother, ht⟩ | ⟨rfl, ht⟩)
        · exact ⟨other, List.mem_append_left _ hother, ht⟩
        · exact ⟨source, List.mem_append_right _ (List.mem_singleton.mpr rfl), ht⟩
      · rintro ⟨other, hother, ht⟩
        rcases List.mem_append.mp hother with hother | hother
        · exact .inl ⟨other, hother, ht⟩
        · cases List.mem_singleton.mp hother
          exact .inr ⟨rfl, ht⟩

/-- The members `done` have been tried, and those before the symbol are shifted. -/
def Tried (g : Grammar) (X : Symbol) (a : Arena) (done : List (Core × ItemId))
    (shifted : Shifted) : Prop :=
  ∃ sources, Sources g X done sources ∧ From a sources shifted

theorem tried_nil : Tried g X a [] ⟨.empty, a, #[]⟩ :=
  ⟨[], ⟨.slnil, by simp⟩, ⟨rfl, rfl, ItemSet.isOver_empty a,
    (Arena.Growth.refl a).congr rfl (by simp) (by simp)⟩⟩

/-- The members of a set are tried one by one. -/
theorem Tried.step {s : ItemSet} {done : List (Core × ItemId)} {shifted next : Shifted}
    (h : Tried g X a done shifted) (hs : s.IsOver a)
    (hpre : done ++ [(core, source)] <+: s.toList) (hmove : shifted.move g X source = .ok next) :
    Tried g X a (done ++ [(core, source)]) next := by
  obtain ⟨sources, hsources, hfrom⟩ := h
  have hmem : (core, source) ∈ s.toList := hpre.subset (by simp)
  have hnodup : ((done ++ [(core, source)]).map Prod.fst).Nodup :=
    hs.nodup.sublist (hpre.sublist.map Prod.fst)
  rw [List.map_append, List.nodup_append] at hnodup
  exact hfrom.step hsources (hs.stored hmem)
    (fun hin => hnodup.2.2 core hin core (List.mem_singleton.mpr rfl) rfl) hmove

/-- Shifting makes one new item of each item before the symbol. -/
theorem across_spec {s : ItemSet} {shifted : Shifted} (hs : s.IsOver a)
    (h : across g X s.ids a = .ok shifted) :
    ∃ sources, Sources g X s.toList sources ∧ From a sources shifted := by
  rw [across, ← ItemSet.map_snd_toList, List.foldlM_map] at h
  refine foldlM_prefix_induction (P := Tried g X a) h tried_nil ?_
  rintro done ⟨core, source⟩ before after hpre htried hmove
  exact htried.step hs hpre hmove

/-- What is in the kernel comes from a source, and is one of the same production. -/
theorem From.exists_source {shifted : Shifted} {x : Dotted} (h : From a sources shifted)
    (hx : shifted.kernel.Has x) :
    ∃ core source, (core, source) ∈ sources ∧ x.production = core.dotted.production := by
  obtain ⟨c, hc, rfl⟩ := hx
  rw [← ItemSet.map_fst_toList, h.kernel, List.zipIdx_map_fst] at hc
  obtain ⟨⟨core, source⟩, hmem, rfl⟩ := List.mem_map.mp hc
  exact ⟨core, source, hmem, rfl⟩

/-- A source goes with the item of the kernel that has its core, advanced. -/
theorem From.mem_moves_iff {s : ItemSet} {b : Arena} {shifted : Shifted} {k : ItemId}
    (h : From a sources shifted) (hs : s.IsOver b) (hsub : sources.Sublist s.toList) :
    (source, k) ∈ shifted.moves.toList ↔
      ∃ core, (core, source) ∈ sources ∧ (core.advance, k) ∈ shifted.kernel.toList := by
  rw [h.moves, h.kernel]
  simp only [List.mk_mem_zipIdx_iff_le_and_getElem?_sub, List.getElem?_map, Option.map_eq_some_iff]
  constructor
  · rintro ⟨hle, ⟨core, id⟩, hm, rfl⟩
    exact ⟨core, List.mem_of_getElem? hm, hle, _, hm, rfl⟩
  · rintro ⟨core, hmem, hle, ⟨core', id⟩, hm, heq⟩
    refine ⟨hle, _, hm, ?_⟩
    obtain rfl : core' = core := Core.advance_inj.mp heq
    exact hs.id_unique (hsub.subset (List.mem_of_getElem? hm)) (hsub.subset hmem)

end Shifted

/-! ## Known and new states -/

namespace Draft

variable {draft next : Draft} {limit : Nat} {target : StateId} {kernel items s : ItemSet}
variable {sources : List (Core × ItemId)}

/-- The states of a draft are known by the cores of their kernels, and no others are. -/
def Knows (states : Array State) (known : Std.TreeMap (List Nat) StateId) : Prop :=
  ∀ signature (id : StateId), known[signature]? = some id ↔
    ∃ q, states[id]? = some q ∧ q.kernel.signature = signature

variable {states : Array State} {known : Std.TreeMap (List Nat) StateId}

/-- No two states of a draft have the same kernel. -/
theorem Knows.id_unique {i j : StateId} {q r : State} (h : Knows states known)
    (hq : states[i]? = some q) (hr : states[j]? = some r)
    (hcores : ∀ core, core ∈ q.kernel.cores ↔ core ∈ r.kernel.cores) : i = j := by
  have hi := (h _ i).mpr ⟨q, hq, ItemSet.signature_eq_iff.mpr hcores⟩
  have hj := (h _ j).mpr ⟨r, hr, rfl⟩
  exact Option.some.inj (hi.symm.trans hj)

/-- A state with a new kernel comes to be known. -/
theorem Knows.push {q : State} (h : Knows states known)
    (hnew : known[q.kernel.signature]? = none) :
    Knows (states.push q) (known.insert q.kernel.signature states.size) := by
  intro signature id
  rw [Std.TreeMap.getElem?_insert, Array.getElem?_push]
  simp only [Std.LawfulEqOrd.compare_eq_iff_eq]
  by_cases hsig : q.kernel.signature = signature
  · subst hsig
    rw [if_pos rfl, Option.some.injEq]
    constructor
    · rintro rfl
      exact ⟨q, if_pos rfl, rfl⟩
    · rintro ⟨r, hr, heq⟩
      split at hr
      · next hid => exact hid.symm
      · rw [(h _ id).mpr ⟨r, hr, heq⟩] at hnew
        cases hnew
  · rw [if_neg hsig, h]
    constructor
    · rintro ⟨r, hr, heq⟩
      have hlt : id < states.size := (Array.getElem?_eq_some_iff.mp hr).choose
      exact ⟨r, by rw [if_neg (Nat.ne_of_lt hlt), hr], heq⟩
    · rintro ⟨r, hr, heq⟩
      split at hr
      · cases hr
        exact absurd heq hsig
      · exact ⟨r, hr, heq⟩

/-- A known state has the kernel of the shifted items: their sources are linked to its items, and no
state changes. -/
structure Found (draft : Draft) (sources : List (Core × ItemId)) (target : StateId) (q : State)
    (next : Draft) : Prop where
  known : draft.states[target]? = some q
  cores : ∀ core, core ∈ q.kernel.cores ↔ core ∈ sources.map fun m => m.1.advance
  states : next.states = draft.states
  growth : draft.arena.Growth next.arena [] (fun _ _ => False) fun h k =>
    ∃ core, (core, h) ∈ sources ∧ (core.advance, k) ∈ q.kernel.toList

/-- No known state has the kernel of the shifted items: they stay, linked from their sources, and
become the kernel of a new state, which comes last and has no transitions yet. -/
structure Added (g : Grammar) (limit : Nat) (draft : Draft) (sources : List (Core × ItemId))
    (target : StateId) (kernel items : ItemSet) (arena : Arena) (next : Draft) : Prop where
  room : draft.states.size < limit
  target_eq : target = draft.states.size
  states : next.states = draft.states.push ⟨kernel, items, #[]⟩
  kernel_toList : kernel.toList = (sources.map fun m => m.1.advance).zipIdx draft.arena.size
  isOver : kernel.IsOver arena
  growth : draft.arena.Growth arena (sources.map fun m => m.1.advance)
    (fun id t => ∃ core source, (core, source) ∈ sources ∧ (core.advance, id) ∈ kernel.toList ∧
      draft.arena.Looks source t)
    fun h k => ∃ core, (core, h) ∈ sources ∧ (core.advance, k) ∈ kernel.toList
  closed : ClosedUpTo g kernel arena items next.arena fun _ => False

theorem addState_spec (wf : g.WellFormed) (hs : kernel.IsOver draft.arena)
    (h : draft.addState g limit kernel = .ok (target, next)) : ∃ items,
      draft.states.size < limit ∧ target = draft.states.size ∧
      next.states = draft.states.push ⟨kernel, items, #[]⟩ ∧
      next.known = draft.known.insert kernel.signature draft.states.size ∧
      ClosedUpTo g kernel draft.arena items next.arena fun _ => False := by
  obtain ⟨arena, states, known⟩ := draft
  unfold addState at h
  dsimp only at h
  split at h
  · cases h
  · next hroom =>
    obtain ⟨⟨items, arena'⟩, hclosure, h⟩ := bind_eq_ok_iff.mp h
    cases h
    exact ⟨items, Nat.lt_of_not_le hroom, rfl, rfl, rfl,
      closedUpTo_closure wf hs (orFault_eq_ok_iff.mp hclosure)⟩

/-- Meeting a known state leaves nothing of the shifted items but links. -/
theorem meet_spec {a : Arena} {shifted : Shifted} (hs : s.IsOver a)
    (hsub : sources.Sublist s.toList) (hfrom : Shifted.From a sources shifted)
    (hkernels : ∀ (id : StateId) q, states[id]? = some q → q.kernel.cores.Nodup)
    (h : meet ⟨shifted.arena, states, known⟩ a.size shifted.moves.toList target = .ok next) :
    next.states = states ∧ next.known = known ∧
      ∃ q, states[target]? = some q ∧
        a.Growth next.arena [] (fun _ _ => False) fun h k =>
          ∃ core, (core, h) ∈ sources ∧ (core.advance, k) ∈ q.kernel.toList := by
  obtain ⟨links, hlinks, h⟩ := bind_eq_ok_iff.mp h
  split at h
  · next q hq =>
    obtain ⟨arena', hlink, h⟩ := bind_eq_ok_iff.mp h
    cases h
    refine ⟨rfl, rfl, q, hq, ?_⟩
    -- new items come last, so cutting the arena off removes them and nothing else
    have hcut := hfrom.growth.truncate (fun id t ⟨source, hmove, _⟩ => by
      rw [hfrom.moves] at hmove
      exact (List.mem_zipIdx hmove).1) (by simp)
    refine (hcut.trans (Arena.growth_linkMany hlink)).congr rfl (by simp) fun h k => ?_
    rw [false_or, List.mem_filterMap]
    constructor
    · rintro ⟨⟨source, c⟩, hmem, hfind⟩
      obtain ⟨k', hfind, heq⟩ := Option.map_eq_some_iff.mp hfind
      cases heq
      obtain ⟨⟨source, moved⟩, hmove, hcore⟩ := (mem_of_mapM_eq_ok hlinks _).mp hmem
      obtain ⟨item, hget, hcore⟩ := bind_eq_ok_iff.mp hcore
      cases pure_eq_ok_iff.mp hcore
      obtain ⟨core, hsource, hadvance⟩ := (hfrom.mem_moves_iff hs hsub).mp hmove
      obtain ⟨item', hitem', hcore'⟩ := hfrom.isOver.exists_item hadvance
      cases hitem'.symm.trans (Arena.get_eq_ok_iff.mp hget)
      rw [hcore'] at hfind
      exact ⟨core, hsource, (ItemSet.find?_eq_some_iff (hkernels target q hq)).mp hfind⟩
    · rintro ⟨core, hsource, hmem⟩
      obtain ⟨moved, hmoved⟩ : ∃ moved, (core.advance, moved) ∈ shifted.kernel.toList := by
        rw [← ItemSet.mem_cores_iff, ← ItemSet.map_fst_toList, hfrom.kernel, List.zipIdx_map_fst]
        exact List.mem_map_of_mem hsource
      obtain ⟨item, hitem, hcore⟩ := hfrom.isOver.exists_item hmoved
      refine ⟨(h, core.advance), (mem_of_mapM_eq_ok hlinks _).mpr ⟨(h, moved),
        (hfrom.mem_moves_iff hs hsub).mpr ⟨core, hsource, hmoved⟩, ?_⟩, ?_⟩
      · exact bind_eq_ok_iff.mpr ⟨item, Arena.get_eq_ok_iff.mpr hitem, hcore ▸ rfl⟩
      · exact Option.map_eq_some_iff.mpr
          ⟨k, (ItemSet.find?_eq_some_iff (hkernels target q hq)).mpr hmem, rfl⟩
  · cases h

/-- **What it means to look for the state after a symbol**: it is known, or it is added. -/
theorem goto_spec (wf : g.WellFormed) (hknows : Knows draft.states draft.known)
    (hs : s.IsOver draft.arena)
    (hkernels : ∀ (id : StateId) q, draft.states[id]? = some q → q.kernel.cores.Nodup)
    (h : draft.goto g limit s.ids X = .ok (target, next)) :
    Knows next.states next.known ∧ ∃ sources, Sources g X s.toList sources ∧
      ((∃ q, Found draft sources target q next) ∨
        ∃ kernel items arena, Added g limit draft sources target kernel items arena next) := by
  obtain ⟨arena, states, known⟩ := draft
  obtain ⟨⟨kernel, shifted, moves⟩, hacross, h⟩ := bind_eq_ok_iff.mp h
  dsimp only at h
  obtain ⟨sources, hsources, hfrom⟩ := Shifted.across_spec hs (orFault_eq_ok_iff.mp hacross)
  have hcores (core : Core) : core ∈ kernel.cores ↔ core ∈ sources.map fun m => m.1.advance := by
    rw [← ItemSet.map_fst_toList, hfrom.kernel, List.zipIdx_map_fst]
  split at h
  · next target' htarget =>
    obtain ⟨draft', hmeet, h⟩ := bind_eq_ok_iff.mp h
    cases h
    obtain ⟨hstates, hknown, q, hq, hgrowth⟩ := meet_spec hs hsources.sublist hfrom hkernels
      (orFault_eq_ok_iff.mp hmeet)
    refine ⟨hstates ▸ hknown ▸ hknows, sources, hsources,
      .inl ⟨q, hq, fun core => ?_, hstates, hgrowth⟩⟩
    obtain ⟨q', hq', hsignature⟩ := (hknows _ _).mp htarget
    cases hq.symm.trans hq'
    rw [ItemSet.signature_eq_iff.mp hsignature, hcores]
  · next hnone =>
    obtain ⟨linked, hlink, h⟩ := bind_eq_ok_iff.mp h
    have hlinked := Arena.growth_linkMany (orFault_eq_ok_iff.mp hlink)
    have hover := hfrom.isOver.growth hlinked
    obtain ⟨items, hroom, htarget, hstates, hknown, hclosed⟩ := addState_spec wf hover h
    refine ⟨hstates ▸ hknown ▸ hknows.push (q := ⟨kernel, items, #[]⟩) hnone, sources, hsources,
      .inr ⟨kernel, items, linked, hroom, htarget, hstates, hfrom.kernel, hover, ?_, hclosed⟩⟩
    refine (hfrom.growth.trans hlinked).congr (List.append_nil _) (fun id t => ?_) fun h k => ?_
    · rw [or_false]
      constructor
      · rintro ⟨source, hmove, ht⟩
        obtain ⟨core, hsource, hmem⟩ := (hfrom.mem_moves_iff hs hsources.sublist).mp hmove
        exact ⟨core, source, hsource, hmem, ht⟩
      · rintro ⟨core, source, hsource, hmem, ht⟩
        exact ⟨source, (hfrom.mem_moves_iff hs hsources.sublist).mpr ⟨core, hsource, hmem⟩, ht⟩
    · rw [false_or, hfrom.mem_moves_iff hs hsources.sublist]

end Draft

end Lalr
