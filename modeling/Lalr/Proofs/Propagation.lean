import Lalr.Item.Propagation
import Lalr.Proofs.Arena
import Lalr.Proofs.Queue
import Mathlib.Logic.Relation

/-!
# What propagation reaches

After propagation an item looks at a terminal exactly when some item with a path
of links to it looked at that terminal before (`Arena.growth_propagate`).

- `Arena.FlowedUpTo`: a stage of the work. Terminals have only come along paths
  of links, and they have come along all links but those from waiting items.
- `FlowedUpTo.forward`, `FlowedUpTo.forwardAll`: one link, and all links of one
  item. While its links are followed, the lookahead of an item does not change,
  not even by a link to itself.
-/

namespace Lalr

namespace Arena

variable {a arena b : Arena} {id source target : ItemId} {t : TerminalId}

/-- An item with a path of links to `id` looks at the terminal. -/
def Reaches (a : Arena) (id : ItemId) (t : TerminalId) : Prop :=
  ∃ source, Relation.ReflTransGen a.Links source id ∧ a.Looks source t

theorem Reaches.of_looks (h : a.Looks id t) : a.Reaches id t := ⟨id, .refl, h⟩

theorem Reaches.links (h : a.Reaches source t) (hlink : a.Links source target) :
    a.Reaches target t := by
  obtain ⟨origin, hpath, ht⟩ := h
  exact ⟨origin, hpath.tail hlink, ht⟩

/-- Terminals have come along paths of links only, and along all links but those from the items
that wait. -/
structure FlowedUpTo (a arena : Arena) (waiting : ItemId → Prop) : Prop where
  growth : ∃ gained, a.Growth arena [] gained fun _ _ => False
  reaches : ∀ {id t}, arena.Looks id t → a.Reaches id t
  settled : ∀ {source target t}, a.Links source target → ¬waiting source →
    arena.Looks source t → arena.Looks target t

namespace FlowedUpTo

variable {waiting : ItemId → Prop}

theorem links_iff (h : FlowedUpTo a arena waiting) :
    arena.Links source target ↔ a.Links source target := by
  obtain ⟨gained, hgrowth⟩ := h.growth
  rw [hgrowth.links_iff, or_false]

theorem congr {waiting' : ItemId → Prop} (h : FlowedUpTo a arena waiting)
    (hiff : ∀ id, waiting id ↔ waiting' id) : FlowedUpTo a arena waiting' := by
  cases funext fun id => propext (hiff id)
  exact h

/-- A terminal that reaches an item is in its lookahead when nothing waits any more. -/
theorem looks_of_reaches (h : FlowedUpTo a arena fun _ => False) (ht : a.Reaches id t) :
    arena.Looks id t := by
  obtain ⟨origin, hpath, ht⟩ := ht
  obtain ⟨gained, hgrowth⟩ := h.growth
  induction hpath with
  | refl => exact hgrowth.looks ht
  | tail _ hlink ih => exact h.settled hlink (fun hw => hw) ih

/-- Following a link from an item that waits brings its lookahead to the target and leaves its own
as it is; the target waits if it has grown. -/
theorem forward {wave next : Wave} (hindexed : wave.waiting.IsIndexed)
    (h : FlowedUpTo a wave.arena fun k => k = source ∨ k ∈ wave.waiting.toList)
    (hlink : a.Links source target) (hstep : wave.forward source target = .ok next) :
    next.waiting.IsIndexed ∧
      FlowedUpTo a next.arena (fun k => k = source ∨ k ∈ next.waiting.toList) ∧
      (∀ t, next.arena.Looks source t ↔ wave.arena.Looks source t) ∧
      (∀ k t, wave.arena.Looks k t → next.arena.Looks k t) ∧
      ∀ t, wave.arena.Looks source t → next.arena.Looks target t := by
  obtain ⟨gained, hbefore⟩ := h.growth
  rcases Wave.forward_cases hstep with ⟨habsorb, rfl⟩ | ⟨arena, habsorb, rfl⟩
  · -- the target has all that the source looks at, and nothing changes
    refine ⟨hindexed, h, fun t => Iff.rfl, fun _ _ ht => ht, fun t ht => ?_⟩
    exact ((growth_absorb habsorb).looks_iff target t).mpr (.inr ⟨rfl, ht⟩)
  · have hgrowth := growth_absorb habsorb
    have hsource (t : TerminalId) : arena.Looks source t ↔ wave.arena.Looks source t := by
      refine ⟨fun ht => ?_, hgrowth.looks⟩
      rcases (hgrowth.looks_iff source t).mp ht with ht | ⟨-, ht⟩
      · exact ht
      · exact ht
    refine ⟨hindexed.push target,
      ⟨⟨_, (hbefore.trans hgrowth).congr rfl (fun _ _ => Iff.rfl) (by simp)⟩,
        fun {id t} ht => ?_, fun {s k t} hs hnot ht => ?_⟩,
      hsource, fun _ _ => hgrowth.looks,
      fun t ht => (hgrowth.looks_iff target t).mpr (.inr ⟨rfl, ht⟩)⟩
    · rcases (hgrowth.looks_iff id t).mp ht with hold | ⟨rfl, hnew⟩
      · exact h.reaches hold
      · exact (h.reaches hnew).links hlink
    · rw [hindexed.mem_push_iff, not_or, not_or] at hnot
      -- an item that does not wait now has not grown, so it has passed on all it looks at
      obtain ⟨hne, hout, htarget⟩ := hnot
      rcases (hgrowth.looks_iff s t).mp ht with ht | ⟨rfl, -⟩
      · exact hgrowth.looks (h.settled hs (not_or.mpr ⟨hne, hout⟩) ht)
      · exact absurd rfl htarget

/-- Following all links of an item takes it off the waiting ones. -/
theorem forwardAll {wave next : Wave} (hindexed : wave.waiting.IsIndexed)
    (h : FlowedUpTo a wave.arena fun k => k = source ∨ k ∈ wave.waiting.toList)
    (hstep : wave.forwardAll source = .ok next) :
    next.waiting.IsIndexed ∧ FlowedUpTo a next.arena (· ∈ next.waiting.toList) := by
  obtain ⟨item, hitem, hstep⟩ := Wave.exists_item_of_forwardAll hstep
  have htargets (k : ItemId) : a.Links source k ↔ k ∈ item.targets.toList := by
    rw [← h.links_iff, Arena.links_iff hitem, Array.mem_toList_iff]
  let followed (done : List ItemId) (later : Wave) : Prop :=
    later.waiting.IsIndexed ∧
      FlowedUpTo a later.arena (fun k => k = source ∨ k ∈ later.waiting.toList) ∧
      (∀ t, later.arena.Looks source t ↔ wave.arena.Looks source t) ∧
      ∀ k ∈ done, ∀ t, wave.arena.Looks source t → later.arena.Looks k t
  have hfollowed : followed item.targets.toList next := by
    refine foldlM_prefix_induction (P := followed) hstep
      ⟨hindexed, h, fun t => Iff.rfl, by simp⟩ ?_
    rintro done k before after hpre ⟨hindexed, hflowed, hsource, hdone⟩ hforward
    have hk : a.Links source k := (htargets k).mpr (hpre.subset (by simp))
    obtain ⟨hindexed', hflowed', hsource', hkept, hnew⟩ := hflowed.forward hindexed hk hforward
    refine ⟨hindexed', hflowed', fun t => (hsource' t).trans (hsource t), fun l hl t ht => ?_⟩
    rcases List.mem_append.mp hl with hl | hl
    · exact hkept l t (hdone l hl t ht)
    · exact List.mem_singleton.mp hl ▸ hnew t ((hsource t).mpr ht)
  obtain ⟨hindexed', hflowed, hsource, hall⟩ := hfollowed
  refine ⟨hindexed', { hflowed with settled := fun {s k t} hs hnot ht => ?_ }⟩
  by_cases heq : s = source
  · subst heq
    exact hall k ((htargets k).mp hs) t ((hsource t).mp ht)
  · exact hflowed.settled hs (not_or.mpr ⟨heq, hnot⟩) ht

/-- The first of the waiting items is taken out to follow its links. -/
theorem pop {queue rest : Queue ItemId} (h : FlowedUpTo a arena (· ∈ queue.toList))
    (hpop : queue.pop? = some (source, rest)) :
    FlowedUpTo a arena fun k => k = source ∨ k ∈ rest.toList :=
  h.congr fun id => by simp [Queue.toList_eq_cons_of_pop? hpop]

theorem spread {wave : Wave} {grown : Std.TreeSet ItemId} (hindexed : wave.waiting.IsIndexed)
    (h : FlowedUpTo a wave.arena (· ∈ wave.waiting.toList))
    (hspread : wave.spread = .ok (b, grown)) : FlowedUpTo a b fun _ => False := by
  fun_induction Wave.spread wave with
  | case1 arena queue grown hpop =>
    cases hspread
    have hnil : queue.toList = [] := Queue.pop?_eq_none_iff.mp hpop
    exact h.congr fun id => by simp [hnil]
  | case2 => cases hspread
  | case3 arena queue grown source rest hpop next hforward ih =>
    have hopen := h.pop hpop
    obtain ⟨hindexed', hflowed⟩ := forwardAll (hindexed.pop? hpop) hopen hforward
    exact ih hindexed' hflowed hspread

end FlowedUpTo

/-- What has no links need not be followed. -/
theorem Links.mem_linkedItems (h : a.Links source target) : source ∈ a.linkedItems := by
  obtain ⟨item, hitem, htarget⟩ := h
  have hzip : (item, source) ∈ a.items.toList.zipIdx := by
    rw [List.mem_zipIdx_iff_getElem?, Array.getElem?_toList]
    exact hitem
  have hne : item.targets.isEmpty = false := by
    rw [Array.isEmpty_eq_false_iff]
    exact Array.ne_empty_of_mem htarget
  exact List.mem_filterMap.mpr ⟨_, hzip, by simp [hne]⟩

/-- At the beginning every item with links waits. -/
theorem flowedUpTo_start (a : Arena) : (Queue.ofList a.linkedItems).IsIndexed ∧
    FlowedUpTo a a (· ∈ (Queue.ofList a.linkedItems).toList) := by
  obtain ⟨hindexed, hmem⟩ := Queue.ofList_spec a.linkedItems
  exact ⟨hindexed, ⟨_, .refl a⟩, Reaches.of_looks, fun hlink hnot =>
    absurd ((hmem _).mpr hlink.mem_linkedItems) hnot⟩

/-- **Propagation adds to a lookahead exactly what reaches it along links.** -/
theorem growth_propagate {n : Nat} (h : a.propagate = .ok (n, b)) :
    a.Growth b [] a.Reaches fun _ _ => False := by
  obtain ⟨⟨arena, grown⟩, hspread, h⟩ := bind_eq_ok_iff.mp h
  cases h
  obtain ⟨hindexed, hstart⟩ := flowedUpTo_start a
  have hend := hstart.spread hindexed hspread
  obtain ⟨gained, hgrowth⟩ := hend.growth
  refine ⟨hgrowth.cores, fun id t => ?_, hgrowth.links_iff, hgrowth.simple⟩
  constructor
  · exact fun ht => .inr (hend.reaches ht)
  · rintro (ht | ht)
    · exact hgrowth.looks ht
    · exact hend.looks_of_reaches ht

end Arena

end Lalr
