import Lalr.Proofs.Faultless
import Lalr.Proofs.Grammar.Outcome
import Mathlib.Data.List.Forall2
import Mathlib.Data.List.Nodup

/-!
# What a closure adds, and what it leaves alone

A closure appends items to the arena and to the set, appends links to those of
its members, and lets the lookaheads of predicted items grow. All else stays as
it was (`exists_closureFrame`).

- `Arena.targets`, `appendNew`: the links of an item in the order in which they
  were recorded, and what becomes of them when more are recorded.
- `Predictions`: what the productions that one item predicts add. Those that come
  later do not disturb the earlier ones (`Predictions.append`).
- `FramedUpTo`: a stage of the closure. What waits has no new links, and what has
  left the stack has them all; so it matters that no item waits twice.
- `ClosureFrame`: the end of it.
-/

namespace Lalr

open Grammar

variable {g : Grammar}

/-! ## Links in their order -/

/-- The numbers `ts`, and behind them those of `ks` that are not among them. -/
def appendNew (ts ks : List ItemId) : List ItemId := ts ++ ks.filter (· ∉ ts)

@[simp] theorem appendNew_nil (ts : List ItemId) : appendNew ts [] = ts := List.append_nil ts

theorem appendNew_of_mem {ts : List ItemId} {k : ItemId} (h : k ∈ ts) : appendNew ts [k] = ts := by
  simp [appendNew, h]

theorem appendNew_of_not_mem {ts : List ItemId} {k : ItemId} (h : k ∉ ts) :
    appendNew ts [k] = ts ++ [k] := by
  simp [appendNew, h]

theorem appendNew_append {ts ks ls : List ItemId} (h : (ks ++ ls).Nodup) :
    appendNew (appendNew ts ks) ls = appendNew ts (ks ++ ls) := by
  have hfilter : ls.filter (· ∉ ts ++ ks.filter (· ∉ ts)) = ls.filter (· ∉ ts) := by
    refine List.filter_congr fun k hk => ?_
    have hnot : k ∉ ks := fun hmem => (List.nodup_append.mp h).2.2 k hmem k hk rfl
    simp [hnot]
  rw [appendNew, appendNew, appendNew, hfilter, List.filter_append, List.append_assoc]

namespace Arena

variable {a b : Arena} {id source target : ItemId} {core : Core} {lookahead : TerminalSet}

/-- The items to which an item is linked, in the order in which the links were recorded. -/
def targets (a : Arena) (id : ItemId) : List ItemId :=
  (a[id]?.map fun item => item.targets.toList).getD []

theorem targets_eq {item : Item} (h : a[id]? = some item) : a.targets id = item.targets.toList := by
  rw [targets, h]
  rfl

theorem targets_congr (h : b[id]? = a[id]?) : b.targets id = a.targets id := by
  rw [targets, targets, h]

theorem targets_alloc : (a.alloc core lookahead).2.targets id = a.targets id := by
  unfold targets
  rw [getElem?_alloc]
  split
  · next heq =>
    rw [heq, getElem?_eq_none_iff.mpr (Nat.le_refl _)]
    rfl
  · rfl

theorem extendLookahead_frame (h : a.extendLookahead id lookahead = .ok b) :
    (∀ k, b.targets k = a.targets k) ∧ ∀ k, k ≠ id → b[k]? = a[k]? := by
  obtain ⟨-, -, h⟩ := bind_eq_ok_iff.mp h
  cases h
  refine ⟨fun k => ?_, fun k hk => ?_⟩
  · unfold targets
    rw [getElem?_modify]
    split
    · rw [Option.map_map]
      rfl
    · rfl
  · rw [getElem?_modify, if_neg (Ne.symm hk)]

/-- A link comes last, if it is wanted and not yet there; other items stay as they are. -/
theorem linkIf_frame {wanted : Bool} (h : a.linkIf wanted source target = .ok b) :
    b.targets source = appendNew (a.targets source) (if wanted then [target] else []) ∧
      ∀ k, k ≠ source → b[k]? = a[k]? := by
  cases wanted with
  | false =>
    cases h
    exact ⟨(appendNew_nil _).symm, fun k _ => rfl⟩
  | true =>
    obtain ⟨⟨isNew, b'⟩, hlink, rfl⟩ := map_eq_ok_iff.mp h
    obtain ⟨item, hget, hlink⟩ := bind_eq_ok_iff.mp hlink
    have hitem := get_eq_ok_iff.mp hget
    rw [if_pos rfl, targets_eq hitem]
    split at hlink
    · next hold =>
      cases hlink
      have hmem : target ∈ item.targets.toList :=
        Array.mem_toList_iff.mpr (Array.contains_iff_mem.mp hold)
      exact ⟨(targets_eq hitem).trans (appendNew_of_mem hmem).symm, fun k _ => rfl⟩
    · next hnew =>
      cases hlink
      have hmem : target ∉ item.targets.toList := fun hmem =>
        hnew (Array.contains_iff_mem.mpr (Array.mem_toList_iff.mp hmem))
      have hmodified : (a.modify source fun item => item.linkTo target)[source]? =
          some (item.linkTo target) := by
        rw [getElem?_modify, if_pos rfl, hitem]
        rfl
      refine ⟨?_, fun k hk => (getElem?_modify a source k _).trans (if_neg (Ne.symm hk))⟩
      rw [targets_eq hmodified, appendNew_of_not_mem hmem]
      exact Array.toList_push

end Arena

/-- Taking in a core changes no link, and no item but the one of that core. -/
theorem ItemSet.addNew_frame {s : ItemSet} {a : Arena} {core : Core} {lookahead : TerminalSet}
    {placed : Placed} (h : s.addNew a core lookahead = .ok placed) :
    (∀ k, placed.arena.targets k = a.targets k) ∧
      ∀ k, k ≠ placed.id → placed.arena[k]? = a[k]? := by
  unfold addNew at h
  split at h
  · obtain ⟨b, hextend, h⟩ := bind_eq_ok_iff.mp h
    cases h
    exact Arena.extendLookahead_frame hextend
  · cases h
    exact ⟨fun k => Arena.targets_alloc,
      fun k hk => (Arena.getElem?_alloc a core lookahead k).trans (if_neg hk)⟩

/-- In a set over the arena different productions have different items. -/
theorem ItemSet.IsOver.nodup_of_forall₂ {s : ItemSet} {a : Arena} (h : s.IsOver a)
    {ps : List ProductionId} {ks : List ItemId} (hps : ps.Nodup)
    (hks : List.Forall₂ (fun p k => (⟨p, 0⟩, k) ∈ s.toList) ps ks) : ks.Nodup := by
  have hmem {qs : List ProductionId} {ls : List ItemId}
      (hls : List.Forall₂ (fun p k => (⟨p, 0⟩, k) ∈ s.toList) qs ls) :
      ∀ k ∈ ls, ∃ p ∈ qs, (⟨p, 0⟩, k) ∈ s.toList := by
    induction hls with
    | nil => simp
    | cons hk _ ih =>
      refine List.forall_mem_cons.mpr ⟨⟨_, List.mem_cons_self, hk⟩, fun l hl => ?_⟩
      obtain ⟨q, hq, hmem⟩ := ih l hl
      exact ⟨q, List.mem_cons_of_mem _ hq, hmem⟩
  induction hks with
  | nil => exact .nil
  | @cons p k ps ks hk hrest ih =>
    rw [List.nodup_cons] at hps ⊢
    refine ⟨fun hold => ?_, ih hps.2⟩
    obtain ⟨q, hq, hmem⟩ := hmem hrest k hold
    cases h.core_unique h hk hmem
    exact hps.1 hq

/-! ## Predictions for one item -/

/-- The state `after` comes from `before` by taking in the items of the productions `ps`, with
terminals of `lookahead`, and by links to them, in their order, from the item `source` if its own
lookahead is visible. New members come last and have to be looked at. Nothing else changes but the
lookaheads of the items of the productions, and no terminal is lost. -/
structure Predictions (source : ItemId) (isVisible : Bool) (lookahead : TerminalSet)
    (ps : List ProductionId) (before after : Closing) : Prop where
  isOver : after.set.IsOver after.arena
  news : ∃ news, after.arena.cores = before.arena.cores ++ news ∧
    after.set.toList = before.set.toList ++ news.zipIdx before.arena.size ∧
    after.work = (List.range' before.arena.size news.length).reverse ++ before.work
  targets : ∃ ks, List.Forall₂ (fun p k => (⟨p, 0⟩, k) ∈ after.set.toList) ps ks ∧
    after.arena.targets source =
      appendNew (before.arena.targets source) (if isVisible then ks else [])
  others : ∀ k, k ≠ source → after.arena.targets k = before.arena.targets k
  outside : ∀ k, k ≠ source → (∀ core, (core, k) ∉ after.set.toList) →
    after.arena[k]? = before.arena[k]?
  looks : ∀ {k t}, before.arena.Looks k t → after.arena.Looks k t
  gains : ∀ {k t}, after.arena.Looks k t → before.arena.Looks k t ∨
    t ∈ lookahead ∧ ∃ p ∈ ps, (⟨p, 0⟩, k) ∈ after.set.toList

namespace Predictions

variable {source : ItemId} {isVisible : Bool} {lookahead : TerminalSet} {ps qs : List ProductionId}
variable {before between after : Closing}

theorem members (h : Predictions source isVisible lookahead ps before after) :
    before.set.toList ⊆ after.set.toList := by
  obtain ⟨news, -, hlist, -⟩ := h.news
  exact hlist ▸ List.subset_append_left _ _

theorem refl (hover : before.set.IsOver before.arena) :
    Predictions source isVisible lookahead [] before before where
  isOver := hover
  news := ⟨[], by simp⟩
  targets := ⟨[], .nil, by simp⟩
  others _ _ := rfl
  outside _ _ _ := rfl
  looks ht := ht
  gains := .inl

/-- Productions are predicted one after the other. Different ones have different items, so that
each is linked once. -/
theorem append (h : Predictions source isVisible lookahead ps before between)
    (h' : Predictions source isVisible lookahead qs between after)
    (hnodup : (ps ++ qs).Nodup) :
    Predictions source isVisible lookahead (ps ++ qs) before after := by
  constructor
  case isOver => exact h'.isOver
  case news =>
    obtain ⟨news, hcores, hlist, hwork⟩ := h.news
    obtain ⟨news', hcores', hlist', hwork'⟩ := h'.news
    have hsize : between.arena.size = before.arena.size + news.length := by
      rw [← Arena.length_cores, hcores, List.length_append, Arena.length_cores]
    refine ⟨news ++ news', by rw [hcores', hcores, List.append_assoc], ?_, ?_⟩
    · rw [hlist', hlist, hsize, List.zipIdx_append, List.append_assoc]
    · rw [hwork', hwork, hsize, List.length_append, ← List.range'_append_1, List.reverse_append,
        List.append_assoc]
  case targets =>
    obtain ⟨ks, hks, htargets⟩ := h.targets
    obtain ⟨ls, hls, htargets'⟩ := h'.targets
    have hall : List.Forall₂ (fun p k => (⟨p, 0⟩, k) ∈ after.set.toList) (ps ++ qs) (ks ++ ls) :=
      List.rel_append (hks.imp fun _ _ hk => h'.members hk) hls
    refine ⟨ks ++ ls, hall, ?_⟩
    rw [htargets', htargets]
    -- different productions have different items, so the first links do not hide later ones
    cases isVisible with
    | false => simp
    | true => exact appendNew_append (h'.isOver.nodup_of_forall₂ hnodup hall)
  case others => exact fun k hk => (h'.others k hk).trans (h.others k hk)
  case outside =>
    intro k hk hnot
    rw [h'.outside k hk hnot, h.outside k hk fun core hmem => hnot core (h'.members hmem)]
  case looks => exact fun ht => h'.looks (h.looks ht)
  case gains =>
    intro k t ht
    rcases h'.gains ht with ht | ⟨ht, q, hq, hmem⟩
    · refine (h.gains ht).imp_right fun ⟨ht, p, hp, hmem⟩ => ?_
      exact ⟨ht, p, List.mem_append_left _ hp, h'.members hmem⟩
    · exact .inr ⟨ht, q, List.mem_append_right _ hq, hmem⟩

/-- Predicting one production. -/
theorem of_predict {p : ProductionId} (hover : before.set.IsOver before.arena)
    (hstep : before.predict source isVisible lookahead p = .ok after) :
    Predictions source isVisible lookahead [p] before after := by
  obtain ⟨placed, linked, hadd, hlink, rfl⟩ := Closing.exists_of_predict hstep
  obtain ⟨news, hgrowth, hlist, hover', hmem, hnews⟩ := ItemSet.addNew_spec hover hadd
  have hlinked := Arena.growth_linkIf hlink
  obtain ⟨htargets, hsame⟩ := ItemSet.addNew_frame hadd
  obtain ⟨htargets', hsame'⟩ := Arena.linkIf_frame hlink
  constructor
  case isOver => exact hover'.growth hlinked
  case news =>
    refine ⟨news, ?_, hlist, ?_⟩
    · rw [hlinked.cores, List.append_nil, hgrowth.cores]
    · rcases hnews with ⟨hold, rfl⟩ | ⟨hnew, rfl, hid⟩
      · simp [hold]
      · simp [hnew, hid]
  case targets =>
    refine ⟨[placed.id], .cons hmem .nil, ?_⟩
    rw [htargets', htargets]
  case others =>
    intro k hk
    rw [Arena.targets_congr (hsame' k hk), htargets]
  case outside =>
    intro k hk hnot
    rw [hsame' k hk, hsame k]
    rintro rfl
    exact hnot _ hmem
  case looks => exact fun ht => hlinked.looks (hgrowth.looks ht)
  case gains =>
    intro k t ht
    rw [hlinked.looks_iff, or_false, hgrowth.looks_iff] at ht
    exact ht.imp_right fun ⟨hk, ht⟩ => ⟨ht, p, List.mem_singleton_self p, hk ▸ hmem⟩

/-- Predicting several productions, one after the other. -/
theorem of_foldlM (hover : before.set.IsOver before.arena) (hnodup : ps.Nodup)
    (hfold : ps.foldlM (Closing.predict source isVisible lookahead) before = .ok after) :
    Predictions source isVisible lookahead ps before after := by
  refine foldlM_prefix_induction
    (P := fun done state => Predictions source isVisible lookahead done before state)
    hfold (.refl hover) ?_
  intro done p state next hpre hdone hstep
  exact hdone.append (.of_predict hdone.isOver hstep) (hnodup.sublist hpre.sublist)

/-- What has to be looked at then: what waited before, and the new items. -/
theorem mem_work_iff (h : Predictions source isVisible lookahead ps before after) {k : ItemId} :
    k ∈ after.work ↔ before.arena.size ≤ k ∧ k < after.arena.size ∨ k ∈ before.work := by
  obtain ⟨news, hcores, -, hwork⟩ := h.news
  have hsize : after.arena.size = before.arena.size + news.length := by
    rw [← Arena.length_cores, hcores, List.length_append, Arena.length_cores]
  rw [hwork, hsize, List.mem_append, List.mem_reverse, List.mem_range'_1]

/-- New items do not wait yet, so none waits twice. -/
theorem nodup_work (h : Predictions source isVisible lookahead ps before after)
    (hnodup : before.work.Nodup) (hlt : ∀ k ∈ before.work, k < before.arena.size) :
    after.work.Nodup := by
  obtain ⟨news, -, -, hwork⟩ := h.news
  rw [hwork, List.nodup_append]
  refine ⟨List.nodup_reverse.mpr List.nodup_range', hnodup, fun k hk l hl heq => ?_⟩
  rw [List.mem_reverse, List.mem_range'_1] at hk
  exact Nat.not_lt_of_le (heq ▸ hk.1) (hlt l hl)

/-- A member that does not have to be looked at is no new one. -/
theorem mem_of_not_mem_work (h : Predictions source isVisible lookahead ps before after)
    {core : Core} {k : ItemId} (hmem : (core, k) ∈ after.set.toList) (hnot : k ∉ after.work) :
    (core, k) ∈ before.set.toList := by
  have hlt := h.isOver.id_lt_size hmem
  obtain ⟨news, -, hlist, -⟩ := h.news
  rw [hlist] at hmem
  rcases List.mem_append.mp hmem with hmem | hmem
  · exact hmem
  · exact absurd (h.mem_work_iff.mpr (.inl ⟨(List.mem_zipIdx hmem).1, hlt⟩)) hnot

end Predictions

/-- A nonterminal lists its productions in the order of their numbers. -/
theorem Grammar.IsDefined.pairwise_productions (hg : g.IsDefined) {n : NonterminalId}
    {nonterminal : Nonterminal} (h : g.nonterminals[n]? = some nonterminal) :
    nonterminal.productions.Pairwise (· < ·) := by
  obtain ⟨steps, -, hdescribes⟩ := hg.exists_describes
  exact (hdescribes.listed n nonterminal h).1

/-- Looking at a member predicts the productions of the nonterminal after its marker, if there is
one. -/
theorem Closing.exists_predictions (hg : g.IsDefined) {state next : Closing} {core : Core}
    {id : ItemId} (hover : state.set.IsOver state.arena) (hmem : (core, id) ∈ state.set.toList)
    (h : state.expand g id = .ok next) :
    ∃ (β : List Symbol) (lookahead : TerminalSet) (isVisible : Bool) (ps : List ProductionId),
      ps.Pairwise (· < ·) ∧ (∀ p β', g.Predicts core.dotted p β' ↔ p ∈ ps ∧ β' = β) ∧
        (∀ t ∈ lookahead, g.First β t ∨ g.Nullable β ∧ state.arena.Looks id t) ∧
        (isVisible = true ↔ g.Nullable β) ∧ Predictions id isVisible lookahead ps state next := by
  obtain ⟨item, hitem, rfl⟩ := hover.exists_item hmem
  rcases expand_cases hg.wellFormed hitem h with ⟨hnone, rfl⟩ |
    ⟨β, lookahead, isVisible, ps, ⟨n, nonterminal, hn, rfl⟩, hps, hlookahead, hvisible, hfold⟩
  · refine ⟨[], ∅, true, [], .nil, fun p β' => ?_, by simp, ?_, .refl hover⟩
    · simp [hnone]
    · exact ⟨fun _ => .refl, fun _ => rfl⟩
  · have hsorted := hg.pairwise_productions hn
    refine ⟨β, lookahead, isVisible, _, hsorted, hps, fun t ht => ?_, hvisible,
      .of_foldlM hover (hsorted.imp Nat.ne_of_lt) hfold⟩
    rw [Arena.looks_iff hitem]
    exact (hlookahead t).mp ht

/-! ## Stages of the closure -/

/-- The items `ks` are those to which a member with this core passes its lookahead on: if what
stands behind the nonterminal after the marker can be empty, those of the productions of the
nonterminal, in the order of the productions; otherwise there are none. -/
def Receivers (g : Grammar) (s : ItemSet) (core : Core) (ks : List ItemId) : Prop :=
  ∃ ps : List ProductionId, ps.Pairwise (· < ·) ∧
    (∀ p, p ∈ ps ↔ ∃ β, g.Predicts core.dotted p β ∧ g.Nullable β) ∧
    List.Forall₂ (fun p k => (⟨p, 0⟩, k) ∈ s.toList) ps ks

/-- A member that predicts `p` supplies the terminal: it can begin what stands behind the
nonterminal, or the member looks at it and nothing need stand there. -/
def Supplies (g : Grammar) (s : ItemSet) (a : Arena) (p : ProductionId) (t : TerminalId) : Prop :=
  ∃ core id β, (core, id) ∈ s.toList ∧ g.Predicts core.dotted p β ∧
    (g.First β t ∨ g.Nullable β ∧ a.Looks id t)

section Stages

variable {s s' set set' : ItemSet} {a a' arena arena' : Arena} {core : Core} {id : ItemId}
variable {ks : List ItemId} {p : ProductionId} {t : TerminalId}

theorem Receivers.mono (h : Receivers g set core ks) (hsub : set.toList ⊆ set'.toList) :
    Receivers g set' core ks := by
  obtain ⟨ps, hsorted, hps, hks⟩ := h
  exact ⟨ps, hsorted, hps, hks.imp fun _ _ hk => hsub hk⟩

theorem Receivers.nodup (h : Receivers g set core ks) (hover : set.IsOver arena) : ks.Nodup := by
  obtain ⟨ps, hsorted, -, hks⟩ := h
  exact hover.nodup_of_forall₂ (hsorted.imp Nat.ne_of_lt) hks

/-- The links that the productions of a member add are those to its receivers. -/
theorem Predictions.receivers {source : ItemId} {isVisible : Bool} {lookahead : TerminalSet}
    {ps : List ProductionId} {before after : Closing} {β : List Symbol}
    (h : Predictions source isVisible lookahead ps before after) (hsorted : ps.Pairwise (· < ·))
    (hps : ∀ p β', g.Predicts core.dotted p β' ↔ p ∈ ps ∧ β' = β)
    (hvisible : isVisible = true ↔ g.Nullable β) : ∃ ks, Receivers g after.set core ks ∧
      after.arena.targets source = appendNew (before.arena.targets source) ks := by
  obtain ⟨ks, hks, htargets⟩ := h.targets
  refine ⟨_, ?_, htargets⟩
  cases isVisible with
  | true =>
    refine ⟨ps, hsorted, fun p => ?_, hks⟩
    simp [hps, hvisible.mp rfl]
  | false =>
    refine ⟨[], .nil, fun p => ?_, .nil⟩
    simp [hps, ← hvisible]

theorem Supplies.mono (h : Supplies g set arena p t) (hsub : set.toList ⊆ set'.toList)
    (hlooks : ∀ {k t}, arena.Looks k t → arena'.Looks k t) : Supplies g set' arena' p t := by
  obtain ⟨core, id, β, hmem, hp, ht⟩ := h
  exact ⟨core, id, β, hsub hmem, hp, ht.imp_right (And.imp_right hlooks)⟩

/-- A stage of the closure of `s`: members that have been looked at have all their links, behind
those that they had before; and nothing else has changed but the lookaheads of predicted items. -/
structure FramedUpTo (g : Grammar) (s : ItemSet) (a : Arena) (state : Closing) : Prop where
  closed : ClosedUpTo g s a state.set state.arena (· ∈ state.work)
  nodup : state.work.Nodup
  unlinked : ∀ id ∈ state.work, state.arena.targets id = a.targets id
  linked : ∀ {core id}, (core, id) ∈ state.set.toList → id ∉ state.work →
    ∃ ks, Receivers g state.set core ks ∧ state.arena.targets id = appendNew (a.targets id) ks
  outside : ∀ {id}, (∀ core, (core, id) ∉ state.set.toList) → state.arena[id]? = a[id]?
  gains : ∀ {id t}, state.arena.Looks id t → a.Looks id t ∨
    ∃ p, (⟨p, 0⟩, id) ∈ state.set.toList ∧ Supplies g state.set state.arena p t

/-- Members of a set over the arena have items of their own. -/
theorem ItemSet.IsOver.nodup_ids (h : s.IsOver a) : s.ids.Nodup := by
  have hlist : s.toList.Nodup := .of_map Prod.fst (s.map_fst_toList ▸ h.nodup)
  rw [← s.map_snd_toList]
  refine hlist.map_on ?_
  rintro ⟨core, id⟩ hmem ⟨core', id'⟩ hmem' heq
  obtain rfl : id = id' := heq
  rw [h.core_unique h hmem hmem']

namespace FramedUpTo

/-- At the beginning all members wait. -/
theorem start (hs : s.IsOver a) : FramedUpTo g s a ⟨⟨s.members, none⟩, a, s.ids.reverse⟩ where
  closed := .refl hs
  nodup := List.nodup_reverse.mpr hs.nodup_ids
  unlinked _ _ := rfl
  linked hmem hnot := absurd (List.mem_reverse.mpr (ItemSet.mem_ids_iff.mpr ⟨_, hmem⟩)) hnot
  outside _ := rfl
  gains := .inl

/-- Looking at an item that waits gives it its links. -/
theorem expand (hg : g.IsDefined) {work : List ItemId} {next : Closing}
    (h : FramedUpTo g s a ⟨set, arena, id :: work⟩)
    (hstep : Closing.expand g id ⟨set, arena, work⟩ = .ok next) : FramedUpTo g s a next := by
  have hclosed : ClosedUpTo g s a set arena fun k => k = id ∨ k ∈ work :=
    h.closed.congr fun k => List.mem_cons
  obtain ⟨core, hmem⟩ := hclosed.waiting_mem (.inl rfl)
  obtain ⟨β, lookahead, isVisible, ps, hsorted, hps, hlookahead, hvisible, hpredictions⟩ :=
    Closing.exists_predictions hg hclosed.isOver hmem hstep
  obtain ⟨hid, hrest⟩ := List.nodup_cons.mp h.nodup
  have hsub : set.toList ⊆ next.set.toList := hpredictions.members
  have hlt (k : ItemId) (hk : k ∈ work) : k < arena.size := by
    obtain ⟨c, hc⟩ := hclosed.waiting_mem (.inr hk)
    exact hclosed.isOver.id_lt_size hc
  constructor
  case closed => exact ClosedUpTo.expand hg.wellFormed hclosed hstep
  case nodup => exact hpredictions.nodup_work hrest hlt
  case unlinked =>
    intro k hk
    rcases hpredictions.mem_work_iff.mp hk with ⟨hge, -⟩ | hk
    · -- a new item: it was in neither arena, and so without links
      have hout (c : Core) (hc : (c, k) ∈ set.toList) : False :=
        Nat.not_lt_of_le hge (hclosed.isOver.id_lt_size hc)
      have hne : k ≠ id := fun heq => hout core (heq ▸ hmem)
      rw [hpredictions.others k hne]
      exact Arena.targets_congr (h.outside hout)
    · have hne : k ≠ id := fun heq => hid (heq ▸ hk)
      rw [hpredictions.others k hne]
      exact h.unlinked k (List.mem_cons_of_mem _ hk)
  case linked =>
    intro c k hc hnot
    have hold : (c, k) ∈ set.toList := hpredictions.mem_of_not_mem_work hc hnot
    by_cases heq : k = id
    · subst heq
      obtain rfl : c = core := hclosed.isOver.core_unique hclosed.isOver hold hmem
      -- it waited, so that it has its old links still, and the new ones come behind them
      rw [← h.unlinked k List.mem_cons_self]
      exact hpredictions.receivers hsorted hps hvisible
    · have hwaits : k ∉ id :: work := fun hk =>
        (List.mem_cons.mp hk).elim heq fun hk => hnot (hpredictions.mem_work_iff.mpr (.inr hk))
      obtain ⟨ks, hks, htargets⟩ := h.linked hold hwaits
      exact ⟨ks, hks.mono hsub, (hpredictions.others k heq).trans htargets⟩
  case outside =>
    intro k hnot
    have hne : k ≠ id := fun heq => hnot core (heq ▸ hsub hmem)
    rw [hpredictions.outside k hne hnot]
    exact h.outside fun c hc => hnot c (hsub hc)
  case gains =>
    intro k t ht
    rcases hpredictions.gains ht with ht | ⟨ht, p, hp, hk⟩
    · refine (h.gains ht).imp_right fun ⟨p, hk, hsupplies⟩ => ?_
      exact ⟨p, hsub hk, hsupplies.mono hsub hpredictions.looks⟩
    · -- the item looks at no less at the end than when it was looked at
      have hsupplied := (hlookahead t ht).imp_right (And.imp_right hpredictions.looks)
      exact .inr ⟨p, hk, core, id, β, hsub hmem, (hps p β).mpr ⟨hp, rfl⟩, hsupplied⟩

theorem run (hg : g.IsDefined) {state : Closing} (h : FramedUpTo g s a state)
    (hrun : state.run g = .ok (s', a')) : FramedUpTo g s a ⟨s', a', []⟩ := by
  fun_induction Closing.run g state with
  | case1 =>
    cases hrun
    exact h
  | case2 => cases hrun
  | case3 set arena id work next hexpand ih => exact ih (h.expand hg hexpand) hrun

end FramedUpTo

/-! ## The whole closure -/

/-- What the closure `s'` of `s` adds, with its arena `a'`, and what it leaves as it was in `a`.
1. The cores are the least ones that the rules ask for. New members come last, and so do their
   items, with consecutive numbers; there are no other new items.
2. Links come behind the old ones, each once, in the order of the productions.
3. Only predicted items gain terminals. Some member supplies each of them, and by the closure rules
   it comes from what was given.
4. Items outside the set do not change. -/
structure ClosureFrame (g : Grammar) (s : ItemSet) (a : Arena) (s' : ItemSet) (a' : Arena) :
    Prop where
  isOver : s'.IsOver a'
  has_iff : ∀ x, s'.Has x ↔ g.Closure s.Has x
  news : ∃ news, a'.cores = a.cores ++ news ∧ s'.toList = s.toList ++ news.zipIdx a.size
  targets : ∀ {core id}, (core, id) ∈ s'.toList →
    ∃ ks, Receivers g s' core ks ∧ ks.Nodup ∧ a'.targets id = appendNew (a.targets id) ks
  outside : ∀ {id}, (∀ core, (core, id) ∉ s'.toList) → a'[id]? = a[id]?
  looks : ∀ {id t}, a.Looks id t → a'.Looks id t
  gains : ∀ {id t}, a'.Looks id t → a.Looks id t ∨
    ∃ p, (⟨p, 0⟩, id) ∈ s'.toList ∧ Supplies g s' a' p t ∧
      g.ClosureLooks s.Has (s.Looks a) ⟨p, 0⟩ t

theorem FramedUpTo.closureFrame (h : FramedUpTo g s a ⟨s', a', []⟩) : ClosureFrame g s a s' a' := by
  have hclosed : ClosedUpTo g s a s' a' fun _ => False := h.closed.congr (by simp)
  obtain ⟨news, gained, linked, hgrowth, hlist⟩ := hclosed.growth
  constructor
  case isOver => exact hclosed.isOver
  case has_iff => exact fun x => hclosed.has_iff
  case news => exact ⟨news, hgrowth.cores, hlist⟩
  case targets =>
    intro core id hmem
    obtain ⟨ks, hks, htargets⟩ := h.linked hmem List.not_mem_nil
    exact ⟨ks, hks, hks.nodup hclosed.isOver, htargets⟩
  case outside => exact h.outside
  case looks => exact hgrowth.looks
  case gains =>
    intro id t ht
    refine (h.gains ht).imp_right fun ⟨p, hmem, hsupplies⟩ => ?_
    exact ⟨p, hmem, hsupplies, hclosed.closureLooks hmem ht⟩

/-- **The closure of a set has a result, and a frame**: it adds the items, links and lookaheads that
it should, and it leaves everything else as it was. -/
theorem exists_closureFrame (hg : g.IsDefined) (hs : s.IsOver a)
    (hprod : ∀ x, s.Has x → g.HasProduction x) :
    ∃ s' a', s.closure g a = .ok (s', a') ∧ ClosureFrame g s a s' a' := by
  obtain ⟨⟨s', a'⟩, hclosure⟩ := (ItemSet.closure_neverFails hg.wellFormed hs hprod).exists_eq_ok
  exact ⟨s', a', hclosure, (FramedUpTo.run hg (.start hs) hclosure).closureFrame⟩

end Stages

/-- The start of the augmented grammar as item 1 of an arena that has another item, and a link to
it already. -/
def linkedStart : ItemSet × Arena :=
  (ItemSet.empty.push ⟨acceptProduction, 0⟩ 1,
    ⟨#[⟨⟨2, 0⟩, .singleton 1, #[1]⟩, ⟨⟨acceptProduction, 0⟩, .singleton endOfInput, #[0]⟩]⟩)

theorem isOver_linkedStart : linkedStart.1.IsOver linkedStart.2 :=
  (ItemSet.isOver_empty _).push rfl rfl

/-- The item of the start is linked to those of the three productions of the start symbol, behind
the old link; the one for the production of the start symbol alone is linked to itself, too. The
item outside the set stays as it was, although its core is a new member. -/
theorem closureFrame_entangled : ∃ g s' a', Grammar.define Examples.entangled = .ok g ∧
    linkedStart.1.closure g linkedStart.2 = .ok (s', a') ∧
    ClosureFrame g linkedStart.1 linkedStart.2 s' a' ∧
    a'.targets 1 = [0, 2, 3, 4] ∧ a'.targets 3 = [2, 3, 4] ∧ a'[0]? = linkedStart.2[0]? := by
  obtain ⟨g, hg, hcheck⟩ := exists_define_of_check Examples.entangled
    (fun g : Grammar => match linkedStart.1.closure g linkedStart.2 with
      | .error _ => false
      | .ok (s', a') => a'.targets 1 == [0, 2, 3, 4] && a'.targets 3 == [2, 3, 4] &&
          !s'.ids.contains 0) (by decide +kernel)
  have hdefined : g.IsDefined := .of_define hg
  have hprod (x : Dotted) (hx : linkedStart.1.Has x) : g.HasProduction x := by
    obtain ⟨core, hcore, rfl⟩ := hx
    cases List.mem_singleton.mp hcore
    exact ⟨_, _, hdefined.wellFormed.accept⟩
  obtain ⟨s', a', hclosure, hframe⟩ := exists_closureFrame hdefined isOver_linkedStart hprod
  simp only [hclosure, Bool.and_eq_true, beq_iff_eq, Bool.not_eq_true', List.contains_eq_mem,
    decide_eq_false_iff_not] at hcheck
  obtain ⟨⟨hstart, hself⟩, hnot⟩ := hcheck
  refine ⟨g, s', a', hg, hclosure, hframe, hstart, hself, hframe.outside fun core hmem => ?_⟩
  exact hnot (ItemSet.mem_ids_iff.mpr ⟨core, hmem⟩)

end Lalr
