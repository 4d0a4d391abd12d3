import Lalr.Grammar.Examples
import Lalr.Proofs.Automaton.Build
import Lalr.Proofs.Automaton.Count
import Lalr.Proofs.Grammar.Extension

/-!
# Building in lockstep

Two grammars that agree on everything that is reachable in the first one have the
same automaton: the runs of the builder are in lockstep, and the states, the
items, the links and the lookaheads are equal, number for number
(`Agrees.build`).

- `Agrees.across`, `Agrees.goto`: one look for the state after a symbol.
- `Agrees.expandOver`, `Agrees.expand_draft`, `Agrees.expandFrom`: from then on
  the items are those of a draft that is sound for the first grammar, so they are
  valid for a string, and their productions are reachable.
-/

namespace Lalr

open Grammar

/-- The items of a part of the canonical collection are valid, so their productions are
reachable. -/
theorem Collection.inReach_of_has {g : Grammar} {m : Automaton} {id i : StateId}
    {done : List Symbol} {kernel items : ItemSet} {x : Dotted} (wf : g.WellFormed)
    (h : Collection g m id done) (hi : m.sets[i]? = some (kernel, items)) (hx : items.Has x) :
    g.InReach x := by
  obtain ⟨γ, hγ⟩ := h.exists_validItems hi
  have hvalid : x ∈ g.validItems γ := hγ ▸ hx
  exact Lr0Valid.inReach wf hvalid

namespace Grammar

namespace Agrees

variable {g g' : Grammar} {X : Symbol} {a : Arena} {s kernel : ItemSet} {core : Core}
variable {id : StateId} {source : ItemId} {limit : Nat} {draft : Draft} {done : List Symbol}

/-! ## Shifting -/

theorem shift (h : g.Agrees g') (hsource : a.cores[source]? = some core)
    (hcore : g.InReach core.dotted) : a.shift g' source = a.shift g source := by
  obtain ⟨item, hitem, rfl⟩ := Arena.getElem?_cores_eq_some_iff.mp hsource
  refine bind_congr_of_ok rfl fun item' hget => ?_
  cases hitem.symm.trans (Arena.get_eq_ok_iff.mp hget)
  exact bind_congr_of_ok (h.isComplete hcore) fun _ _ => rfl

theorem move (h : g.Agrees g') {shifted : Shifted}
    (hsource : shifted.arena.cores[source]? = some core) (hcore : g.InReach core.dotted) :
    shifted.move g' X source = shifted.move g X source := by
  obtain ⟨kernel, arena, moves⟩ := shifted
  have hshift : arena.shift g' source = arena.shift g source := h.shift hsource hcore
  obtain ⟨item, hitem, rfl⟩ := Arena.getElem?_cores_eq_some_iff.mp hsource
  refine bind_congr_of_ok rfl fun item' hget => ?_
  cases hitem.symm.trans (Arena.get_eq_ok_iff.mp hget)
  refine bind_congr_of_ok (h.next? hcore) fun next _ => ?_
  rw [hshift]

/-- What is shifted is the same. -/
theorem across (h : g.Agrees g') (hover : s.IsOver a) (hs : ∀ x, s.Has x → g.InReach x) :
    Shifted.across g' X s.ids a = Shifted.across g X s.ids a := by
  rw [Shifted.across, Shifted.across, ← ItemSet.map_snd_toList, List.foldlM_map, List.foldlM_map]
  refine foldlM_congr_of_invariant (P := Shifted.Tried g X a) Shifted.tried_nil ?_ ?_
  · rintro done ⟨core, source⟩ shifted hpre ⟨sources, -, hfrom⟩
    have hmem : (core, source) ∈ s.toList := hpre.subset (by simp)
    exact h.move (hfrom.growth.getElem?_cores (hover.stored hmem)) (hs _ (ItemSet.has_of_mem hmem))
  · rintro done ⟨core, source⟩ before after hpre htried hmove
    exact htried.step hover hpre hmove

theorem nextSymbols (h : g.Agrees g') (hover : s.IsOver a) (hs : ∀ x, s.Has x → g.InReach x) :
    a.nextSymbols g' s.ids = a.nextSymbols g s.ids := by
  refine bind_congr_of_ok (mapM_congr fun k hk => ?_) fun _ _ => rfl
  obtain ⟨core, hmem⟩ := ItemSet.mem_ids_iff.mp hk
  obtain ⟨item, hitem, rfl⟩ := hover.exists_item hmem
  refine bind_congr_of_ok rfl fun item' hget => ?_
  cases hitem.symm.trans (Arena.get_eq_ok_iff.mp hget)
  exact h.next? (hs _ (ItemSet.has_of_mem hmem))

/-! ## The state after a symbol -/

theorem addState (h : g.Agrees g') (wf : g.WellFormed) (hover : kernel.IsOver draft.arena)
    (hkernel : ∀ x, kernel.Has x → g.InReach x) :
    draft.addState g' limit kernel = draft.addState g limit kernel := by
  obtain ⟨arena, states, known⟩ := draft
  unfold Draft.addState
  dsimp only
  rw [h.closure wf hover hkernel]

/-- The state after a symbol is the same, found or added. -/
theorem goto (h : g.Agrees g') (wf : g.WellFormed) (hover : s.IsOver draft.arena)
    (hs : ∀ x, s.Has x → g.InReach x) :
    draft.goto g' limit s.ids X = draft.goto g limit s.ids X := by
  obtain ⟨arena, states, known⟩ := draft
  refine bind_congr_of_ok (congrArg orFault (h.across hover hs)) fun shifted hacross => ?_
  obtain ⟨kernel, arena', moves⟩ := shifted
  obtain ⟨sources, hsources, hfrom⟩ := Shifted.across_spec hover (orFault_eq_ok_iff.mp hacross)
  dsimp only
  split
  · rfl
  · refine bind_congr_of_ok rfl fun linked hlink => ?_
    have hlinked := Arena.growth_linkMany (orFault_eq_ok_iff.mp hlink)
    refine h.addState wf (hfrom.isOver.growth hlinked) fun x hx => ?_
    obtain ⟨core, source, hsource, hsame⟩ := hfrom.exists_source hx
    have hcore : g.InReach core.dotted :=
      hs _ (ItemSet.has_of_mem (hsources.sublist.subset hsource))
    rwa [InReach, hsame]

/-! ## Drafts -/

theorem expandOver (h : g.Agrees g') (wf : g.WellFormed) {K I : ItemSet}
    (hsound : draft.Sound g limit id done) (hid : draft.automaton.sets[id]? = some (K, I)) :
    draft.expandOver g' limit id I.ids X = draft.expandOver g limit id I.ids X := by
  have hover : I.IsOver draft.arena := (hsound.collection.closed hid).isOver
  exact bind_congr_of_ok (h.goto wf hover fun x hx => hsound.collection.inReach_of_has wf hid hx)
    fun _ _ => rfl

/-- Expanding a state is the same: the symbols are, and after each of them the draft is sound. -/
theorem expand_draft (h : g.Agrees g') (wf : g.WellFormed) (hsound : draft.Sound g limit id [])
    (hlimit : limit ≤ maxStates) : draft.expand g' limit id = draft.expand g limit id := by
  refine bind_congr_of_ok rfl fun ids hids => ?_
  obtain ⟨q, hq, rfl⟩ := Draft.itemsOf_eq_ok_iff.mp (orFault_eq_ok_iff.mp hids)
  have hset : draft.automaton.sets[id]? = some (q.kernel, q.items) :=
    Automaton.getElem?_sets_of_getElem? hq
  have hover : q.items.IsOver draft.arena := (hsound.collection.closed hset).isOver
  refine bind_congr_of_ok (congrArg orFault (h.nextSymbols hover fun x hx =>
    hsound.collection.inReach_of_has wf hset hx)) fun symbols hsymbols => ?_
  have hspec := Arena.nextSymbols_spec hover (orFault_eq_ok_iff.mp hsymbols)
  refine foldlM_congr_of_invariant (P := fun done later => Draft.Sound g limit later id done ∧
    later.automaton.sets[id]? = some (q.kernel, q.items)) ⟨hsound, hset⟩ ?_ ?_
  · rintro done X later - ⟨hlater, hset⟩
    exact h.expandOver wf hlater hset
  · rintro done X before after hpre ⟨hbefore, hset⟩ hexpand
    exact hbefore.expandOver_of_prefix wf hlimit hset hspec hpre hexpand

theorem expandFrom (h : g.Agrees g') (wf : g.WellFormed) (hsound : draft.Sound g limit id [])
    (hlimit : limit ≤ maxStates) : draft.expandFrom g' limit id = draft.expandFrom g limit id := by
  fun_induction Draft.expandFrom g limit id draft with
  | case1 id draft hbounds e hfault =>
    rw [Draft.expandFrom, dif_pos hbounds, h.expand_draft wf hsound hlimit, hfault]
  | case2 id draft hbounds later hlater ih =>
    rw [Draft.expandFrom, dif_pos hbounds, h.expand_draft wf hsound hlimit, hlater]
    exact ih (hsound.expand wf hlimit hlater)
  | case3 id draft hbounds => rw [Draft.expandFrom, dif_neg hbounds]

theorem start (h : g.Agrees g') (wf : g.WellFormed) :
    Draft.start g' limit = Draft.start g limit := by
  refine bind_congr_of_ok rfl fun ⟨k, isNew, kernel, arena⟩ hadd => ?_
  obtain ⟨hover, hkernel⟩ := ItemSet.addNew_empty_spec (orFault_eq_ok_iff.mp hadd)
  refine bind_congr_of_ok (h.addState wf hover fun x hx => ?_) fun _ _ => rfl
  rw [(hkernel x).mp hx]
  exact ⟨_, _, wf.accept, reachable_start⟩

/-- **Building is the same**, whatever the limit: the automata are equal, or the failures are. -/
theorem build (h : g.Agrees g') (wf : g.WellFormed) (limit : Option Nat) :
    Automaton.build g' limit = Automaton.build g limit := by
  refine bind_congr_of_ok (h.start wf) fun first hfirst => ?_
  have hsound := Draft.sound_start wf hfirst
  exact bind_congr_of_ok (h.expandFrom wf hsound (Nat.min_le_right _ _)) fun _ _ => rfl

end Agrees

end Grammar

/-- **Rules for what is not reachable do not interfere**: when a definition goes on with the same
start symbol and with rules for nonterminals that are not reachable, everything that is known of the
reachable ones stays the same, and under every limit the same automaton is built, or building fails
in the same way. -/
theorem build_eq_of_extension {steps more : List Definition.Step} {g g' : Grammar}
    (hg : Grammar.define steps = .ok g) (hg' : Grammar.define (steps ++ more) = .ok g')
    (hstart : g'.start = g.start)
    (hmore : ∀ left right, .rule left right ∈ more → ¬g.Reachable left) :
    g.Agrees g' ∧ ∀ limit, Automaton.build g' limit = Automaton.build g limit := by
  have hagrees := agrees_of_extension hg hg' hstart hmore
  exact ⟨hagrees, hagrees.build (IsDefined.of_define hg).wellFormed⟩

/-- Lists of the assignments through pointers are not reachable, so rules for them do not show in
the automaton. -/
theorem build_eq_of_extension_pointer : ∃ g g' m, Grammar.define Examples.pointer = .ok g ∧
    Grammar.define (Examples.pointer ++ Examples.unusedList) = .ok g' ∧
    g.productions.size = 6 ∧ g'.productions.size = 8 ∧ g.Agrees g' ∧
    Automaton.build g none = .ok m ∧ Automaton.build g' none = .ok m := by
  obtain ⟨g, m, hg, hm, hcheck⟩ := exists_build_of_check Examples.pointer
    (fun g _ => g.start == 1 && g.nonterminals.size == 4 && g.productions.size == 6)
    (by decide +kernel)
  obtain ⟨g', m', hg', hm', hcheck'⟩ :=
    exists_build_of_check (Examples.pointer ++ Examples.unusedList)
      (fun g _ => g.start == 1 && g.productions.size == 8) (by decide +kernel)
  simp only [Bool.and_eq_true, beq_iff_eq] at hcheck hcheck'
  obtain ⟨⟨hstart, hsize⟩, hcount⟩ := hcheck
  obtain ⟨hstart', hcount'⟩ := hcheck'
  have hunreachable : ¬g.Reachable 4 := fun h => by
    have hlt := h.lt_size (IsDefined.of_define hg).wellFormed (hsize ▸ by decide)
    rw [hsize] at hlt
    exact absurd hlt (Nat.lt_irrefl 4)
  have hmore (left : NonterminalId) (right : Array Symbol)
      (hmem : .rule left right ∈ Examples.unusedList) : ¬g.Reachable left := by
    obtain rfl : left = 4 := by
      simp only [Examples.unusedList, List.mem_cons, reduceCtorEq, Definition.Step.rule.injEq,
        List.not_mem_nil, or_false, false_or] at hmem
      exact hmem.elim And.left And.left
    exact hunreachable
  obtain ⟨hagrees, hbuild⟩ := build_eq_of_extension hg hg' (hstart'.trans hstart.symm) hmore
  exact ⟨g, g', m, hg, hg', hcount, hcount', hagrees, hm, (hbuild none).trans hm⟩

end Lalr
