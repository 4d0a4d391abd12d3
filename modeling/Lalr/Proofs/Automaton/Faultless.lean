import Lalr.Grammar.Examples
import Lalr.Proofs.Automaton.Build
import Lalr.Proofs.Automaton.Count
import Lalr.Proofs.Faultless

/-!
# Building does not fault

Building an automaton ends in the automaton or in the failure that there are too
many states. No look-up on the way fails: the items of every state are in the
arena and of productions of the grammar, shifted items come from those, and a
known kernel is one of a state.

- `Shifted.across_neverFails`, `Draft.meet_neverFails`: the parts of one look for
  the state after a symbol.
- `Draft.Refuses`: no further state is allowed, and no known state has the
  kernel. This is the only way in which `goto` fails (`Draft.goto_failsOnly`).
- `Automaton.Exceeds`: a limit that is less than the number of canonical sets.
  This is the only way in which building fails (`Automaton.build_failsOnly`).
-/

namespace Lalr

open Grammar

variable {g : Grammar} {X : Symbol}

theorem orFault_failsOnly {α : Type} {allowed : BuildError → Prop} {x : Except Fault α}
    (h : NeverFails x) : FailsOnly allowed (orFault x) := by
  obtain ⟨a, ha⟩ := h.exists_eq_ok
  exact failsOnly_of_eq_ok (orFault_eq_ok_iff.mpr ha)

/-! ## Looking for the state after a symbol -/

namespace Arena

variable {a : Arena}

theorem linkMany_neverFails {links : List (ItemId × ItemId)}
    (h : ∀ link ∈ links, link.1 < a.size) : NeverFails (a.linkMany links) := by
  refine failsOnly_foldlM (P := fun _ b => b.size = a.size) rfl ?_ ?_
  · rintro done ⟨source, target⟩ b hpre hsize
    have hsource : source < a.size := h (source, target) (hpre.subset (by simp))
    exact (link_neverFails (hsize ▸ hsource)).map
  · rintro done ⟨source, target⟩ b c - hsize hstep
    obtain ⟨⟨isNew, c⟩, hlink, rfl⟩ := map_eq_ok_iff.mp hstep
    exact (growth_link hlink).size_eq.trans hsize

theorem nextSymbols_neverFails {s : ItemSet} (hs : s.IsOver a)
    (hprod : ∀ x, s.Has x → g.HasProduction x) : NeverFails (a.nextSymbols g s.ids) := by
  refine (failsOnly_mapM fun k hk => ?_).bind fun _ _ => failsOnly_pure _
  obtain ⟨core, hmem⟩ := ItemSet.mem_ids_iff.mp hk
  obtain ⟨item, hitem, rfl⟩ := hs.exists_item hmem
  refine failsOnly_bind_of_eq_ok (get_eq_ok_iff.mpr hitem) ?_
  exact Core.next?_neverFails (hprod _ (ItemSet.has_of_mem hmem))

end Arena

namespace Shifted

variable {a : Arena} {core : Core} {source : ItemId} {s : ItemSet}

theorem move_neverFails {shifted : Shifted} (hover : shifted.kernel.IsOver shifted.arena)
    (hsource : shifted.arena.cores[source]? = some core) (hcore : g.HasProduction core.dotted) :
    NeverFails (shifted.move g X source) := by
  obtain ⟨kernel, arena, moves⟩ := shifted
  obtain ⟨item, hitem, rfl⟩ := Arena.getElem?_cores_eq_some_iff.mp hsource
  refine failsOnly_bind_of_eq_ok (Arena.get_eq_ok_iff.mpr hitem) ?_
  refine (Core.next?_neverFails hcore).bind fun next hnext => ?_
  split
  · next heq =>
    subst heq
    refine (Arena.shift_neverFails hitem hnext).bind fun ⟨id, arena'⟩ hshift => ?_
    obtain ⟨rfl, hgrowth⟩ := Arena.growth_shift hsource hshift
    have hlast : arena.size < arena'.size := by
      rw [hgrowth.size_eq]
      exact Nat.lt_succ_self _
    exact (ItemSet.add_neverFails (hover.growth hgrowth) hlast).bind fun _ _ => failsOnly_pure _
  · exact failsOnly_pure _

theorem across_neverFails (hs : s.IsOver a) (hprod : ∀ x, s.Has x → g.HasProduction x) :
    NeverFails (across g X s.ids a) := by
  rw [across, ← ItemSet.map_snd_toList, List.foldlM_map]
  refine failsOnly_foldlM (P := Tried g X a) tried_nil ?_ ?_
  · rintro done ⟨core, source⟩ shifted hpre ⟨sources, -, hfrom⟩
    have hmem : (core, source) ∈ s.toList := hpre.subset (by simp)
    exact move_neverFails hfrom.isOver (hfrom.growth.getElem?_cores (hs.stored hmem))
      (hprod _ (ItemSet.has_of_mem hmem))
  · rintro done ⟨core, source⟩ before after hpre htried hmove
    exact htried.step hs hpre hmove

end Shifted

namespace Draft

variable {draft next : Draft} {limit : Nat} {id target : StateId} {kernel items s : ItemSet}
variable {sources : List (Core × ItemId)} {done : List Symbol}

/-- Adding a state fails only when no more are allowed. -/
theorem addState_failsOnly (wf : g.WellFormed) (hs : kernel.IsOver draft.arena)
    (hprod : ∀ x, kernel.Has x → g.HasProduction x) :
    FailsOnly (fun e => e = .tooManyStates limit ∧ limit ≤ draft.states.size)
      (draft.addState g limit kernel) := by
  obtain ⟨arena, states, known⟩ := draft
  unfold addState
  dsimp only
  split
  · next hfull => exact failsOnly_error ⟨rfl, hfull⟩
  · exact (orFault_failsOnly (ItemSet.closure_neverFails wf hs hprod)).bind
      fun _ _ => failsOnly_pure _

theorem meet_neverFails {a : Arena} {shifted : Shifted} {states : Array State}
    {known : Std.TreeMap (List Nat) StateId} {q : State} (hs : s.IsOver a)
    (hsub : sources.Sublist s.toList) (hfrom : Shifted.From a sources shifted)
    (htarget : states[target]? = some q) :
    NeverFails (meet ⟨shifted.arena, states, known⟩ a.size shifted.moves.toList target) := by
  have hmoves {source moved : ItemId} (hmove : (source, moved) ∈ shifted.moves.toList) :
      source < a.size ∧ moved < shifted.arena.size := by
    obtain ⟨core, hsource, hmoved⟩ := (hfrom.mem_moves_iff hs hsub).mp hmove
    exact ⟨hs.id_lt_size (hsub.subset hsource), hfrom.isOver.id_lt_size hmoved⟩
  have hcores : NeverFails (shifted.moves.toList.mapM fun move => do
      return (move.1, (← shifted.arena.get move.2).core)) :=
    failsOnly_mapM fun move hmove =>
      (Arena.get_neverFails (hmoves hmove).2).bind fun _ _ => failsOnly_pure _
  refine hcores.bind fun links hlinks => ?_
  simp only [htarget]
  -- the sources were there before shifting, so they are still there
  have hsize : (shifted.arena.truncate a.size).size = a.size := by
    rw [Arena.size_truncate, hfrom.growth.size_eq]
    exact Nat.min_eq_left (Nat.le_add_right _ _)
  refine FailsOnly.bind (Arena.linkMany_neverFails fun link hlink => ?_) fun _ _ => failsOnly_pure _
  obtain ⟨⟨source, core⟩, hmem, hfind⟩ := List.mem_filterMap.mp hlink
  obtain ⟨k, -, rfl⟩ := Option.map_eq_some_iff.mp hfind
  obtain ⟨⟨source', moved⟩, hmove, heq⟩ := (mem_of_mapM_eq_ok hlinks _).mp hmem
  obtain ⟨item, -, heq⟩ := bind_eq_ok_iff.mp heq
  cases pure_eq_ok_iff.mp heq
  exact Nat.lt_of_lt_of_eq (hmoves hmove).1 hsize.symm

/-- No further state is allowed, and no state has the kernel to which the symbol leads. -/
def Refuses (g : Grammar) (limit : Nat) (draft : Draft) (s : ItemSet) (X : Symbol)
    (e : BuildError) : Prop :=
  e = .tooManyStates limit ∧ limit ≤ draft.states.size ∧
    ∃ sources, Sources g X s.toList sources ∧ ∀ (j : StateId) q, draft.states[j]? = some q →
      ¬∀ core, core ∈ q.kernel.cores ↔ core ∈ sources.map fun m => m.1.advance

/-- The state after a symbol is found or added, unless no further state is allowed. -/
theorem goto_failsOnly (wf : g.WellFormed) (hknows : Knows draft.states draft.known)
    (hs : s.IsOver draft.arena) (hprod : ∀ x, s.Has x → g.HasProduction x) :
    FailsOnly (Refuses g limit draft s X) (draft.goto g limit s.ids X) := by
  obtain ⟨arena, states, known⟩ := draft
  refine (orFault_failsOnly (Shifted.across_neverFails hs hprod)).bind
    fun ⟨kernel, shifted, moves⟩ hacross => ?_
  obtain ⟨sources, hsources, hfrom⟩ := Shifted.across_spec hs (orFault_eq_ok_iff.mp hacross)
  have hcores (core : Core) : core ∈ kernel.cores ↔ core ∈ sources.map fun m => m.1.advance := by
    rw [← ItemSet.map_fst_toList, hfrom.kernel, List.zipIdx_map_fst]
  dsimp only
  split
  · next target htarget =>
    obtain ⟨q, hq, -⟩ := (hknows _ _).mp htarget
    exact (orFault_failsOnly (meet_neverFails hs hsources.sublist hfrom hq)).bind
      fun _ _ => failsOnly_pure _
  · next hnone =>
    have hmoves : ∀ link ∈ moves.toList, link.1 < shifted.size := by
      rintro ⟨source, moved⟩ hmove
      obtain ⟨core, hsource, -⟩ := (hfrom.mem_moves_iff hs hsources.sublist).mp hmove
      rw [hfrom.growth.size_eq]
      exact Nat.lt_add_right _ (hs.id_lt_size (hsources.sublist.subset hsource))
    refine (orFault_failsOnly (Arena.linkMany_neverFails hmoves)).bind fun linked hlink => ?_
    have hlinked := Arena.growth_linkMany (orFault_eq_ok_iff.mp hlink)
    have hkernel (x : Dotted) (hx : kernel.Has x) : g.HasProduction x := by
      obtain ⟨core, k, hmem, hsame⟩ := hfrom.exists_source hx
      have hcore := hprod core.dotted (ItemSet.has_of_mem (hsources.sublist.subset hmem))
      rwa [HasProduction, hsame]
    refine (addState_failsOnly wf (hfrom.isOver.growth hlinked) hkernel).mono ?_
    rintro e ⟨rfl, hfull⟩
    refine ⟨rfl, hfull, sources, hsources, fun j q hq hsame => ?_⟩
    -- a state with this kernel would be known
    have hsignature : q.kernel.signature = kernel.signature :=
      ItemSet.signature_eq_iff.mpr fun core => (hsame core).trans (hcores core).symm
    rw [(hknows _ j).mpr ⟨q, hq, hsignature⟩] at hnone
    cases hnone

end Draft

/-- There are more sets in the canonical collection than the limit allows states. -/
def Automaton.Exceeds (g : Grammar) (limit : Nat) (e : BuildError) : Prop :=
  e = .tooManyStates limit ∧ limit < g.canonicalSets.ncard

/-- Every item of a state is one of a production. -/
theorem Collection.hasProduction_of_has {m : Automaton} {id i : StateId} {done : List Symbol}
    {kernel items : ItemSet} {x : Dotted} (wf : g.WellFormed) (h : Collection g m id done)
    (hi : m.sets[i]? = some (kernel, items)) (hx : items.Has x) : g.HasProduction x := by
  obtain ⟨n, right, hp, -⟩ := h.expands_of_has wf hi hx
  exact ⟨n, right, hp⟩

namespace Draft

variable {draft next : Draft} {limit : Nat} {id : StateId} {kernel items : ItemSet}
variable {done : List Symbol}

/-- When a state is refused, the canonical collection has more sets than there are states. -/
theorem Sound.exceeds_of_refuses {e : BuildError} (wf : g.WellFormed)
    (h : Sound g limit draft id done) (hid : draft.automaton.sets[id]? = some (kernel, items))
    (hX : items.Awaits g X) (he : Refuses g limit draft items X e) :
    Automaton.Exceeds g limit e := by
  obtain ⟨rfl, hfull, sources, hsources, hmissing⟩ := he
  refine ⟨rfl, Nat.lt_of_le_of_lt hfull ?_⟩
  rw [← show draft.automaton.sets.length = draft.states.size from Automaton.length_sets _]
  refine h.collection.size_lt_ncard wf h.knows.hasDistinctKernels hid hX fun {j K I} hj hsame => ?_
  obtain ⟨q, hq, rfl, rfl⟩ := Automaton.getElem?_sets_eq_some_iff.mp hj
  exact hmissing j q hq (Collection.mem_cores_iff_of_advanced hsources hsame)

/-- When the state after a symbol is found or added, the transition to it can be recorded: the state
that is expanded stays where it is. -/
theorem Sound.expandOver_eq_ok {mid : Draft} (wf : g.WellFormed) (h : Sound g limit draft id done)
    (hid : draft.automaton.sets[id]? = some (kernel, items))
    (hgoto : draft.goto g limit items.ids X = .ok (target, mid)) :
    draft.expandOver g limit id items.ids X = .ok (mid.withTransition id X target) := by
  have hlt : id < draft.states.size :=
    Automaton.length_sets draft.automaton ▸ (List.getElem?_eq_some_iff.mp hid).choose
  have hmid : id < mid.states.size := by
    obtain ⟨-, sources, -, ⟨q, hfound⟩ | ⟨kernel', items', arena, hadded⟩⟩ :=
      h.goto_cases wf hid hgoto
    · exact hfound.states ▸ hlt
    · rw [hadded.states, Array.size_push]
      exact Nat.lt_succ_of_lt hlt
  exact expandOver_eq_ok_iff.mpr ⟨_, _, hgoto, hmid, rfl⟩

theorem Sound.expandOver_failsOnly (wf : g.WellFormed) (h : Sound g limit draft id done)
    (hid : draft.automaton.sets[id]? = some (kernel, items)) (hX : items.Awaits g X) :
    FailsOnly (Automaton.Exceeds g limit) (draft.expandOver g limit id items.ids X) := by
  have hgoto : FailsOnly (Refuses g limit draft items X) (draft.goto g limit items.ids X) :=
    goto_failsOnly wf h.knows (h.collection.closed hid).isOver fun x hx =>
      h.collection.hasProduction_of_has wf hid hx
  rcases (hgoto.mono fun e he => h.exceeds_of_refuses wf hid hX he).exists_eq with
    ⟨⟨target, mid⟩, hok⟩ | ⟨e, hfails, hexceeds⟩
  · exact failsOnly_of_eq_ok (h.expandOver_eq_ok wf hid hok)
  · rw [Draft.expandOver, hfails]
    exact failsOnly_error hexceeds

theorem Sound.expand_failsOnly (wf : g.WellFormed) (h : Sound g limit draft id [])
    (hlimit : limit ≤ maxStates) (hid : id < draft.states.size) :
    FailsOnly (Automaton.Exceeds g limit) (draft.expand g limit id) := by
  have hq : draft.states[id]? = some draft.states[id] := Array.getElem?_eq_getElem hid
  generalize draft.states[id] = q at hq
  have hset : draft.automaton.sets[id]? = some (q.kernel, q.items) :=
    Automaton.getElem?_sets_of_getElem? hq
  have hover := (h.collection.closed hset).isOver
  have hitems : draft.itemsOf id = .ok q.items.ids := itemsOf_eq_ok_iff.mpr ⟨q, hq, rfl⟩
  refine failsOnly_bind_of_eq_ok (orFault_eq_ok_iff.mpr hitems) ?_
  have hnext := Arena.nextSymbols_neverFails hover fun x hx =>
    h.collection.hasProduction_of_has wf hset hx
  refine (orFault_failsOnly hnext).bind fun symbols hsymbols => ?_
  have hspec := Arena.nextSymbols_spec hover (orFault_eq_ok_iff.mp hsymbols)
  refine failsOnly_foldlM (P := fun done later => Sound g limit later id done ∧
    later.automaton.sets[id]? = some (q.kernel, q.items)) ⟨h, hset⟩ ?_ ?_
  · rintro done X later hpre ⟨hsound, hset⟩
    exact hsound.expandOver_failsOnly wf hset
      ((hspec.2 X).mp (hpre.subset (List.mem_append_right _ List.mem_cons_self)))
  · rintro done X before after hpre ⟨hsound, hset⟩ hover
    exact hsound.expandOver_of_prefix wf hlimit hset hspec hpre hover

theorem Sound.expandFrom_failsOnly (wf : g.WellFormed) (h : Sound g limit draft id [])
    (hlimit : limit ≤ maxStates) :
    FailsOnly (Automaton.Exceeds g limit) (draft.expandFrom g limit id) := by
  fun_induction Draft.expandFrom g limit id draft with
  | case1 id draft hbounds e hfault =>
    exact failsOnly_error (h.expand_failsOnly wf hlimit hbounds.2 e hfault)
  | case2 id draft hbounds later hlater ih => exact ih (h.expand wf hlimit hlater)
  | case3 => exact failsOnly_pure _

/-- The start state is refused only if there may be no states at all. -/
theorem start_failsOnly (wf : g.WellFormed) :
    FailsOnly (Automaton.Exceeds g limit) (start g limit) := by
  refine (orFault_failsOnly (ItemSet.addNew_neverFails (ItemSet.isOver_empty _))).bind
    fun ⟨k, isNew, kernel, arena⟩ hadd => ?_
  obtain ⟨hover, honly⟩ := ItemSet.addNew_empty_spec (orFault_eq_ok_iff.mp hadd)
  have hkernel (x : Dotted) (hx : kernel.Has x) : g.HasProduction x := by
    rw [(honly x).mp hx]
    exact ⟨_, _, wf.accept⟩
  have hstate : FailsOnly (fun e => e = .tooManyStates limit ∧ limit ≤ 0)
      (addState g limit ⟨arena, #[], ∅⟩ kernel) := addState_failsOnly wf hover hkernel
  refine (hstate.mono ?_).bind fun _ _ => failsOnly_pure _
  rintro e ⟨rfl, hzero⟩
  refine ⟨rfl, Nat.lt_of_le_of_lt hzero ?_⟩
  exact (Set.ncard_pos (finite_canonicalSets wf)).mpr nonempty_canonicalSets

end Draft

/-- **Building fails only when there are too many states.** -/
theorem Automaton.build_failsOnly (wf : g.WellFormed) (limit : Option Nat) :
    FailsOnly (Exceeds g (effectiveLimit limit)) (build g limit) := by
  have hlimit : effectiveLimit limit ≤ maxStates := Nat.min_le_right _ _
  refine (Draft.start_failsOnly wf).bind fun first hfirst => ?_
  have hstart := Draft.sound_start wf hfirst
  refine (hstart.expandFrom_failsOnly wf hlimit).bind fun ⟨arena, states, known⟩ hexpand => ?_
  obtain ⟨n, hsound, -⟩ := hstart.expandFrom wf hlimit hexpand
  have hclosed : arena.IsClosed := fun source target hlink =>
    (hsound.flow.links_iff.mp hlink).lt_size hsound.collection
  exact (orFault_failsOnly (Arena.propagate_neverFails hclosed)).bind fun _ _ => failsOnly_pure _

namespace Draft

/-- A new state gets a number that 16 bits can hold. -/
theorem lt_maxStates_of_addState {draft next : Draft} {limit : Option Nat} {kernel : ItemSet}
    {id : StateId} (h : draft.addState g (effectiveLimit limit) kernel = .ok (id, next)) :
    id < maxStates := by
  obtain ⟨arena, states, known⟩ := draft
  unfold addState at h
  dsimp only at h
  split at h
  · cases h
  · next hroom =>
    obtain ⟨_, -, h⟩ := bind_eq_ok_iff.mp h
    cases h
    exact Nat.lt_of_lt_of_le (Nat.lt_of_not_le hroom) (Nat.min_le_right _ _)

end Draft

/-- **Building never faults**: for every defined grammar and every limit there is an automaton or
the failure that there are too many states, and no state on the way gets a number of more than
16 bits. -/
theorem build_eq_ok_or_tooManyStates (hg : g.IsDefined) (limit : Option Nat) :
    ((∃ m, Automaton.build g limit = .ok m) ∨
      Automaton.build g limit = .error (.tooManyStates (effectiveLimit limit))) ∧
    ∀ draft kernel id next,
      Draft.addState g (effectiveLimit limit) draft kernel = .ok (id, next) → id < maxStates := by
  refine ⟨?_, fun draft kernel id next h => Draft.lt_maxStates_of_addState h⟩
  rcases (Automaton.build_failsOnly hg.wellFormed limit).exists_eq with hok | ⟨e, he, rfl, -⟩
  · exact .inl hok
  · exact .inr he

/-- Of the assignments through pointers, building with no more than three states does not fault. -/
theorem build_eq_ok_or_tooManyStates_pointer : ∃ g, Grammar.define Examples.pointer = .ok g ∧
    ((∃ m, Automaton.build g (some 3) = .ok m) ∨
      Automaton.build g (some 3) = .error (.tooManyStates 3)) ∧
    ∀ draft kernel id next,
      Draft.addState g 3 draft kernel = .ok (id, next) → id < maxStates := by
  obtain ⟨g, m, hdefine, -, -⟩ := exists_build_of_check Examples.pointer (fun _ _ => true)
    (by decide +kernel)
  exact ⟨g, hdefine, build_eq_ok_or_tooManyStates (.of_define hdefine) (some 3)⟩

end Lalr
