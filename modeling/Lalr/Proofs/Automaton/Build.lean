import Lalr.Proofs.Automaton.Flow

/-!
# Automata that are built

From the start state on, every state is expanded over each symbol after one of
its markers. `Draft.Sound` holds of the draft with the start state alone, every
expansion keeps it, and when all states are expanded and the lookaheads are
propagated, the automaton is complete.

- `Automaton.IsComplete`: everything that holds of an automaton that was built.
- `isComplete_of_build`: building makes complete automata.
-/

namespace Lalr

open Grammar

variable {g : Grammar} {X : Symbol} {id : StateId} {done : List Symbol} {limit : Nat}

/-- When a state is expanded over all symbols after its markers, it is the turn of the next one. -/
theorem Collection.next {m : Automaton} {kernel items : ItemSet} (h : Collection g m id done)
    (hid : m.sets[id]? = some (kernel, items)) (hdone : ∀ X, X ∈ done ↔ items.Awaits g X) :
    Collection g m (id + 1) [] := by
  refine { h with goes_iff := fun {i K I} hi X => ?_ }
  rw [h.goes_iff hi]
  constructor
  · rintro (⟨hlt, hawaits⟩ | ⟨rfl, hX⟩)
    · exact .inl ⟨Nat.lt_succ_of_lt hlt, hawaits⟩
    · cases hi.symm.trans hid
      exact .inl ⟨Nat.lt_succ_self i, (hdone X).mp hX⟩
  · rintro (⟨hlt, hawaits⟩ | ⟨-, hX⟩)
    · rcases Nat.lt_succ_iff_lt_or_eq.mp hlt with hlt | rfl
      · exact .inl ⟨hlt, hawaits⟩
      · cases hi.symm.trans hid
        exact .inr ⟨rfl, (hdone X).mpr hawaits⟩
    · cases hX

namespace Draft

variable {draft next : Draft} {kernel items : ItemSet}

/-- What holds of a draft when all states before `id` are expanded, and state `id` over the symbols
`done`: the states are known, no more than allowed and a part of the canonical collection, and links
and lookaheads are as they should be. -/
structure Sound (g : Grammar) (limit : Nat) (draft : Draft) (id : StateId) (done : List Symbol) :
    Prop where
  knows : Knows draft.states draft.known
  collection : Collection g draft.automaton id done
  flow : Flow g draft.automaton
  size_le : draft.automaton.sets.length ≤ limit

/-- States that are known by their kernels have different ones. -/
theorem Knows.hasDistinctKernels {states : Array State} {known : Std.TreeMap (List Nat) StateId}
    {arena : Arena} (h : Knows states known) : (Automaton.mk states arena).HasDistinctKernels := by
  intro i j K I K' I' hi hj hsame
  obtain ⟨q, hq, rfl, rfl⟩ := Automaton.getElem?_sets_eq_some_iff.mp hi
  obtain ⟨r, hr, rfl, rfl⟩ := Automaton.getElem?_sets_eq_some_iff.mp hj
  refine h.id_unique hq hr fun core => ?_
  rw [← ItemSet.has_dotted_iff, hsame, ItemSet.has_dotted_iff]

/-- The closure of the kernel of the start state is all that there is at the beginning. -/
theorem sound_start (wf : g.WellFormed) (h : start g limit = .ok draft) :
    Sound g limit draft startState [] := by
  obtain ⟨⟨k, isNew, kernel, arena⟩, hadd, h⟩ := bind_eq_ok_iff.mp h
  obtain ⟨⟨target, next⟩, hstate, h⟩ := bind_eq_ok_iff.mp h
  cases pure_eq_ok_iff.mp h
  obtain ⟨news, hgrowth, hlist, hover, hmem, hnews⟩ :=
    ItemSet.addNew_spec (ItemSet.isOver_empty .empty) (orFault_eq_ok_iff.mp hadd)
  obtain ⟨items, hroom, -, hstates, hknown, hclosed⟩ := addState_spec wf hover hstate
  dsimp only at hgrowth hlist hover hmem hnews hroom hstates hknown hclosed
  -- the set was empty, so the start comes in as the only item
  have hnew : news = [⟨acceptProduction, 0⟩] ∧ k = 0 := by
    rcases hnews with ⟨-, rfl⟩ | ⟨-, rfl, hk⟩
    · rw [hlist] at hmem
      cases hmem
    · exact ⟨rfl, hk⟩
  obtain ⟨rfl, rfl⟩ := hnew
  have hcores : kernel.cores = [⟨acceptProduction, 0⟩] := by
    rw [← ItemSet.map_fst_toList, hlist]
    rfl
  have hsets : draft.automaton.sets = [(kernel, items)] := by
    rw [Automaton.sets, automaton, hstates]
    rfl
  have hgoes (i : StateId) (X : Symbol) (j : StateId) : ¬draft.automaton.Goes i X j := by
    rintro ⟨q, hq, hmem⟩
    rw [automaton, hstates, Array.getElem?_push] at hq
    split at hq
    · cases hq
      cases hmem
    · cases hq
  obtain ⟨hisClosed, hids⟩ := Automaton.isClosed_of_closedUpTo hlist hgrowth hclosed
  constructor
  case knows =>
    rw [hstates, hknown]
    exact Knows.push (q := ⟨kernel, items, #[]⟩) (fun signature i => by simp) (by simp)
  case collection =>
    refine .of_single hsets hgoes hisClosed ?_ fun x => ?_
    · rw [hids, List.range_eq_range']
      rfl
    · rw [ItemSet.Has, hcores]
      simp [Core.dotted, eq_comm]
  case flow =>
    refine .of_single hsets hgoes (fun k t => ?_) (fun l k => ?_) ?_ hclosed
    · rw [hgrowth.looks_iff, hlist]
      simp [Arena.Looks, Arena.empty, Arena.size, and_comm]
    · rw [hgrowth.links_iff]
      simp [Arena.Links, Arena.empty]
    · refine hgrowth.simple fun k item hk => ?_
      simp [Arena.empty] at hk
  case size_le =>
    rw [hsets]
    exact hroom

/-- The state after a symbol is found or added. -/
theorem Sound.goto_cases {mid : Draft} {target : StateId} (wf : g.WellFormed)
    (h : Sound g limit draft id done) (hid : draft.automaton.sets[id]? = some (kernel, items))
    (hgoto : draft.goto g limit items.ids X = .ok (target, mid)) :
    Knows mid.states mid.known ∧ ∃ sources, Sources g X items.toList sources ∧
      ((∃ q, Found draft sources target q mid) ∨
        ∃ kernel items arena, Added g limit draft sources target kernel items arena mid) := by
  refine goto_spec wf h.knows (h.collection.closed hid).isOver (fun i q hq => ?_) hgoto
  exact (h.collection.closed (Automaton.getElem?_sets_of_getElem? hq)).kernel_isOver.nodup

/-- Expanding over a symbol that was not met before is a step. -/
theorem Sound.expandOver (wf : g.WellFormed) (h : Sound g limit draft id done)
    (hlimit : limit ≤ maxStates) (hid : draft.automaton.sets[id]? = some (kernel, items))
    (hX : X ∉ done) (hawaits : items.Awaits g X)
    (hexpand : draft.expandOver g limit id items.ids X = .ok next) :
    Sound g limit next id (done ++ [X]) ∧ next.automaton.sets[id]? = some (kernel, items) := by
  obtain ⟨target, mid, hgoto, -, rfl⟩ := expandOver_eq_ok_iff.mp hexpand
  obtain ⟨hknows, sources, hsources, hcases⟩ := h.goto_cases wf hid hgoto
  have harena : (mid.withTransition id X target).automaton.arena = mid.arena := rfl
  have hsize : (mid.withTransition id X target).automaton.sets.length = mid.states.size := by
    rw [sets_withTransition, Automaton.length_sets, automaton]
  rcases hcases with ⟨q, hfound⟩ | ⟨kernel', items', arena, hadded⟩
  · have hstep := hfound.step wf h.collection hid hsources
    refine ⟨⟨knows_withTransition hknows, h.collection.step hstep hid hX hawaits,
      hfound.flow h.flow h.collection hstep harena hid hsources, ?_⟩, hstep.getElem?_sets hid⟩
    rw [hsize, hfound.states]
    exact Automaton.length_sets draft.automaton ▸ h.size_le
  · have hstep := hadded.step hlimit h.collection hid hsources
    have htarget : (mid.withTransition id X target).automaton.sets[target]? =
        some (kernel', items') := by
      rw [sets_withTransition]
      refine Automaton.getElem?_sets_eq_some_iff.mpr ⟨⟨kernel', items', #[]⟩, ?_, rfl, rfl⟩
      rw [automaton, hadded.states, hadded.target_eq, Array.getElem?_push_size]
    refine ⟨⟨knows_withTransition hknows, h.collection.step hstep hid hX hawaits,
      hadded.flow h.flow h.collection hstep harena hid hsources htarget, ?_⟩,
      hstep.getElem?_sets hid⟩
    rw [hsize, hadded.states, Array.size_push]
    exact hadded.room

/-- The symbols after the markers of a state are met one by one. -/
theorem Sound.expandOver_of_prefix {symbols : List Symbol} (wf : g.WellFormed)
    (h : Sound g limit draft id done) (hlimit : limit ≤ maxStates)
    (hid : draft.automaton.sets[id]? = some (kernel, items))
    (hsymbols : symbols.Nodup ∧ ∀ X, X ∈ symbols ↔ items.Awaits g X)
    (hpre : done ++ [X] <+: symbols)
    (hexpand : draft.expandOver g limit id items.ids X = .ok next) :
    Sound g limit next id (done ++ [X]) ∧ next.automaton.sets[id]? = some (kernel, items) := by
  have hfresh : (done ++ [X]).Nodup := hsymbols.1.sublist hpre.sublist
  have hX : X ∉ done := fun hmem =>
    (List.nodup_append.mp hfresh).2.2 X hmem X (List.mem_singleton.mpr rfl) rfl
  have hawaits : items.Awaits g X :=
    (hsymbols.2 X).mp (hpre.subset (List.mem_append_right _ List.mem_cons_self))
  exact h.expandOver wf hlimit hid hX hawaits hexpand

/-- Expanding a state makes it the turn of the next one. -/
theorem Sound.expand (wf : g.WellFormed) (h : Sound g limit draft id [])
    (hlimit : limit ≤ maxStates) (hexpand : draft.expand g limit id = .ok next) :
    Sound g limit next (id + 1) [] := by
  obtain ⟨ids, hids, hexpand⟩ := bind_eq_ok_iff.mp hexpand
  obtain ⟨symbols, hsymbols, hexpand⟩ := bind_eq_ok_iff.mp hexpand
  rw [orFault_eq_ok_iff] at hids hsymbols
  obtain ⟨q, hq, rfl⟩ := itemsOf_eq_ok_iff.mp hids
  have hid : draft.automaton.sets[id]? = some (q.kernel, q.items) :=
    Automaton.getElem?_sets_of_getElem? hq
  have hspec := Arena.nextSymbols_spec (h.collection.closed hid).isOver hsymbols
  let reached (done : List Symbol) (later : Draft) : Prop :=
    Sound g limit later id done ∧ later.automaton.sets[id]? = some (q.kernel, q.items)
  have hreached : reached symbols next := by
    refine foldlM_prefix_induction (P := reached) hexpand ⟨h, hid⟩ ?_
    rintro done X before after hpre ⟨hsound, hset⟩ hover
    exact hsound.expandOver_of_prefix wf hlimit hset hspec hpre hover
  obtain ⟨hsound, hset⟩ := hreached
  exact { hsound with collection := hsound.collection.next hset hspec.2 }

/-- When no state is left, all states are expanded. -/
theorem Sound.expandFrom (wf : g.WellFormed) (h : Sound g limit draft id [])
    (hlimit : limit ≤ maxStates) (hexpand : draft.expandFrom g limit id = .ok next) :
    ∃ n, Sound g limit next n [] ∧ next.automaton.sets.length ≤ n := by
  fun_induction Draft.expandFrom g limit id draft with
  | case1 => cases hexpand
  | case2 id draft hbounds later hlater ih => exact ih (h.expand wf hlimit hlater) hexpand
  | case3 id draft hbounds =>
    cases hexpand
    refine ⟨id, h, Nat.le_of_not_lt fun hlt => hbounds ⟨?_, ?_⟩⟩
    · exact Nat.lt_of_lt_of_le hlt h.size_le
    · rw [Automaton.length_sets] at hlt
      exact hlt

end Draft

namespace Automaton

/-- Everything that holds of an automaton that was built: its states are the canonical collection
with a kernel each, its items are linked once to those that they pass on to, and they look at what
they receive. -/
structure IsComplete (g : Grammar) (m : Automaton) : Prop where
  collection : Collection g m m.sets.length []
  distinct : m.HasDistinctKernels
  links_iff : ∀ {h k}, m.arena.Links h k ↔ m.Passes g h k
  simple : m.arena.IsSimple
  looks_iff : ∀ {k t}, m.arena.Looks k t ↔ m.Receives g k t

/-- Building ends with a draft all of whose states are expanded, and propagates its lookaheads. -/
theorem exists_sound_of_build (wf : g.WellFormed) {limit : Option Nat} {m : Automaton}
    (h : build g limit = .ok m) : ∃ arena states known n grown,
      Draft.Sound g (effectiveLimit limit) ⟨arena, states, known⟩ n [] ∧ states.size ≤ n ∧
        arena.propagate = .ok (grown, m.arena) ∧ m.states = states := by
  obtain ⟨first, hfirst, h⟩ := bind_eq_ok_iff.mp h
  obtain ⟨⟨arena, states, known⟩, hexpand, h⟩ := bind_eq_ok_iff.mp h
  obtain ⟨⟨grown, arena'⟩, hpropagate, h⟩ := bind_eq_ok_iff.mp h
  cases pure_eq_ok_iff.mp h
  obtain ⟨n, hsound, hn⟩ :=
    (Draft.sound_start wf hfirst).expandFrom wf (Nat.min_le_right _ _) hexpand
  rw [length_sets] at hn
  exact ⟨arena, states, known, n, grown, hsound, hn, orFault_eq_ok_iff.mp hpropagate, rfl⟩

/-- There are no more states than the limit allows. -/
theorem size_le_of_build (wf : g.WellFormed) {limit : Option Nat} {m : Automaton}
    (h : build g limit = .ok m) : m.states.size ≤ effectiveLimit limit := by
  obtain ⟨arena, states, known, n, grown, hsound, -, -, rfl⟩ := exists_sound_of_build wf h
  exact length_sets _ ▸ hsound.size_le

/-- Building makes complete automata: the states are expanded, and the lookaheads propagated. -/
theorem isComplete_of_build (wf : g.WellFormed) {limit : Option Nat} {m : Automaton}
    (h : build g limit = .ok m) : m.IsComplete g := by
  obtain ⟨arena, states, known, n, grown, hsound, hn, hpropagate, hstates⟩ :=
    exists_sound_of_build wf h
  obtain ⟨states', arena'⟩ := m
  subst hstates
  have hgrowth := Arena.growth_propagate hpropagate
  have hc := hsound.collection
  constructor
  case collection =>
    -- the states stay as they are, and so does what depends on them alone
    refine { hc with closed := fun hi => (hc.closed hi).growth hgrowth, ids := ?_, goes_iff := ?_ }
    · have hsize : arena'.size = arena.size := hgrowth.size_eq
      exact hc.ids.trans (congrArg List.range hsize.symm)
    · intro i K I hi X
      have hlt : i < (mk states' arena').sets.length := (List.getElem?_eq_some_iff.mp hi).choose
      have hexpanded : i < n := Nat.lt_of_lt_of_le (length_sets _ ▸ hlt) hn
      refine (hc.goes_iff hi X).trans ?_
      simp only [List.not_mem_nil, and_false, or_false, hlt, hexpanded, true_and]
  case distinct => exact hsound.knows.hasDistinctKernels
  case links_iff =>
    intro h k
    rw [hgrowth.links_iff, or_false]
    refine hsound.flow.links_iff.trans ⟨?_, ?_⟩
    · exact fun hpass => hpass.mono (fun hi => hi) fun hgoes => hgoes
    · exact fun hpass => hpass.mono (fun hi => hi) fun hgoes => hgoes
  case simple => exact hgrowth.simple hsound.flow.simple
  case looks_iff =>
    intro k t
    refine (hsound.flow.looks_propagate_iff hpropagate).trans ⟨?_, ?_⟩
    · exact fun ht => ht.mono (fun hi => hi) fun hgoes => hgoes
    · exact fun ht => ht.mono (fun hi => hi) fun hgoes => hgoes

end Automaton

/-- A test of an example: its grammar is defined and its automaton built, and they pass. -/
theorem exists_build_of_check (steps : List Definition.Step) (check : Grammar → Automaton → Bool)
    (h : (match Grammar.define steps with
      | .error _ => false
      | .ok g => match Automaton.build g none with
        | .error _ => false
        | .ok m => check g m) = true) :
    ∃ g m, Grammar.define steps = .ok g ∧ Automaton.build g none = .ok m ∧ check g m = true := by
  split at h
  · cases h
  · next g hg =>
    split at h
    · cases h
    · next m hm => exact ⟨g, m, hg, hm, h⟩

end Lalr
