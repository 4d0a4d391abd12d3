import Lalr.Grammar.Examples
import Lalr.Proofs.Automaton.Ownership
import Lalr.Proofs.Automaton.Stage

/-!
# Markers count in 16 bits

A marker counts the symbols before it in 16 bits, and nothing limits the lengths of
productions or checks a marker before it moves. It is the limit on the number of
states that makes this right.

- `Automaton.Passed`: what building passes, from the start state to the automaton.
- `Automaton.PathsCoverMarkers`: a marker moves by one symbol with each transition,
  so no path to a state is shorter than what stands before one of its markers. Some
  path to a state passes only states before it (`Collection.exists_path`).
- `Draft.Advances`: a marker is moved on the way to the state after a symbol.
- `IsAt.expandOver_eq_error`: a marker that has come to the greatest count belongs
  to the last state that 16 bits can tell apart. Moved once more, it would start
  anew, which no known kernel has; so a further state would be needed, and building
  fails.
- `markersFit_of_isDefined`: no marker starts anew in a run that succeeds.
-/

namespace Lalr

open Grammar

variable {g : Grammar} {X : Symbol} {core : Core}

namespace Automaton

/-- A path of so many transitions leads from the start state to a state. -/
inductive Path (m : Automaton) : Nat → StateId → Prop where
  | nil : Path m 0 startState
  | snoc {n : Nat} {i j : StateId} {X : Symbol} (h : Path m n i) (hgoes : m.Goes i X j) :
      Path m (n + 1) j

/-- Every path to a state has a transition for each symbol before a marker of the state. -/
def PathsCoverMarkers (m : Automaton) : Prop :=
  ∀ (n : Nat) (i : StateId) q (k : ItemId) item, m.Path n i → m.states[i]? = some q →
    k ∈ q.items.ids → m.arena[k]? = some item → item.core.dot.toNat ≤ n

/-- What building passes: the start state alone, the stages, what there is when the state after a
symbol is found and the transition to it is not recorded yet, and the automaton. Between these
points neither a state nor a transition is recorded. -/
inductive Passed (g : Grammar) (limit : Option Nat) : Automaton → Prop where
  | start {draft : Draft} (h : Draft.start g (effectiveLimit limit) = .ok draft) :
      Passed g limit draft.automaton
  | stage {s : Stage} (h : s.Reached g (effectiveLimit limit)) : Passed g limit s.draft.automaton
  | goto {s : Stage} {X : Symbol} {todo : List Symbol} {target : StateId} {mid : Draft}
      (h : s.Reached g (effectiveLimit limit)) (htodo : s.todo = X :: todo)
      (hgoto : s.draft.goto g (effectiveLimit limit) s.ids X = .ok (target, mid)) :
      Passed g limit mid.automaton
  | built {m : Automaton} (h : build g limit = .ok m) : Passed g limit m

/-! ## Paths -/

theorem Path.mono {m m' : Automaton} {n : Nat} {i : StateId} (h : m.Path n i)
    (hgoes : ∀ i X j, m.Goes i X j → m'.Goes i X j) : m'.Path n i := by
  induction h with
  | nil => exact .nil
  | snoc _ hlast ih => exact ih.snoc (hgoes _ _ _ hlast)

end Automaton

namespace Collection

variable {m : Automaton} {id i : StateId} {done : List Symbol} {kernel items : ItemSet} {n : Nat}

/-- A marker moves by one symbol with each transition. -/
theorem dot_le_of_path {x : Dotted} (h : Collection g m id done) (hpath : m.Path n i)
    (hi : m.sets[i]? = some (kernel, items)) (hx : items.Has x) : x.dot ≤ n := by
  induction hpath generalizing kernel items x with
  | nil =>
    obtain ⟨K, I, hstart, hkernel⟩ := h.start
    cases hi.symm.trans hstart
    rcases (((h.closed hi).closure_iff x).mp hx).mem_or_dot_eq_zero with hmem | hzero
    · rw [(hkernel x).mp hmem]
    · exact Nat.le_of_eq hzero
  | snoc _ hgoes ih =>
    obtain ⟨K, I, K', I', hi', hj, hadvanced⟩ := h.advanced hgoes
    cases hi.symm.trans hj
    rcases (((h.closed hi).closure_iff x).mp hx).mem_or_dot_eq_zero with hmem | hzero
    · obtain ⟨y, β, hy, -, rfl⟩ := (hadvanced x).mp hmem
      exact Nat.succ_le_succ (ih hi' hy)
    · exact hzero ▸ Nat.zero_le _

/-- The item of a number in a state is in the state under its core. -/
theorem has_of_mem_ids {q : State} {k : ItemId} {item : Item} (h : Collection g m id done)
    (hq : m.states[i]? = some q) (hk : k ∈ q.items.ids) (hitem : m.arena[k]? = some item) :
    q.items.Has item.core.dotted := by
  obtain ⟨c, hmem⟩ := ItemSet.mem_ids_iff.mp hk
  obtain ⟨item', hitem', rfl⟩ :=
    (h.closed (Automaton.getElem?_sets_of_getElem? hq)).isOver.exists_item hmem
  cases hitem.symm.trans hitem'
  exact ItemSet.has_of_mem hmem

theorem pathsCoverMarkers (h : Collection g m id done) : m.PathsCoverMarkers :=
  fun _ _ _ _ _ hpath hq hk hitem =>
    h.dot_le_of_path hpath (Automaton.getElem?_sets_of_getElem? hq) (h.has_of_mem_ids hq hk hitem)

/-- Some path leads to every state, through states before it. -/
theorem exists_path (h : Collection g m id done) (hi : i < m.sets.length) :
    ∃ n ≤ i, m.Path n i := by
  refine h.induct hi ⟨0, Nat.le_refl 0, .nil⟩ ?_
  rintro i j X hless hgoes ⟨n, hn, hpath⟩
  exact ⟨n + 1, Nat.lt_of_le_of_lt hn hless, hpath.snoc hgoes⟩

end Collection

namespace Draft

variable {draft mid : Draft} {id target : StateId}

/-- Markers that are covered when a transition has been recorded were covered before: there were no
other paths. -/
theorem pathsCoverMarkers_of_withTransition (hid : id < mid.automaton.sets.length)
    (h : (mid.withTransition id X target).automaton.PathsCoverMarkers) :
    mid.automaton.PathsCoverMarkers := by
  intro n i q k item hpath hq hk hitem
  have hpath' : (mid.withTransition id X target).automaton.Path n i :=
    hpath.mono fun i Y j hgoes => (goes_withTransition_iff hid).mpr (.inl hgoes)
  obtain ⟨q', hq', -, hitems⟩ := Automaton.getElem?_sets_eq_some_iff.mp
    (sets_withTransition.symm ▸ Automaton.getElem?_sets_of_getElem? hq :
      (mid.withTransition id X target).automaton.sets[i]? = _)
  exact h n i q' k item hpath' hq' (hitems ▸ hk) hitem

/-! ## Moving markers -/

/-- On the way to the state after the symbol, when the items before this one have been tried, the
marker of an item with the given core is moved: the symbol stands after it. -/
def Advances (g : Grammar) (draft : Draft) (ids : List ItemId) (X : Symbol) (core : Core) : Prop :=
  ∃ before source after shifted item, ids = before ++ source :: after ∧
    before.foldlM (Shifted.move g X) ⟨.empty, draft.arena, #[]⟩ = .ok shifted ∧
    shifted.arena.get source = .ok item ∧ item.core.next? g = .ok (some X) ∧ item.core = core

end Draft

/-- While the members of a set are tried, the next one keeps its core. -/
theorem Shifted.getElem?_cores_of_prefix {a : Arena} {s : ItemSet} {before after} {source : ItemId}
    {shifted : Shifted} (hs : s.IsOver a) (hlist : s.toList = before ++ (core, source) :: after)
    (h : (before.map Prod.snd).foldlM (move g X) ⟨.empty, a, #[]⟩ = .ok shifted) :
    shifted.arena.cores[source]? = some core := by
  rw [List.foldlM_map] at h
  obtain ⟨sources, -, hfrom⟩ : Tried g X a before shifted := by
    refine foldlM_prefix_induction (P := Tried g X a) h tried_nil ?_
    rintro done ⟨c, k⟩ earlier later hpre htried hmove
    exact htried.step hs (hpre.trans ⟨_, hlist.symm⟩) hmove
  exact hfrom.growth.getElem?_cores (hs.stored (hlist ▸ by simp))

/-- A marker that is moved is one of the set, before the symbol. -/
theorem Draft.Advances.exists_mem {draft : Draft} {s : ItemSet} (hs : s.IsOver draft.arena)
    (h : draft.Advances g s.ids X core) :
    ∃ k, (core, k) ∈ s.toList ∧ ∃ β, g.After core.dotted X β := by
  obtain ⟨before, source, after, shifted, item, hids, hfold, hitem, hnext, rfl⟩ := h
  rw [← ItemSet.map_snd_toList, List.map_eq_append_iff] at hids
  obtain ⟨before, later, hlist, rfl, hlater⟩ := hids
  obtain ⟨⟨c, k⟩, after, rfl, rfl, -⟩ := List.map_eq_cons_iff.mp hlater
  obtain ⟨item', hitem', rfl⟩ := Arena.getElem?_cores_eq_some_iff.mp
    (Shifted.getElem?_cores_of_prefix hs hlist hfold)
  cases hitem'.symm.trans (Arena.get_eq_ok_iff.mp hitem)
  exact ⟨k, hlist ▸ by simp, Core.next?_eq_some_iff.mp hnext⟩

namespace Stage.IsAt

variable {s : Stage} {limit : Nat} {done : List Symbol} {kernel items : ItemSet}

/-- A marker with the greatest count is one of the last state that there can be. -/
theorem size_eq_of_advances (hat : IsAt g limit s done kernel items) (hlimit : limit ≤ maxStates)
    (h : s.draft.Advances g s.ids X core) (hdot : core.dot = 65535) :
    s.draft.states.size = maxStates ∧ limit = maxStates := by
  obtain ⟨k, hmem, -⟩ :=
    Draft.Advances.exists_mem (hat.sound.collection.closed hat.sets).isOver (hat.ids ▸ h)
  have hlt : s.id < s.draft.automaton.sets.length := (List.getElem?_eq_some_iff.mp hat.sets).choose
  -- no path is shorter than the marker, and one is no longer than there are states before this one
  obtain ⟨n, hn, hpath⟩ := hat.sound.collection.exists_path hlt
  have hmarker : 65535 ≤ n := by
    have hle := hat.sound.collection.dot_le_of_path hpath hat.sets (ItemSet.has_of_mem hmem)
    rwa [Core.dotted, hdot] at hle
  have hsize : s.draft.states.size ≤ limit :=
    Automaton.length_sets s.draft.automaton ▸ hat.sound.size_le
  have hlarge : maxStates ≤ s.draft.states.size :=
    calc 65535
      _ ≤ n := hmarker
      _ ≤ s.id := hn
      _ < s.draft.states.size := Automaton.length_sets s.draft.automaton ▸ hlt
  exact ⟨Nat.le_antisymm (Nat.le_trans hsize hlimit) hlarge,
    Nat.le_antisymm hlimit (Nat.le_trans hlarge hsize)⟩

/-- A state whose kernel has a marker that started anew is neither known nor added. -/
theorem expandOver_eq_error (wf : g.WellFormed) (hat : IsAt g limit s done kernel items)
    (hlimit : limit ≤ maxStates) (hX : items.Awaits g X) (h : s.draft.Advances g s.ids X core)
    (hdot : core.dot = 65535) :
    s.draft.expandOver g limit s.id s.ids X = .error (.tooManyStates maxStates) := by
  obtain ⟨hfull, rfl⟩ := hat.size_eq_of_advances hlimit h hdot
  have hcollection := hat.sound.collection
  rw [← hat.ids] at h ⊢
  obtain ⟨k, hmem, hafter⟩ := h.exists_mem (hcollection.closed hat.sets).isOver
  rcases (hat.sound.expandOver_failsOnly wf hat.sets hX).exists_eq with
    ⟨next, hok⟩ | ⟨e, he, rfl, -⟩
  · obtain ⟨⟨target, mid⟩, hgoto, -⟩ := bind_eq_ok_iff.mp hok
    obtain ⟨-, sources, hsources, hcases⟩ := hat.sound.goto_cases wf hat.sets hgoto
    rcases hcases with ⟨q, hfound⟩ | ⟨kernel', items', arena, hadded⟩
    · have hlt := hcollection.sources_dot_lt wf hsources
        (Automaton.getElem?_sets_of_getElem? hfound.known) hfound.cores
        ((hsources.mem_iff core k).mpr ⟨hmem, hafter⟩)
      rw [hdot] at hlt
      exact absurd hlt (by decide)
    · exact absurd hadded.room (hfull ▸ Nat.lt_irrefl _)
  · exact he

end Stage.IsAt

namespace Stage.Reached

variable {s : Stage} {limit : Option Nat} {todo : List Symbol}

/-- The symbol over which a state is expanded next stands after one of its markers. -/
theorem exists_isAt_awaits (wf : g.WellFormed) (h : s.Reached g (effectiveLimit limit))
    (htodo : s.todo = X :: todo) : ∃ done kernel items,
      IsAt g (effectiveLimit limit) s done kernel items ∧ items.Awaits g X := by
  obtain ⟨done, kernel, items, hat⟩ := h.exists_isAt wf (Nat.min_le_right _ _)
  exact ⟨done, kernel, items, hat, (hat.mem_iff X).mp (by simp [htodo])⟩

/-- Building fails when a marker with the greatest count is moved. -/
theorem build_eq_error (wf : g.WellFormed) (h : s.Reached g (effectiveLimit limit))
    (htodo : s.todo = X :: todo) (hadvances : s.draft.Advances g s.ids X core)
    (hdot : core.dot = 65535) :
    s.draft.states.size = maxStates ∧
      Automaton.build g limit = .error (.tooManyStates maxStates) := by
  obtain ⟨done, kernel, items, hat, hX⟩ := h.exists_isAt_awaits wf htodo
  have hlimit : effectiveLimit limit ≤ maxStates := Nat.min_le_right _ _
  refine ⟨(hat.size_eq_of_advances hlimit hadvances hdot).1, ?_⟩
  rw [h.build_eq, rest, htodo, List.foldlM_cons,
    hat.expandOver_eq_error wf hlimit hX hadvances hdot]
  rfl

end Stage.Reached

namespace Automaton

variable {limit : Option Nat} {m : Automaton}

theorem Passed.pathsCoverMarkers (wf : g.WellFormed) (h : Passed g limit m) :
    m.PathsCoverMarkers := by
  have hlimit : effectiveLimit limit ≤ maxStates := Nat.min_le_right _ _
  cases h with
  | start hstart => exact (Draft.sound_start wf hstart).collection.pathsCoverMarkers
  | stage h =>
    obtain ⟨done, kernel, items, hat⟩ := h.exists_isAt wf hlimit
    exact hat.sound.collection.pathsCoverMarkers
  | @goto s X todo target mid h htodo hgoto =>
    -- one step later the draft is one of a stage
    obtain ⟨draft, id, ids, symbols⟩ := s
    obtain rfl : symbols = X :: todo := htodo
    obtain ⟨done, kernel, items, hat⟩ := h.exists_isAt wf hlimit
    obtain rfl : items.ids = ids := hat.ids
    have hexpand : draft.expandOver g (effectiveLimit limit) id items.ids X =
        .ok (mid.withTransition id X target) := hat.sound.expandOver_eq_ok wf hat.sets hgoto
    obtain ⟨done, kernel, items, hat⟩ := (h.across hexpand).exists_isAt wf hlimit
    refine Draft.pathsCoverMarkers_of_withTransition ?_ hat.sound.collection.pathsCoverMarkers
    rw [← Draft.sets_withTransition]
    exact (List.getElem?_eq_some_iff.mp hat.sets).choose
  | built h => exact (isComplete_of_build wf h).collection.pathsCoverMarkers

/-- Sixteen bits are enough for the markers of a run.
1. At every point of the run, every path to a state has a transition for each symbol before a marker
   of the state.
2. A marker with the greatest count is moved only when there are as many states as 16 bits can tell
   apart, and then the run fails.
3. If the run succeeds, the count of a marker that is moved goes up by one, and no marker of the
   arena stands behind the end of its production. -/
structure MarkersFit (g : Grammar) (limit : Option Nat) : Prop where
  paths : ∀ m, Passed g limit m → m.PathsCoverMarkers
  overflow : ∀ (s : Stage) X todo core, s.Reached g (effectiveLimit limit) → s.todo = X :: todo →
    s.draft.Advances g s.ids X core → core.dot = 65535 → s.draft.states.size = maxStates ∧
      build g limit = .error (.tooManyStates maxStates)
  advance : ∀ m, build g limit = .ok m → ∀ (s : Stage) X todo core,
    s.Reached g (effectiveLimit limit) → s.todo = X :: todo → s.draft.Advances g s.ids X core →
      core.advance.dot.toNat = core.dot.toNat + 1
  dot_le : ∀ m, build g limit = .ok m → ∀ (k : ItemId) item, m.arena[k]? = some item →
    ∃ production, g.productions[item.core.production]? = some production ∧
      item.core.dot.toNat ≤ production.right.size

/-- No marker stands behind the end of its production. -/
theorem IsComplete.exists_production {k : ItemId} {item : Item} (wf : g.WellFormed)
    (hm : m.IsComplete g) (hitem : m.arena[k]? = some item) :
    ∃ production, g.productions[item.core.production]? = some production ∧
      item.core.dot.toNat ≤ production.right.size := by
  obtain ⟨i, ⟨q, hq, hk⟩, -⟩ := hm.existsUnique_state (Arena.lt_size_of_getElem? hitem)
  have hhas := hm.collection.has_of_mem_ids hq hk hitem
  obtain ⟨n, right, ⟨production, hproduction, -, rfl⟩, hle⟩ :=
    hm.collection.expands_of_has wf (getElem?_sets_of_getElem? hq) hhas
  exact ⟨production, hproduction, hle⟩

end Automaton

/-- **No marker starts anew in a run that succeeds**, for every defined grammar, however long its
productions are, and every limit. -/
theorem markersFit_of_isDefined (hg : g.IsDefined) (limit : Option Nat) :
    Automaton.MarkersFit g limit := by
  have wf := hg.wellFormed
  constructor
  case paths => exact fun m hpassed => hpassed.pathsCoverMarkers wf
  case overflow =>
    intro s X todo core hreached htodo hadvances hdot
    exact hreached.build_eq_error wf htodo hadvances hdot
  case advance =>
    intro m hbuild s X todo core hreached htodo hadvances
    have hlt : core.dot.toNat < 65535 := by
      refine Nat.lt_of_le_of_ne (Nat.le_of_lt_succ core.dot.toNat_lt) fun heq => ?_
      have hdot : core.dot = 65535 := UInt16.toNat_inj.mp heq
      cases hbuild.symm.trans (hreached.build_eq_error wf htodo hadvances hdot).2
    exact congrArg Dotted.dot (Core.dotted_advance hlt)
  case dot_le =>
    intro m hbuild k item hitem
    exact (Automaton.isComplete_of_build wf hbuild).exists_production wf hitem

/-- Of the assignments through pointers, state 9 has a whole assignment before a marker: no path to
it has fewer than three transitions, and there is one. -/
theorem markersFit_pointer : ∃ g m, Grammar.define Examples.pointer = .ok g ∧
    Automaton.build g none = .ok m ∧ Automaton.MarkersFit g none ∧
    (∃ n, m.Path n 9) ∧ ∀ n, m.Path n 9 → 3 ≤ n := by
  obtain ⟨g, m, hdefine, hbuild, hcheck⟩ := exists_build_of_check Examples.pointer
    (fun _ m => (m.states[9]?.bind fun q => q.items.ids.head?.bind fun k =>
      m.arena[k]?.map Item.core) == some ⟨1, 3⟩) (by decide +kernel)
  have hg := IsDefined.of_define hdefine
  have hfit := markersFit_of_isDefined hg none
  have hcollection := (Automaton.isComplete_of_build hg.wellFormed hbuild).collection
  obtain ⟨q, hq, hcheck⟩ := Option.bind_eq_some_iff.mp (eq_of_beq hcheck)
  obtain ⟨k, hk, hcheck⟩ := Option.bind_eq_some_iff.mp hcheck
  obtain ⟨item, hitem, hcore⟩ := Option.map_eq_some_iff.mp hcheck
  refine ⟨g, m, hdefine, hbuild, hfit, ?_, fun n hpath => ?_⟩
  · obtain ⟨n, -, hpath⟩ := hcollection.exists_path
      (List.getElem?_eq_some_iff.mp (Automaton.getElem?_sets_of_getElem? hq)).choose
    exact ⟨n, hpath⟩
  · have hle := hfit.paths m (.built hbuild) n 9 q k item hpath hq (List.mem_of_head? hk) hitem
    rwa [hcore] at hle

end Lalr
