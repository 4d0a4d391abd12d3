import Lalr.Proofs.Automaton.Goto

/-!
# The collection of states

What holds of the states of an automaton while it is built, as far as it does not
depend on lookaheads.

- `Automaton.sets`, `Automaton.Goes`: the two views of the states, their item
  sets and the transitions between them.
- `Automaton.Step`: one transition is recorded, perhaps to a new state at the
  end. This is all that ever happens to the states.
- `Collection`: the part of the canonical collection that has been built when the
  states before one are expanded, and that one over some symbols. A step over one
  more symbol keeps it (`Collection.step`).
- `Collection.induct`: induction on the states along the transitions that lead to
  them.

Markers count in 16 bits, as states do. A marker never stands behind more symbols
than there are states before its own (`dot_le`), so no marker starts anew: a new
state cannot have the last number, and a known one cannot have a kernel like
that (`Collection.sources_dot_lt`).
-/

namespace Lalr

open Grammar

variable {g : Grammar} {X Y : Symbol}

namespace Automaton

variable {m m' : Automaton} {id i j target : StateId} {kernel items : ItemSet}

/-- The kernels of the states and their closures, in order. -/
def sets (m : Automaton) : List (ItemSet × ItemSet) :=
  m.states.toList.map fun q => (q.kernel, q.items)

/-- A transition from one state to another is recorded. -/
def Goes (m : Automaton) (i : StateId) (X : Symbol) (j : StateId) : Prop :=
  ∃ q, m.states[i]? = some q ∧ (X, j) ∈ q.transitions.toList

/-- No state has two transitions for one symbol. -/
def IsDeterministic (m : Automaton) : Prop :=
  ∀ (i : StateId) q, m.states[i]? = some q → (q.transitions.toList.map Prod.fst).Nodup

/-- No two states have the same kernel. -/
def HasDistinctKernels (m : Automaton) : Prop :=
  ∀ ⦃i j : StateId⦄ ⦃kernel items kernel' items'⦄, m.sets[i]? = some (kernel, items) →
    m.sets[j]? = some (kernel', items') → (∀ x, kernel.Has x ↔ kernel'.Has x) → i = j

@[simp] theorem length_sets (m : Automaton) : m.sets.length = m.states.size := by simp [sets]

theorem getElem?_sets (m : Automaton) (i : StateId) :
    m.sets[i]? = m.states[i]?.map fun q => (q.kernel, q.items) := by
  rw [sets, List.getElem?_map, Array.getElem?_toList]

theorem getElem?_sets_eq_some_iff :
    m.sets[i]? = some (kernel, items) ↔
      ∃ q, m.states[i]? = some q ∧ q.kernel = kernel ∧ q.items = items := by
  simp [getElem?_sets, Option.map_eq_some_iff]

theorem getElem?_sets_of_getElem? {q : State} (hq : m.states[i]? = some q) :
    m.sets[i]? = some (q.kernel, q.items) :=
  getElem?_sets_eq_some_iff.mpr ⟨q, hq, rfl, rfl⟩

theorem Goes.lt_length (h : m.Goes i X j) : i < m.sets.length := by
  obtain ⟨q, hq, -⟩ := h
  rw [length_sets]
  exact (Array.getElem?_eq_some_iff.mp hq).choose

/-- Transitions are what a step follows. -/
theorem IsDeterministic.step?_eq_some_iff (h : m.IsDeterministic) :
    m.step? i X = some j ↔ m.Goes i X j := by
  rw [step?, Option.bind_eq_some_iff]
  refine exists_congr fun q => and_congr_right fun hq => ?_
  have hnodup := h i q hq
  rw [State.transition?, ← Array.find?_toList]
  generalize q.transitions.toList = transitions at hnodup ⊢
  induction transitions with
  | nil => simp
  | cons transition transitions ih =>
    obtain ⟨Y, k⟩ := transition
    rw [List.map_cons, List.nodup_cons] at hnodup
    by_cases hY : Y = X
    · subst hY
      have habsent : (Y, j) ∉ transitions := fun hmem => hnodup.1 (List.mem_map.mpr ⟨_, hmem, rfl⟩)
      simp [habsent, eq_comm]
    · rw [List.find?_cons_of_neg (by simpa using hY)]
      exact (ih hnodup.2).trans (by simp [Ne.symm hY])

/-! ## Steps -/

/-- The sets of a state: the second one has one item of the arena for each core and is the closure
of the first, whose items it has in front of all others. -/
structure IsClosed (g : Grammar) (a : Arena) (kernel items : ItemSet) : Prop where
  isOver : items.IsOver a
  kernel_first : kernel.toList <+: items.toList
  closure_iff : ∀ x, items.Has x ↔ g.Closure kernel.Has x

theorem IsClosed.growth {a b : Arena} {news : List Core} {gained : ItemId → TerminalId → Prop}
    {linked : ItemId → ItemId → Prop} (h : IsClosed g a kernel items)
    (hg : a.Growth b news gained linked) : IsClosed g b kernel items :=
  ⟨h.isOver.growth hg, h.kernel_first, h.closure_iff⟩

theorem IsClosed.kernel_isOver {a : Arena} (h : IsClosed g a kernel items) : kernel.IsOver a :=
  ⟨h.isOver.nodup.sublist (h.kernel_first.sublist.map Prod.fst),
    fun hmem => h.isOver.stored (h.kernel_first.subset hmem)⟩

/-- The closure of a kernel of new items is closed, and has all new items. -/
theorem isClosed_of_closedUpTo {a b c : Arena} {cores : List Core}
    {gained : ItemId → TerminalId → Prop} {linked : ItemId → ItemId → Prop}
    (hkernel : kernel.toList = cores.zipIdx a.size)
    (hgrowth : a.Growth b cores gained linked)
    (h : ClosedUpTo g kernel b items c fun _ => False) :
    IsClosed g c kernel items ∧ items.ids = List.range' a.size (c.size - a.size) := by
  obtain ⟨news, _, _, hnews, hitems⟩ := h.growth
  have hsize : c.size = a.size + (cores.length + news.length) := by
    rw [hnews.size_eq, hgrowth.size_eq, Nat.add_assoc]
  refine ⟨⟨h.isOver, ⟨_, hitems.symm⟩, fun x => h.has_iff⟩, ?_⟩
  · have hzip : items.toList = (cores ++ news).zipIdx a.size := by
      rw [hitems, hkernel, List.zipIdx_append, hgrowth.size_eq]
    rw [← ItemSet.map_snd_toList, hzip, List.zipIdx_map_snd, List.length_append, hsize,
      Nat.add_sub_cancel_left]

/-- A transition from state `id` over `X` is recorded, and the state `target` to which it leads has
come to be there if it was not. A new state has all new items of the arena; without one there are
none. The transition is the only one for its symbol if there was none. -/
structure Step (g : Grammar) (m m' : Automaton) (id : StateId) (X : Symbol) (target : StateId) :
    Prop where
  sets : m'.sets = m.sets ∨ ∃ kernel items, m'.sets = m.sets ++ [(kernel, items)] ∧
    target = m.sets.length ∧ IsClosed g m'.arena kernel items ∧
    items.ids = List.range' m.arena.size (m'.arena.size - m.arena.size)
  advanced : ∀ {kernel items}, m.sets[id]? = some (kernel, items) →
    ∃ kernel' items', m'.sets[target]? = some (kernel', items') ∧
      ∀ y, kernel'.Has y ↔ g.Advanced X items.Has y
  goes_iff : ∀ i Y j, m'.Goes i Y j ↔ m.Goes i Y j ∨ i = id ∧ Y = X ∧ j = target
  deterministic : m.IsDeterministic → (¬∃ j, m.Goes id X j) → m'.IsDeterministic
  growth : ∃ news gained linked, m.arena.Growth m'.arena news gained linked ∧
    (m'.sets = m.sets → news = [])

theorem Step.getElem?_sets (h : Step g m m' id X target) (hi : m.sets[i]? = some (kernel, items)) :
    m'.sets[i]? = some (kernel, items) := by
  rcases h.sets with heq | ⟨kernel', items', heq, -⟩
  · rw [heq, hi]
  · rw [heq, List.getElem?_append_left (List.getElem?_eq_some_iff.mp hi).choose, hi]

/-- A state is an old one or the target. -/
theorem Step.of_getElem?_sets (h : Step g m m' id X target)
    (hi : m'.sets[i]? = some (kernel, items)) :
    m.sets[i]? = some (kernel, items) ∨ i = m.sets.length ∧ i = target ∧
      IsClosed g m'.arena kernel items := by
  rcases h.sets with heq | ⟨kernel', items', heq, htarget, hclosed, -⟩
  · exact .inl (heq ▸ hi)
  · rw [heq, List.getElem?_append] at hi
    split at hi
    · exact .inl hi
    · next hlt =>
      rw [List.getElem?_singleton] at hi
      split at hi
      · next hsub =>
        cases hi
        have hlast : i = m.sets.length :=
          Nat.le_antisymm (Nat.sub_eq_zero_iff_le.mp hsub) (Nat.le_of_not_lt hlt)
        exact .inr ⟨hlast, hlast.trans htarget.symm, hclosed⟩
      · cases hi

end Automaton

/-! ## The collection -/

/-- The part of the canonical collection that is there when all states before `id` are expanded, and
state `id` over the symbols `done`. The states have all items of the arena, one after the other.
Every state but the first was found from one before it, so no more symbols stand before a marker
than there are states before its own. -/
structure Collection (g : Grammar) (m : Automaton) (id : StateId) (done : List Symbol) : Prop where
  closed : ∀ {i : StateId} {kernel items}, m.sets[i]? = some (kernel, items) →
    Automaton.IsClosed g m.arena kernel items
  ids : (m.sets.flatMap fun s => s.2.ids) = List.range m.arena.size
  start : ∃ kernel items, m.sets[startState]? = some (kernel, items) ∧
    ∀ x, kernel.Has x ↔ x = ⟨acceptProduction, 0⟩
  incoming : ∀ {j}, 0 < j → j < m.sets.length → ∃ i X, i < j ∧ m.Goes i X j
  advanced : ∀ {i X j}, m.Goes i X j → ∃ kernel items kernel' items',
    m.sets[i]? = some (kernel, items) ∧ m.sets[j]? = some (kernel', items') ∧
      ∀ y, kernel'.Has y ↔ g.Advanced X items.Has y
  goes_iff : ∀ {i : StateId} {kernel items}, m.sets[i]? = some (kernel, items) → ∀ X,
    (∃ j, m.Goes i X j) ↔ i < id ∧ items.Awaits g X ∨ i = id ∧ X ∈ done
  awaits : ∀ {i : StateId} {kernel items X j}, m.sets[i]? = some (kernel, items) →
    m.Goes i X j → items.Awaits g X
  deterministic : m.IsDeterministic
  dot_le : ∀ {i : StateId} {kernel items x}, m.sets[i]? = some (kernel, items) → items.Has x →
    x.dot ≤ i

namespace Collection

variable {m m' : Automaton} {id i j target : StateId} {done : List Symbol}
variable {kernel items kernel' items' : ItemSet} {x : Dotted}

/-- The start state alone is a part of the collection. -/
theorem of_single (hsets : m.sets = [(kernel, items)]) (hgoes : ∀ i X j, ¬m.Goes i X j)
    (hclosed : Automaton.IsClosed g m.arena kernel items)
    (hids : items.ids = List.range m.arena.size)
    (hkernel : ∀ x, kernel.Has x ↔ x = ⟨acceptProduction, 0⟩) : Collection g m startState [] := by
  have honly {i : StateId} {s : ItemSet × ItemSet} (hi : m.sets[i]? = some s) :
      i = startState ∧ s = (kernel, items) := by
    rw [hsets, List.getElem?_singleton] at hi
    split at hi
    · next hzero => exact ⟨hzero, (Option.some.inj hi).symm⟩
    · cases hi
  have hstart : m.sets[startState]? = some (kernel, items) := by
    rw [hsets]
    rfl
  constructor
  case closed =>
    intro i K I hi
    cases (honly hi).2
    exact hclosed
  case ids => rw [hsets, List.flatMap_singleton, hids]
  case start => exact ⟨kernel, items, hstart, hkernel⟩
  case incoming =>
    intro j hpos hj
    rw [hsets, List.length_singleton] at hj
    omega
  case advanced =>
    intro i X j h
    exact absurd h (hgoes i X j)
  case goes_iff =>
    intro i K I hi X
    constructor
    · rintro ⟨j, hj⟩
      exact absurd hj (hgoes i X j)
    · rintro (⟨hlt, -⟩ | ⟨-, hX⟩)
      · exact absurd hlt (Nat.not_lt_zero i)
      · cases hX
  case awaits =>
    intro i K I X j hi hX
    exact absurd hX (hgoes i X j)
  case deterministic =>
    intro i q hq
    have hnil : q.transitions.toList = [] :=
      List.eq_nil_iff_forall_not_mem.mpr fun ⟨X, j⟩ hmem => hgoes i X j ⟨q, hq, hmem⟩
    rw [hnil]
    exact .nil
  case dot_le =>
    intro i K I x hi hx
    cases (honly hi).2
    rcases ((hclosed.closure_iff x).mp hx).mem_or_dot_eq_zero with hmem | hzero
    · rw [(hkernel x).mp hmem]
      exact Nat.zero_le i
    · exact hzero ▸ Nat.zero_le i

/-- What holds of the start state, and of a state when it holds of one before it from which a
transition leads to it, holds of all states. -/
@[elab_as_elim]
theorem induct {P : StateId → Prop} (h : Collection g m id done) (hi : i < m.sets.length)
    (start : P startState) (goes : ∀ {i j X}, i < j → m.Goes i X j → P i → P j) : P i := by
  induction i using Nat.strongRecOn with
  | ind i ih =>
    by_cases hpos : 0 < i
    · obtain ⟨i', X, hless, hgoes⟩ := h.incoming hpos hi
      exact goes hless hgoes (ih i' hless (Nat.lt_trans hless hi))
    · obtain rfl : i = startState := Nat.eq_zero_of_not_pos hpos
      exact start

/-- Except in the start state, some symbol stands before each marker of a kernel. -/
theorem kernel_dot_pos (h : Collection g m id done) (hj : m.sets[j]? = some (kernel, items))
    (hpos : 0 < j) (hx : kernel.Has x) : 0 < x.dot := by
  obtain ⟨i, X, -, hgoes⟩ := h.incoming hpos (List.getElem?_eq_some_iff.mp hj).choose
  obtain ⟨K, I, K', I', -, hj', hadvanced⟩ := h.advanced hgoes
  cases hj.symm.trans hj'
  obtain ⟨y, β, -, -, rfl⟩ := (hadvanced x).mp hx
  exact Nat.succ_pos y.dot

/-- The kernel of a state has its items with a symbol before the marker, and the start. -/
theorem kernel_has_iff (wf : g.WellFormed) (h : Collection g m id done)
    (hj : m.sets[j]? = some (kernel, items)) :
    kernel.Has x ↔ items.Has x ∧ (0 < x.dot ∨ x.production = acceptProduction) := by
  rw [(h.closed hj).closure_iff]
  constructor
  · intro hx
    refine ⟨.base hx, ?_⟩
    by_cases hpos : 0 < j
    · exact .inl (h.kernel_dot_pos hj hpos hx)
    · obtain ⟨K, I, hstart, hK⟩ := h.start
      obtain rfl : j = startState := Nat.eq_zero_of_not_pos hpos
      cases hj.symm.trans hstart
      rw [(hK x).mp hx]
      exact .inr rfl
  · exact fun ⟨hx, hmem⟩ => hx.mem_kernel wf hmem

/-- After a step the states have all items of the arena: a new state has all new items. -/
theorem step_ids (h : Collection g m id done) (hstep : Automaton.Step g m m' id X target) :
    (m'.sets.flatMap fun s => s.2.ids) = List.range m'.arena.size := by
  obtain ⟨news, gained, linked, hgrowth, hnone⟩ := hstep.growth
  have hsize := hgrowth.size_eq
  rcases hstep.sets with heq | ⟨K, I, heq, -, -, hids⟩
  · rw [hnone heq, List.length_nil, Nat.add_zero] at hsize
    rw [heq, hsize, h.ids]
  · have hle : m.arena.size ≤ m'.arena.size := by omega
    have hrange := @List.range'_append_1 0 m.arena.size (m'.arena.size - m.arena.size)
    rw [Nat.zero_add, Nat.add_sub_cancel' hle] at hrange
    rw [heq, List.flatMap_append, h.ids, List.flatMap_singleton, hids, List.range_eq_range',
      hrange, List.range_eq_range']

/-- After a step every state but the first was found from one before it: a new state is the target
of the new transition. -/
theorem step_incoming (h : Collection g m id done) (hstep : Automaton.Step g m m' id X target)
    (hid : id < m.sets.length) (hpos : 0 < j) (hj : j < m'.sets.length) :
    ∃ i Y, i < j ∧ m'.Goes i Y j := by
  by_cases hold : j < m.sets.length
  · obtain ⟨i, Y, hless, hgoes⟩ := h.incoming hpos hold
    exact ⟨i, Y, hless, (hstep.goes_iff i Y j).mpr (.inl hgoes)⟩
  · have hsome : m'.sets[j]? = some (m'.sets[j].1, m'.sets[j].2) := List.getElem?_eq_getElem hj
    rcases hstep.of_getElem?_sets hsome with hj' | ⟨hlast, htarget, -⟩
    · exact absurd (List.getElem?_eq_some_iff.mp hj').choose hold
    · exact ⟨id, X, hlast ▸ hid, (hstep.goes_iff id X j).mpr (.inr ⟨rfl, rfl, htarget⟩)⟩

/-- After a step over `X` state `id` is expanded over `X` as well. -/
theorem step_goes_iff {K I : ItemSet} {Y : Symbol} (h : Collection g m id done)
    (hstep : Automaton.Step g m m' id X target) (hid : id < m.sets.length)
    (hi : m'.sets[i]? = some (K, I)) :
    (∃ j, m'.Goes i Y j) ↔ i < id ∧ I.Awaits g Y ∨ i = id ∧ Y ∈ done ++ [X] := by
  have hgoes : (∃ j, m'.Goes i Y j) ↔ (∃ j, m.Goes i Y j) ∨ i = id ∧ Y = X := by
    simp only [hstep.goes_iff, exists_or, exists_and_left, exists_eq, and_true]
  rw [hgoes, List.mem_append, List.mem_singleton]
  rcases hstep.of_getElem?_sets hi with hold | ⟨hlast, -, -⟩
  · rw [h.goes_iff hold, and_or_left, or_assoc]
  · -- a new state comes after the one that is expanded
    have hnot : ¬∃ j, m.Goes i Y j := fun ⟨j, hj⟩ => Nat.ne_of_lt hj.lt_length hlast
    have hless : id < i := hlast ▸ hid
    simp [hnot, Nat.ne_of_gt hless, Nat.not_lt_of_gt hless]

/-- After a step there are states enough before every marker: those of the target have moved by
one, and a new target comes after the state that is expanded. -/
theorem step_dot_le {K I : ItemSet} (h : Collection g m id done)
    (hstep : Automaton.Step g m m' id X target) (hid : m.sets[id]? = some (kernel, items))
    (hi : m'.sets[i]? = some (K, I)) (hx : I.Has x) : x.dot ≤ i := by
  rcases hstep.of_getElem?_sets hi with hold | ⟨hlast, rfl, hclosed⟩
  · exact h.dot_le hold hx
  · obtain ⟨K', I', htarget, hadvanced⟩ := hstep.advanced hid
    cases hi.symm.trans htarget
    rcases ((hclosed.closure_iff x).mp hx).mem_or_dot_eq_zero with hmem | hzero
    · obtain ⟨y, β, hy, -, rfl⟩ := (hadvanced x).mp hmem
      have hdot : y.dot ≤ id := h.dot_le hid hy
      have hlt : id < m.sets.length := (List.getElem?_eq_some_iff.mp hid).choose
      rw [hlast]
      exact Nat.succ_le_of_lt (Nat.lt_of_le_of_lt hdot hlt)
    · exact hzero ▸ Nat.zero_le i

/-- One more step keeps what has been built, over a symbol that was not met before. -/
theorem step (h : Collection g m id done) (hstep : Automaton.Step g m m' id X target)
    (hid : m.sets[id]? = some (kernel, items)) (hX : X ∉ done) (hawaits : items.Awaits g X) :
    Collection g m' id (done ++ [X]) := by
  have hlt : id < m.sets.length := (List.getElem?_eq_some_iff.mp hid).choose
  constructor
  case closed =>
    intro i K I hi
    obtain ⟨news, gained, linked, hgrowth, -⟩ := hstep.growth
    rcases hstep.of_getElem?_sets hi with hold | ⟨-, -, hclosed⟩
    · exact (h.closed hold).growth hgrowth
    · exact hclosed
  case ids => exact h.step_ids hstep
  case start =>
    obtain ⟨K, I, hstart, hK⟩ := h.start
    exact ⟨K, I, hstep.getElem?_sets hstart, hK⟩
  case incoming =>
    intro j hpos hj
    exact h.step_incoming hstep hlt hpos hj
  case advanced =>
    intro i Y j hgoes
    rcases (hstep.goes_iff i Y j).mp hgoes with hold | ⟨rfl, rfl, rfl⟩
    · obtain ⟨K, I, K', I', hi, hj, hadvanced⟩ := h.advanced hold
      exact ⟨K, I, K', I', hstep.getElem?_sets hi, hstep.getElem?_sets hj, hadvanced⟩
    · obtain ⟨K', I', htarget, hadvanced⟩ := hstep.advanced hid
      exact ⟨kernel, items, K', I', hstep.getElem?_sets hid, htarget, hadvanced⟩
  case goes_iff =>
    intro i K I hi Y
    exact h.step_goes_iff hstep hlt hi
  case awaits =>
    intro i K I Y j hi hgoes
    rcases (hstep.goes_iff i Y j).mp hgoes with hold | ⟨rfl, rfl, rfl⟩
    · obtain ⟨K', I', -, -, hi', -⟩ := h.advanced hold
      cases hi.symm.trans (hstep.getElem?_sets hi')
      exact h.awaits hi' hold
    · cases hi.symm.trans (hstep.getElem?_sets hid)
      exact hawaits
  case deterministic =>
    refine hstep.deterministic h.deterministic ?_
    rw [h.goes_iff hid]
    rintro (⟨hless, -⟩ | ⟨-, hmem⟩)
    · exact Nat.lt_irrefl id hless
    · exact hX hmem
  case dot_le =>
    intro i K I x hi hx
    exact h.step_dot_le hstep hid hi hx

/-! ## Markers do not start anew -/

/-- The advanced cores stand for the advanced items when no marker starts anew. -/
theorem has_iff_advanced {sources : List (Core × ItemId)}
    (hsources : Sources g X items.toList sources)
    (hdot : ∀ core k, (core, k) ∈ sources → core.dot.toNat < 65535)
    (hcores : ∀ core, core ∈ kernel'.cores ↔ core ∈ sources.map fun m => m.1.advance) :
    kernel'.Has x ↔ g.Advanced X items.Has x := by
  constructor
  · rintro ⟨c, hc, rfl⟩
    obtain ⟨⟨core, k⟩, hmem, rfl⟩ := List.mem_map.mp ((hcores c).mp hc)
    obtain ⟨hin, β, hβ⟩ := (hsources.mem_iff core k).mp hmem
    exact ⟨core.dotted, β, ItemSet.has_of_mem hin, hβ, Core.dotted_advance (hdot core k hmem)⟩
  · rintro ⟨y, β, hy, hβ, rfl⟩
    obtain ⟨core, k, hin, rfl⟩ := hy.exists_mem
    have hmem : (core, k) ∈ sources := (hsources.mem_iff core k).mpr ⟨hin, β, hβ⟩
    exact ⟨core.advance, (hcores _).mpr (List.mem_map.mpr ⟨_, hmem, rfl⟩),
      Core.dotted_advance (hdot core k hmem)⟩

/-- A kernel of the advanced items has the advanced cores: all its counts are of 16 bits. -/
theorem mem_cores_iff_of_advanced {sources : List (Core × ItemId)}
    (hsources : Sources g X items.toList sources)
    (h : ∀ x, kernel'.Has x ↔ g.Advanced X items.Has x) (core : Core) :
    core ∈ kernel'.cores ↔ core ∈ sources.map fun m => m.1.advance := by
  rw [← ItemSet.has_dotted_iff, h]
  constructor
  · rintro ⟨y, β, hy, hβ, heq⟩
    obtain ⟨c, k, hin, rfl⟩ := hy.exists_mem
    obtain ⟨rfl, -⟩ := Core.eq_advance_of_dotted heq
    exact List.mem_map.mpr ⟨(c, k), (hsources.mem_iff c k).mpr ⟨hin, β, hβ⟩, rfl⟩
  · intro hcore
    obtain ⟨⟨c, k⟩, hmem, rfl⟩ := List.mem_map.mp hcore
    obtain ⟨hin, β, hβ⟩ := (hsources.mem_iff c k).mp hmem
    have hadvanced : g.Advanced X items.Has c.dotted.advance :=
      ⟨c.dotted, β, ItemSet.has_of_mem hin, hβ, rfl⟩
    obtain ⟨d, -, heq⟩ := (h _).mpr hadvanced
    rw [(Core.eq_advance_of_dotted heq).2]
    exact hadvanced

/-- No kernel that is known has a marker that started anew: in the kernel of the start state the
marker would have to move behind the end of a production of one symbol, and in all others it stands
behind some symbol. -/
theorem sources_dot_lt (wf : g.WellFormed) (h : Collection g m id done)
    {sources : List (Core × ItemId)} (hsources : Sources g X items.toList sources)
    (hj : m.sets[j]? = some (kernel', items'))
    (hcores : ∀ core, core ∈ kernel'.cores ↔ core ∈ sources.map fun m => m.1.advance)
    {core : Core} {k : ItemId} (hmem : (core, k) ∈ sources) : core.dot.toNat < 65535 := by
  refine Nat.lt_of_not_le fun hle => ?_
  have hmax : core.dot.toNat = 65535 :=
    Nat.le_antisymm (Nat.le_of_lt_succ core.dot.toNat_lt) hle
  have hzero : core.advance.dotted = ⟨core.production, 0⟩ := by
    have hsum : (core.dot + 1).toNat = 0 := by
      rw [UInt16.toNat_add, hmax]
      rfl
    rw [Core.dotted, Core.advance, hsum]
  have hhas : kernel'.Has ⟨core.production, 0⟩ :=
    ⟨core.advance, (hcores _).mpr (List.mem_map.mpr ⟨_, hmem, rfl⟩), hzero⟩
  by_cases hpos : 0 < j
  · exact Nat.lt_irrefl 0 (h.kernel_dot_pos hj hpos hhas)
  · obtain ⟨K, I, hstart, hK⟩ := h.start
    obtain rfl : j = startState := Nat.eq_zero_of_not_pos hpos
    cases hj.symm.trans hstart
    have hproduction : core.production = acceptProduction :=
      congrArg Dotted.production ((hK _).mp hhas)
    obtain ⟨-, β, n, right, hp, hdrop⟩ := (hsources.mem_iff core k).mp hmem
    have hright : right = [.nonterminal g.start] :=
      (hp.unique (show g.Expands core.production _ _ from hproduction ▸ wf.accept)).2
    rw [hright, List.drop_eq_nil_of_le (by simp [Core.dotted, hmax])] at hdrop
    cases hdrop

end Collection

/-! ## Steps of a draft -/

namespace Draft

variable {draft mid : Draft} {id i j target : StateId} {done : List Symbol} {limit : Nat}
variable {sources : List (Core × ItemId)} {kernel items kernel' items' : ItemSet}

/-- The automaton, as far as it has been built. -/
def automaton (draft : Draft) : Automaton := ⟨draft.states, draft.arena⟩

theorem getElem?_withTransition (draft : Draft) (id : StateId) (X : Symbol) (target k : StateId) :
    (draft.withTransition id X target).states[k]? = draft.states[k]?.map fun q =>
      if id = k then { q with transitions := q.transitions.push (X, target) } else q := by
  show (draft.states.modify id _)[k]? = _
  rw [Array.getElem?_modify]
  split
  · rfl
  · exact Option.map_id'.symm

theorem knows_withTransition (h : Knows draft.states draft.known) :
    Knows (draft.withTransition id X target).states (draft.withTransition id X target).known := by
  intro signature k
  refine (h signature k).trans ?_
  rw [getElem?_withTransition]
  cases draft.states[k]? with
  | none => simp
  | some q =>
    simp only [Option.map_some, Option.some.injEq, exists_eq_left']
    split <;> rfl

theorem sets_withTransition :
    (draft.withTransition id X target).automaton.sets = draft.automaton.sets := by
  refine List.ext_getElem? fun k => ?_
  rw [Automaton.getElem?_sets, Automaton.getElem?_sets]
  show Option.map _ (draft.withTransition id X target).states[k]? = _
  rw [getElem?_withTransition, Option.map_map]
  refine congrFun (congrArg Option.map (funext fun q => ?_)) _
  rw [Function.comp_apply]
  split <;> rfl

theorem goes_withTransition_iff (hid : id < draft.automaton.sets.length) :
    (draft.withTransition id X target).automaton.Goes i Y j ↔
      draft.automaton.Goes i Y j ∨ i = id ∧ Y = X ∧ j = target := by
  rw [Automaton.Goes, Automaton.Goes, automaton, automaton, getElem?_withTransition]
  by_cases hi : id = i
  · subst hi
    obtain ⟨q, hq⟩ : ∃ q, draft.states[id]? = some q :=
      ⟨_, Array.getElem?_eq_getElem (Automaton.length_sets draft.automaton ▸ hid)⟩
    simp [hq]
  · simp [hi, Ne.symm hi]

theorem isDeterministic_withTransition (h : draft.automaton.IsDeterministic)
    (hnew : ¬∃ j, draft.automaton.Goes id X j) :
    (draft.withTransition id X target).automaton.IsDeterministic := by
  intro i q' hq'
  rw [automaton, getElem?_withTransition, Option.map_eq_some_iff] at hq'
  obtain ⟨q, hq, rfl⟩ := hq'
  have hnodup := h i q hq
  split
  · next heq =>
    subst heq
    rw [Array.toList_push, List.map_append, List.nodup_append]
    refine ⟨hnodup, by simp, fun Y hY Z hZ heq => hnew ?_⟩
    obtain ⟨⟨Y', j⟩, hmem, rfl⟩ := List.mem_map.mp hY
    obtain rfl : Z = X := List.mem_singleton.mp hZ
    subst heq
    exact ⟨j, q, hq, hmem⟩
  · exact hnodup

/-- To find a known state and to record the transition to it is a step. -/
theorem Found.step {q : State} (wf : g.WellFormed) (h : Found draft sources target q mid)
    (hc : Collection g draft.automaton id done)
    (hid : draft.automaton.sets[id]? = some (kernel, items))
    (hsources : Sources g X items.toList sources) :
    Automaton.Step g draft.automaton (mid.withTransition id X target).automaton id X target := by
  have hsets : mid.automaton.sets = draft.automaton.sets :=
    congrArg (fun states => Automaton.sets ⟨states, draft.arena⟩) h.states
  have hgoes (i : StateId) (Y : Symbol) (j : StateId) :
      mid.automaton.Goes i Y j ↔ draft.automaton.Goes i Y j := by
    rw [Automaton.Goes, Automaton.Goes, automaton, automaton, h.states]
  have htarget : draft.automaton.sets[target]? = some (q.kernel, q.items) :=
    Automaton.getElem?_sets_of_getElem? h.known
  constructor
  case sets => exact .inl (sets_withTransition.trans hsets)
  case advanced =>
    intro K I hi
    cases hid.symm.trans hi
    refine ⟨q.kernel, q.items, by rw [sets_withTransition, hsets, htarget], fun y => ?_⟩
    exact Collection.has_iff_advanced hsources
      (fun core k hmem => hc.sources_dot_lt wf hsources htarget h.cores hmem) h.cores
  case goes_iff =>
    intro i Y j
    rw [goes_withTransition_iff (hsets ▸ (List.getElem?_eq_some_iff.mp hid).choose), hgoes]
  case deterministic =>
    intro hdet hnew
    refine isDeterministic_withTransition (fun i r hr => hdet i r ?_)
      (by simpa only [hgoes] using hnew)
    exact (congrArg (fun states : Array State => states[i]?) h.states).symm.trans hr
  case growth => exact ⟨_, _, _, h.growth, fun _ => rfl⟩

/-- To add a new state and to record the transition to it is a step. -/
theorem Added.step {arena : Arena}
    (h : Added g limit draft sources target kernel' items' arena mid) (hlimit : limit ≤ maxStates)
    (hc : Collection g draft.automaton id done)
    (hid : draft.automaton.sets[id]? = some (kernel, items))
    (hsources : Sources g X items.toList sources) :
    Automaton.Step g draft.automaton (mid.withTransition id X target).automaton id X target := by
  obtain ⟨news, gained, linked, hclosure, -⟩ := h.closed.growth
  have hlength : draft.automaton.sets.length = draft.states.size := Automaton.length_sets _
  have hsets : mid.automaton.sets = draft.automaton.sets ++ [(kernel', items')] := by
    rw [Automaton.sets, automaton, h.states, Array.toList_push, List.map_append]
    rfl
  have hlookup (i : StateId) : mid.states[i]? =
      if i = draft.states.size then some ⟨kernel', items', #[]⟩ else draft.states[i]? := by
    rw [h.states, Array.getElem?_push]
  have hgoes (i : StateId) (Y : Symbol) (j : StateId) :
      mid.automaton.Goes i Y j ↔ draft.automaton.Goes i Y j := by
    rw [Automaton.Goes, Automaton.Goes, automaton, automaton, hlookup]
    split
    · next hi => simp [hi]
    · rfl
  have hlt : id < draft.states.size := hlength ▸ (List.getElem?_eq_some_iff.mp hid).choose
  -- the last number is still free, so no marker has come so far
  have hdot (core : Core) (k : ItemId) (hmem : (core, k) ∈ sources) : core.dot.toNat < 65535 := by
    have hin := ((hsources.mem_iff core k).mp hmem).1
    have hle : core.dot.toNat ≤ id := hc.dot_le hid (ItemSet.has_of_mem hin)
    have hroom : draft.states.size < maxStates := Nat.lt_of_lt_of_le h.room hlimit
    simp only [maxStates] at hroom
    exact Nat.lt_of_le_of_lt hle (Nat.lt_of_lt_of_le hlt (Nat.le_of_lt_succ hroom))
  constructor
  case sets =>
    exact .inr ⟨kernel', items', sets_withTransition.trans hsets, h.target_eq.trans hlength.symm,
      Automaton.isClosed_of_closedUpTo h.kernel_toList h.growth h.closed⟩
  case advanced =>
    intro K I hi
    cases hid.symm.trans hi
    refine ⟨kernel', items', ?_, fun y => ?_⟩
    · rw [sets_withTransition, hsets, h.target_eq, ← hlength]
      exact List.getElem?_concat_length
    · refine Collection.has_iff_advanced hsources hdot fun core => ?_
      rw [← ItemSet.map_fst_toList, h.kernel_toList, List.zipIdx_map_fst]
  case goes_iff =>
    intro i Y j
    have hlt' : id < mid.automaton.sets.length := by
      rw [hsets, List.length_append, hlength]
      exact Nat.lt_add_right 1 hlt
    rw [goes_withTransition_iff hlt', hgoes]
  case deterministic =>
    intro hdet hnew
    refine isDeterministic_withTransition (fun i r hr => ?_) (by simpa only [hgoes] using hnew)
    rw [automaton, hlookup] at hr
    split at hr
    · cases hr
      exact .nil
    · exact hdet i r hr
  case growth =>
    refine ⟨_, _, _, h.growth.trans hclosure, ?_⟩
    intro heq
    rw [sets_withTransition, hsets] at heq
    exact absurd heq (by simp)

end Draft

end Lalr
