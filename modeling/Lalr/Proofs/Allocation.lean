import Lalr.Proofs.Renumbering

/-!
# What it saves to look for a core first

A closure takes in a core with `ItemSet.addNew`, which makes an item of it only
if the core is missing. It could as well make the item first and take it in
then, as `ItemSet.allocAdd` does. The two closures come to the same, up to the
numbers of items: the second one leaves behind the items whose cores were there,
and those have no links.

- `Intake`: a way to take in a core. The closure is stated for all of them
  (`Intake.closure`), and with `Intake.saving` it is the one of the grammar
  (`closure_saving`).
- `Tracks`: a closure is at the same place as another one that makes more items.
  Each step of the one has its step of the other, with numbers that make room for
  the item that is left behind.
- `closure_plain_agrees`: the two closures as a whole, and propagation after them.
-/

namespace Lalr

open Grammar

variable {g : Grammar}

/-! ## Ways to take in a core -/

/-- Takes in a core with a lookahead as an item that is added to the arena for it. -/
def ItemSet.allocAdd (s : ItemSet) (a : Arena) (core : Core) (lookahead : TerminalSet) :
    Except Fault Placed :=
  match a.alloc core lookahead with
  | (id, a) => s.add a id

/-- A core that comes in extends the item of that core, if there is one; otherwise it comes last,
with the next item. -/
theorem ItemSet.addNew_cases {s : ItemSet} {a : Arena} {core : Core} {lookahead : TerminalSet}
    {placed : Placed} (h : s.addNew a core lookahead = .ok placed) :
    (∃ existing, s.find? core = some existing ∧
        placed = ⟨existing, false, s, a.modify existing fun item => item.extend lookahead⟩) ∨
      s.contains core = false ∧
        placed = ⟨a.size, true, s.push core a.size, (a.alloc core lookahead).2⟩ := by
  unfold addNew at h
  split at h
  · next existing hfind =>
    obtain ⟨b, hextend, h⟩ := bind_eq_ok_iff.mp h
    cases Arena.extendLookahead_eq_modify hextend
    exact .inl ⟨existing, hfind, (pure_eq_ok_iff.mp h).symm⟩
  · next habsent => exact .inr ⟨find?_eq_none_iff.mp habsent, (pure_eq_ok_iff.mp h).symm⟩

/-- An item whose core is there brings its lookahead to the item of that core. -/
theorem ItemSet.add_eq_modify {s : ItemSet} {a : Arena} {id existing : ItemId} {item : Item}
    (hitem : a[id]? = some item) (hfind : s.find? item.core = some existing) (hne : existing ≠ id)
    (hlt : existing < a.size) : s.add a id =
      .ok ⟨existing, false, s, a.modify existing fun old => old.extend item.lookahead⟩ := by
  obtain ⟨old, hold⟩ := Arena.exists_getElem? hlt
  obtain ⟨grew, habsorb⟩ := Arena.absorb_eq_modify hne hold hitem
  refine bind_eq_ok_iff.mpr ⟨item, Arena.get_eq_ok_iff.mpr hitem, ?_⟩
  simp only [hfind, habsorb]
  rfl

/-- A way to take a core with a lookahead into a set. A core that was missing comes last, and this
is said; otherwise the set stays as it is. -/
structure Intake where
  place : ItemSet → Arena → Core → TerminalSet → Except Fault ItemSet.Placed
  place_cases : ∀ {s a core lookahead placed}, place s a core lookahead = .ok placed →
    placed.isNew = false ∧ placed.set = s
      ∨ placed.isNew = true ∧ s.contains core = false ∧ ∃ id, placed.set = s.push core id

namespace Intake

/-- Looks for the core first, and makes an item only if it is missing. -/
def saving : Intake where
  place := ItemSet.addNew
  place_cases := by
    intro s a core lookahead placed h
    rcases ItemSet.addNew_cases h with ⟨existing, -, rfl⟩ | ⟨habsent, rfl⟩
    · exact .inl ⟨rfl, rfl⟩
    · exact .inr ⟨rfl, habsent, _, rfl⟩

/-- Makes an item first, and takes it in then. -/
def plain : Intake where
  place := ItemSet.allocAdd
  place_cases := by
    intro s a core lookahead placed h
    have halloc := Arena.getElem?_alloc a core lookahead a.size
    obtain ⟨item, hitem, hcases⟩ := ItemSet.add_cases h
    obtain rfl : ⟨core, lookahead, #[]⟩ = item :=
      Option.some.inj ((halloc.trans (if_pos rfl)).symm.trans hitem)
    rcases hcases with ⟨existing, grew, b, -, -, rfl⟩ | ⟨habsent, rfl⟩
    · exact .inl ⟨rfl, rfl⟩
    · exact .inr ⟨rfl, habsent, _, rfl⟩

/-! ## Closures with any of them -/

variable (intake : Intake)

/-- Takes in the item of a production with the marker at the beginning, linked from `source` if the
lookahead of `source` is visible. -/
def predict (source : ItemId) (isVisible : Bool) (lookahead : TerminalSet) (state : Closing)
    (production : ProductionId) : Except Fault Closing :=
  match state with
  | ⟨set, arena, work⟩ => do
    let ⟨added, isNew, set, arena⟩ ← intake.place set arena ⟨production, 0⟩ lookahead
    let arena ← arena.linkIf isVisible source added
    let work ← arena.stackIf isNew added work
    return ⟨set, arena, work⟩

/-- Looks at one item. -/
def expand (g : Grammar) (id : ItemId) (state : Closing) : Except Fault Closing := do
  let item ← state.arena.get id
  match ← item.nextNonterminal? g with
  | none => return state
  | some n =>
    let lookahead ← item.firstOfRest g item.lookahead
    let isVisible ← item.isLookaheadVisible g
    (← g.nonterminal n).productions.foldlM (intake.predict id isVisible lookahead) state

variable {intake}

theorem predict_takesIn {source : ItemId} {isVisible : Bool} {lookahead : TerminalSet}
    {state next : Closing} {production : ProductionId}
    (h : intake.predict source isVisible lookahead state production = .ok next) :
    Closing.TakesIn production state next := by
  obtain ⟨set, arena, work⟩ := state
  obtain ⟨⟨added, isNew, set', arena'⟩, hplace, h⟩ := bind_eq_ok_iff.mp h
  obtain ⟨linked, -, h⟩ := bind_eq_ok_iff.mp h
  obtain ⟨later, hstack, h⟩ := bind_eq_ok_iff.mp h
  obtain rfl := Arena.eq_of_stackIf hstack
  cases h
  rcases intake.place_cases hplace with ⟨rfl, rfl⟩ | ⟨rfl, habsent, id, rfl⟩
  · exact .inl ⟨rfl, rfl⟩
  · exact .inr ⟨habsent, ⟨id, rfl⟩, rfl⟩

theorem expand_le {id : ItemId} {state next : Closing} (h : intake.expand g id state = .ok next) :
    Closing.missing g next.set + next.work.length
      ≤ Closing.missing g state.set + state.work.length := by
  obtain ⟨item, -, h⟩ := bind_eq_ok_iff.mp h
  obtain ⟨after, -, h⟩ := bind_eq_ok_iff.mp h
  cases after with
  | none =>
    cases h
    exact Nat.le_refl _
  | some n =>
    obtain ⟨lookahead, -, h⟩ := bind_eq_ok_iff.mp h
    obtain ⟨isVisible, -, h⟩ := bind_eq_ok_iff.mp h
    obtain ⟨nonterminal, hfound, h⟩ := bind_eq_ok_iff.mp h
    exact Closing.foldlM_le predict_takesIn
      (Array.mem_of_getElem? (Grammar.nonterminal_eq_ok_iff.mp hfound)) h

variable (intake)

/-- Looks at the items on the stack until it is empty. -/
def run (g : Grammar) (state : Closing) : Except Fault (ItemSet × Arena) :=
  match state with
  | ⟨set, arena, []⟩ => .ok (set, arena)
  | ⟨set, arena, id :: work⟩ =>
    match _expanded : intake.expand g id ⟨set, arena, work⟩ with
    | .error e => .error e
    | .ok next => run g next
termination_by Closing.missing g state.set + state.work.length
decreasing_by exact Nat.lt_of_le_of_lt (expand_le _expanded) (Nat.lt_succ_self _)

/-- The closure of an item set. The items that came in last are looked at first. -/
def closure (g : Grammar) (s : ItemSet) (a : Arena) : Except Fault (ItemSet × Arena) :=
  intake.run g ⟨⟨s.members, none⟩, a, s.ids.reverse⟩

variable {intake}

theorem run_nil {set : ItemSet} {arena : Arena} :
    intake.run g ⟨set, arena, []⟩ = .ok (set, arena) := by
  rw [run]

theorem run_cons {set : ItemSet} {arena : Arena} {id : ItemId} {work : List ItemId} :
    intake.run g ⟨set, arena, id :: work⟩ =
      intake.expand g id ⟨set, arena, work⟩ >>= intake.run g := by
  rw [run]
  split
  · next e hfault =>
    rw [hfault]
    rfl
  · next after hexpand =>
    rw [hexpand]
    rfl

/-- The closure of a set looks for cores first. -/
theorem closure_saving (g : Grammar) (s : ItemSet) (a : Arena) :
    saving.closure g s a = s.closure g a := by
  have hexpand : saving.expand = Closing.expand := rfl
  have hrun (state : Closing) : saving.run g state = state.run g := by
    fun_induction Closing.run g state with
    | case1 => exact run_nil
    | case2 set arena id work e hfault =>
      rw [run_cons, hexpand, hfault]
      rfl
    | case3 set arena id work next hstep ih =>
      rw [run_cons, hexpand, hstep]
      exact ih
  exact hrun _

end Intake

/-! ## One core -/

section Cores

variable {ρ : ItemId → ItemId} {s : ItemSet} {a b : Arena} {core : Core} {existing : ItemId}
variable {lookahead : TerminalSet} {placed : ItemSet.Placed}

theorem ItemSet.IsOver.lt_size_of_mem_ids {k : ItemId} (h : s.IsOver a) (hk : k ∈ s.ids) :
    k < a.size := by
  obtain ⟨core, hmem⟩ := mem_ids_iff.mp hk
  exact h.id_lt_size hmem

/-- The item for a core that was there is a spare one. -/
theorem exists_allocAdd_of_find? (h : a.Renumbered ρ b) (hclosed : a.IsClosed) (hs : s.IsOver a)
    (hfind : s.find? core = some existing) : ∃ σ b',
      (s.renumber ρ).allocAdd b core lookahead =
        .ok ⟨σ existing, false, s.renumber σ, b'⟩ ∧
      (a.modify existing fun item => item.extend lookahead).Renumbered σ b' ∧
      ∀ k < a.size, σ k = ρ k := by
  have hskip (k : ItemId) (hk : k < a.size) : skipping a.size ρ k = ρ k := skipping_of_lt hk
  have hlt : existing < a.size := hs.lt_size_of_find? hfind
  have hlt' : ρ existing < b.size := h.lt_size_iff.mpr hlt
  -- the item that was made brings its lookahead to the one that was there, and stays behind
  have hlast : (b.alloc core lookahead).2[b.size]? = some ⟨core, lookahead, #[]⟩ := by
    rw [Arena.getElem?_alloc, if_pos rfl]
  have hfind' : (s.renumber ρ).find? core = some (ρ existing) := by
    rw [ItemSet.find?_renumber, hfind, Option.map_some]
  have hadd := ItemSet.add_eq_modify hlast hfind' (Nat.ne_of_lt hlt')
    (Arena.size_alloc b core lookahead ▸ Nat.lt_succ_of_lt hlt')
  have hset : s.renumber (skipping a.size ρ) = s.renumber ρ :=
    ItemSet.renumber_congr fun k hk => hskip k (hs.lt_size_of_mem_ids hk)
  have hextended : (a.modify existing fun item => item.extend lookahead).Renumbered
      (skipping a.size ρ) ((b.alloc core lookahead).2.modify (skipping a.size ρ existing)
        fun item => item.extend lookahead) :=
    (h.alloc_spare hclosed core lookahead).modify existing fun _ => rfl
  refine ⟨skipping a.size ρ, _, ?_, hextended, hskip⟩
  rw [hset, hskip existing hlt]
  exact hadd

/-- The item for a core that was missing is the one that comes in. -/
theorem allocAdd_of_not_contains (h : a.Renumbered ρ b) (habsent : s.contains core = false) :
    (s.renumber ρ).allocAdd b core lookahead =
      .ok ⟨ρ a.size, true, (s.push core a.size).renumber ρ, (b.alloc core lookahead).2⟩ := by
  have hcore : (b.alloc core lookahead).2.cores[b.size]? = some core := by
    rw [Arena.getElem?_cores, Arena.getElem?_alloc, if_pos rfl, Option.map_some]
  have habsent' : core ∉ (s.renumber ρ).cores := by
    rw [ItemSet.cores_renumber, ← ItemSet.contains_iff, habsent]
    exact Bool.false_ne_true
  rw [ItemSet.renumber_push, h.size_eq]
  exact ItemSet.add_of_not_mem hcore habsent'

/-- A core that comes in by an item of its own does what it does without. -/
theorem exists_allocAdd (h : a.Renumbered ρ b) (hclosed : a.IsClosed) (hs : s.IsOver a)
    (hplaced : s.addNew a core lookahead = .ok placed) : ∃ σ b',
      (s.renumber ρ).allocAdd b core lookahead =
        .ok ⟨σ placed.id, placed.isNew, placed.set.renumber σ, b'⟩ ∧
      placed.arena.Renumbered σ b' ∧ ∀ k < a.size, σ k = ρ k := by
  rcases ItemSet.addNew_cases hplaced with ⟨existing, hfind, rfl⟩ | ⟨habsent, rfl⟩
  · exact exists_allocAdd_of_find? h hclosed hs hfind
  · exact ⟨ρ, _, allocAdd_of_not_contains h habsent, h.alloc core lookahead, fun _ _ => rfl⟩

end Cores

/-! ## Step by step -/

/-- The closure in the state `state'` is where the one in `state` is: the items, the members and
what waits are the same, with the numbers `ρ` and with spare items. No link leads out of the arena
of `state`, which has the members and what waits. -/
structure Tracks (ρ : ItemId → ItemId) (state state' : Closing) : Prop where
  renumbered : state.arena.Renumbered ρ state'.arena
  set : state'.set = state.set.renumber ρ
  work : state'.work = state.work.map ρ
  isOver : state.set.IsOver state.arena
  isClosed : state.arena.IsClosed
  waiting_lt : ∀ k ∈ state.work, k < state.arena.size

/-- The same, with numbers that are those of `ρ` for the first `n` items. -/
def TracksFrom (n : Nat) (ρ : ItemId → ItemId) (state state' : Closing) : Prop :=
  n ≤ state.arena.size ∧ ∃ σ, Tracks σ state state' ∧ ∀ k < n, σ k = ρ k

section Steps

variable {ρ : ItemId → ItemId} {n : Nat} {id source : ItemId} {state state' next : Closing}

theorem Tracks.tracksFrom (h : Tracks ρ state state') :
    TracksFrom state.arena.size ρ state state' :=
  ⟨Nat.le_refl _, ρ, h, fun _ _ => rfl⟩

/-- Numbers that are those of `σ` for more items are those of `ρ` where `σ` and `ρ` are the same. -/
theorem TracksFrom.lower {m : Nat} {σ : ItemId → ItemId} (h : TracksFrom m σ state state')
    (hle : n ≤ m) (hσ : ∀ k < n, σ k = ρ k) : TracksFrom n ρ state state' := by
  obtain ⟨hm, τ, htracks, hτ⟩ := h
  exact ⟨Nat.le_trans hle hm, τ, htracks, fun k hk =>
    (hτ k (Nat.lt_of_lt_of_le hk hle)).trans (hσ k hk)⟩

theorem Arena.Renumbered.stackIf {a b : Arena} {wanted : Bool} {work later : List ItemId}
    (h : a.Renumbered ρ b) (hstack : a.stackIf wanted id work = .ok later) :
    b.stackIf wanted (ρ id) (work.map ρ) = .ok (later.map ρ) := by
  cases wanted with
  | false =>
    cases hstack
    rfl
  | true =>
    obtain ⟨item, hitem, rfl⟩ := map_eq_ok_iff.mp hstack
    have hitem' : b.get (ρ id) = .ok (item.renumber ρ) := by
      rw [Arena.get_eq_ok_iff, h.item, Arena.get_eq_ok_iff.mp hitem, Option.map_some]
    exact map_eq_ok_iff.mpr ⟨_, hitem', rfl⟩

/-- A core that comes in and is linked to, in both closures. -/
theorem exists_predict {isVisible : Bool} {lookahead : TerminalSet} {p : ProductionId}
    (h : Tracks ρ state state') (hsource : source < state.arena.size)
    (hstep : state.predict source isVisible lookahead p = .ok next) : ∃ σ b',
      Intake.plain.predict (ρ source) isVisible lookahead state' p =
        .ok ⟨next.set.renumber σ, b', next.work.map σ⟩ ∧
      next.arena.Renumbered σ b' ∧ ∀ k < state.arena.size, σ k = ρ k := by
  obtain ⟨set, arena, work⟩ := state
  obtain ⟨set', arena', work'⟩ := state'
  obtain ⟨hrenumbered, rfl, rfl, hover, hclosed, hlt⟩ := h
  obtain ⟨placed, hplaced, hstep⟩ := bind_eq_ok_iff.mp hstep
  obtain ⟨linked, hlink, hstep⟩ := bind_eq_ok_iff.mp hstep
  obtain ⟨later, hstack, hstep⟩ := bind_eq_ok_iff.mp hstep
  cases hstep
  have hsize : arena.size ≤ placed.arena.size := (ItemSet.addNew_evolves hover hplaced).2.size_le
  obtain ⟨σ, a', hplaced', hrenumbered', hσ⟩ := exists_allocAdd hrenumbered hclosed hover hplaced
  obtain ⟨b', hlink', hlinked⟩ := hrenumbered'.linkIf (Nat.lt_of_lt_of_le hsource hsize) hlink
  rw [hσ source hsource] at hlink'
  -- what waits has numbers below those that had to make room
  have hwork : work.map ρ = work.map σ :=
    List.map_congr_left fun k hk => (hσ k (hlt k hk)).symm
  have hstack' : b'.stackIf placed.isNew (σ placed.id) (work.map ρ) = .ok (later.map σ) :=
    hwork ▸ hlinked.stackIf hstack
  refine ⟨σ, b', ?_, hlinked, hσ⟩
  exact bind_eq_ok_iff.mpr ⟨_, hplaced', bind_eq_ok_iff.mpr ⟨b', hlink',
    bind_eq_ok_iff.mpr ⟨_, hstack', rfl⟩⟩⟩

theorem Tracks.predict {isVisible : Bool} {lookahead : TerminalSet} {p : ProductionId}
    (h : Tracks ρ state state') (hsource : source < state.arena.size)
    (hstep : state.predict source isVisible lookahead p = .ok next) :
    ∃ next', Intake.plain.predict (ρ source) isVisible lookahead state' p = .ok next' ∧
      TracksFrom state.arena.size ρ next next' := by
  obtain ⟨hover, hevolves⟩ := Closing.predict_evolves h.isOver hstep
  obtain ⟨added, -, -, -, -, hmem, -, hwork, -⟩ := Closing.predict_spec h.isOver hstep
  obtain ⟨σ, b', hstep', hrenumbered, hσ⟩ := exists_predict h hsource hstep
  refine ⟨_, hstep', hevolves.size_le, σ, ?_, hσ⟩
  constructor
  case renumbered => exact hrenumbered
  case set => rfl
  case work => rfl
  case isOver => exact hover
  case isClosed => exact hevolves.closed h.isClosed
  case waiting_lt =>
    intro k hk
    rcases List.mem_cons.mp (hwork hk) with rfl | hk
    · exact hover.id_lt_size hmem
    · exact Nat.lt_of_lt_of_le (h.waiting_lt k hk) hevolves.size_le

/-- The source keeps its number when its productions come in. -/
theorem TracksFrom.predict {isVisible : Bool} {lookahead : TerminalSet} {p : ProductionId}
    (h : TracksFrom n ρ state state') (hsource : source < n)
    (hstep : state.predict source isVisible lookahead p = .ok next) :
    ∃ next', Intake.plain.predict (ρ source) isVisible lookahead state' p = .ok next' ∧
      TracksFrom n ρ next next' := by
  obtain ⟨hle, σ, htracks, hσ⟩ := h
  obtain ⟨next', hstep', hnext⟩ := htracks.predict (Nat.lt_of_lt_of_le hsource hle) hstep
  rw [hσ source hsource] at hstep'
  exact ⟨next', hstep', hnext.lower hle hσ⟩

theorem Tracks.expand (h : Tracks ρ state state') (hid : id < state.arena.size)
    (hstep : state.expand g id = .ok next) :
    ∃ next', Intake.plain.expand g (ρ id) state' = .ok next' ∧
      TracksFrom state.arena.size ρ next next' := by
  obtain ⟨item, hget, hstep⟩ := bind_eq_ok_iff.mp hstep
  have hget' : state'.arena.get (ρ id) = .ok (item.renumber ρ) := by
    rw [Arena.get_eq_ok_iff, h.renumbered.item, Arena.get_eq_ok_iff.mp hget, Option.map_some]
  -- what the grammar says of an item does not depend on its links
  obtain ⟨after, hafter, hstep⟩ := bind_eq_ok_iff.mp hstep
  have hafter' : (item.renumber ρ).nextNonterminal? g = .ok after := hafter
  cases after with
  | none =>
    cases hstep
    exact ⟨state', bind_eq_ok_iff.mpr ⟨_, hget', bind_eq_ok_iff.mpr ⟨_, hafter', rfl⟩⟩,
      h.tracksFrom⟩
  | some n =>
    obtain ⟨lookahead, hlookahead, hstep⟩ := bind_eq_ok_iff.mp hstep
    obtain ⟨isVisible, hvisible, hstep⟩ := bind_eq_ok_iff.mp hstep
    obtain ⟨nonterminal, hnonterminal, hstep⟩ := bind_eq_ok_iff.mp hstep
    obtain ⟨next', hfold, hnext⟩ :=
      exists_foldlM_of_rel hstep h.tracksFrom fun hd hpredict => hd.predict hid hpredict
    refine ⟨next', ?_, hnext⟩
    exact bind_eq_ok_iff.mpr ⟨_, hget', bind_eq_ok_iff.mpr ⟨_, hafter',
      bind_eq_ok_iff.mpr ⟨lookahead, hlookahead, bind_eq_ok_iff.mpr ⟨isVisible, hvisible,
        bind_eq_ok_iff.mpr ⟨nonterminal, hnonterminal, hfold⟩⟩⟩⟩⟩

theorem TracksFrom.run {s' : ItemSet} {a' : Arena} (h : TracksFrom n ρ state state')
    (hrun : state.run g = .ok (s', a')) :
    ∃ t b, Intake.plain.run g state' = .ok (t, b) ∧ TracksFrom n ρ ⟨s', a', []⟩ ⟨t, b, []⟩ := by
  fun_induction Closing.run g state generalizing state' with
  | case1 set arena =>
    cases hrun
    obtain ⟨hle, σ, htracks, hσ⟩ := h
    obtain ⟨set', arena', work'⟩ := state'
    obtain rfl : work' = [] := htracks.work
    exact ⟨set', arena', Intake.run_nil, hle, σ, htracks, hσ⟩
  | case2 => cases hrun
  | case3 set arena id work next hexpand ih =>
    obtain ⟨hle, σ, htracks, hσ⟩ := h
    obtain ⟨set', arena', work'⟩ := state'
    obtain rfl : work' = σ id :: work.map σ := htracks.work
    obtain ⟨hid, hrest⟩ := List.forall_mem_cons.mp htracks.waiting_lt
    have hopen : Tracks σ ⟨set, arena, work⟩ ⟨set', arena', work.map σ⟩ :=
      { htracks with work := rfl, waiting_lt := hrest }
    obtain ⟨next', hexpand', hnext⟩ := hopen.expand hid hexpand
    obtain ⟨t, b, hrun', hend⟩ := ih (hnext.lower hle hσ) hrun
    exact ⟨t, b, Intake.run_cons.trans (bind_eq_ok_iff.mpr ⟨next', hexpand', hrun'⟩), hend⟩

end Steps

/-! ## The whole closure -/

/-- The set `t` over the arena `b` is the set `s` over `a` with the numbers `ρ`: it has the same
cores in the same order, the same hash, and items with the same lookaheads and links. What else is
in `b` has no links, neither from it nor to it. -/
structure AgreesUpTo (ρ : ItemId → ItemId) (s : ItemSet) (a : Arena) (t : ItemSet) (b : Arena) :
    Prop where
  cores : t.cores = s.cores
  ids : t.ids = s.ids.map ρ
  hashCode : t.hashCode.1 = s.hashCode.1
  renumbered : a.Renumbered ρ b
  unlinked : ∀ k ∉ Set.range ρ, ∀ id, ¬b.Links k id ∧ ¬b.Links id k

theorem AgreesUpTo.of_renumbered {ρ : ItemId → ItemId} {a b : Arena} (s : ItemSet)
    (h : a.Renumbered ρ b) : AgreesUpTo ρ s a (s.renumber ρ) b where
  cores := s.cores_renumber ρ
  ids := s.ids_renumber ρ
  hashCode := s.hashCode_renumber ρ
  renumbered := h
  unlinked _ hk _ :=
    ⟨fun hlink => hk (h.spare hlink), fun hlink => hk (h.target_mem_range hlink)⟩

/-- **It makes no difference to a closure whether it looks for cores first**, but for items that
nothing leads from or to. The items that were there keep their numbers, and propagation comes to the
same. -/
theorem closure_plain_agrees (hg : g.IsDefined) {s : ItemSet} {a : Arena} (hclosed : a.IsClosed)
    (hs : s.IsOver a) (hprod : ∀ x, s.Has x → g.HasProduction x) :
    Intake.saving.closure g s a = s.closure g a ∧
    ∃ s' a' t b ρ, s.closure g a = .ok (s', a') ∧ Intake.plain.closure g s a = .ok (t, b) ∧
      (∀ id < a.size, ρ id = id) ∧ AgreesUpTo ρ s' a' t b ∧
      ∃ n a'' b', a'.propagate = .ok (n, a'') ∧ b.propagate = .ok (n, b') ∧
        AgreesUpTo ρ s' a'' t b' ∧ ∀ k ∉ Set.range ρ, b'[k]? = b[k]? := by
  refine ⟨Intake.closure_saving g s a, ?_⟩
  obtain ⟨⟨s', a'⟩, hclosure⟩ :=
    (ItemSet.closure_neverFails hg.wellFormed hs hprod).exists_eq_ok
  have hstart : Tracks id ⟨⟨s.members, none⟩, a, s.ids.reverse⟩
      ⟨⟨s.members, none⟩, a, s.ids.reverse⟩ := by
    constructor
    case renumbered => exact .refl a
    case set => exact (ItemSet.renumber_id _).symm
    case work => exact (List.map_id _).symm
    case isOver => exact ⟨hs.nodup, hs.stored⟩
    case isClosed => exact hclosed
    case waiting_lt =>
      exact fun k hk => hs.lt_size_of_mem_ids (List.mem_reverse.mp hk)
  obtain ⟨t, b, hplain, -, ρ, hend, hρ⟩ := hstart.tracksFrom.run hclosure
  obtain rfl : t = s'.renumber ρ := hend.set
  obtain ⟨⟨n, a''⟩, hpropagate⟩ := (Arena.propagate_neverFails hend.isClosed).exists_eq_ok
  obtain ⟨b', hpropagate', hgrown, hspare⟩ := hend.renumbered.propagate hpropagate
  exact ⟨s', a', _, b, ρ, hclosure, hplain, hρ, .of_renumbered s' hend.renumbered,
    n, a'', b', hpropagate, hpropagate', .of_renumbered s' hgrown, hspare⟩

/-- In `linkedStart` no link leads out of the arena. -/
theorem isClosed_linkedStart : linkedStart.2.IsClosed := by
  rintro source target ⟨item, hitem, htarget⟩
  match source with
  | 0 | 1 =>
    obtain rfl := Option.some.inj hitem
    cases List.mem_singleton.mp (Array.mem_toList_iff.mpr htarget)
    decide
  | source + 2 => cases hitem

/-- A core that is there is predicted before the last item comes in. So the last item gets another
number when items are made first. -/
theorem closure_plain_agrees_parameters : ∃ g s' a' t b ρ,
    Grammar.define Examples.parameters = .ok g ∧
    linkedStart.1.closure g linkedStart.2 = .ok (s', a') ∧
    Intake.plain.closure g linkedStart.1 linkedStart.2 = .ok (t, b) ∧
    AgreesUpTo ρ s' a' t b ∧ a'.size = 9 ∧ b.size = 10 ∧ ρ 1 = 1 ∧ ρ 7 = 7 ∧ ρ 8 = 9 := by
  obtain ⟨g, hg, hcheck⟩ := exists_define_of_check Examples.parameters
    (fun g : Grammar => match linkedStart.1.closure g linkedStart.2,
        Intake.plain.closure g linkedStart.1 linkedStart.2 with
      | .ok (s', a'), .ok (t, b) => s'.ids == [1, 2, 3, 4, 5, 6, 7, 8] && a'.size == 9 &&
          t.ids == [1, 2, 3, 4, 5, 6, 7, 9] && b.size == 10
      | _, _ => false) (by decide +kernel)
  have hdefined : g.IsDefined := .of_define hg
  have hprod (x : Dotted) (hx : linkedStart.1.Has x) : g.HasProduction x := by
    obtain ⟨core, hcore, rfl⟩ := hx
    cases List.mem_singleton.mp hcore
    exact ⟨_, _, hdefined.wellFormed.accept⟩
  obtain ⟨-, s', a', t, b, ρ, hclosure, hplain, hold, hagrees, -⟩ :=
    closure_plain_agrees hdefined isClosed_linkedStart isOver_linkedStart hprod
  simp only [hclosure, hplain, Bool.and_eq_true, beq_iff_eq] at hcheck
  obtain ⟨⟨⟨hids, hsize⟩, hids'⟩, hsize'⟩ := hcheck
  have hnumbers := hagrees.ids
  rw [hids, hids'] at hnumbers
  simp only [List.map_cons, List.cons.injEq] at hnumbers
  obtain ⟨-, -, -, -, -, -, hseven, height, -⟩ := hnumbers
  exact ⟨g, s', a', t, b, ρ, hg, hclosure, hplain, hagrees, hsize, hsize', hold 1 (by decide),
    hseven.symm, height.symm⟩

end Lalr
