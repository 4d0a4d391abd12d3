import Lalr.Proofs.Evolution
import Lalr.Proofs.SetJoin
import Mathlib.Logic.Function.Basic

/-!
# Arenas and sets at work

A workbench is an arena with any number of item sets, each in a register. What can
be done with items and sets is a list of operations, so that statements about
everything that can ever be made are statements about runs.

- `Workbench.apply`, `Workbench.run`: one operation, and one after the other.
- `run_hashCode`: every set of a run has the hash of its cores, and two sets, of
  one run or of two, compare equal exactly when they have the same cores.
- `Workbench.IsSound`: all sets are over the arena, and its links stay within it
  and do not repeat. Operations keep this as long as links are made between items
  of the arena (`Workbench.linksWithin`), and they take nothing back
  (`IsSound.apply`, `IsSound.run`). In a sound workbench an operation has a result
  if all that it names is there (`IsSound.exists_apply`).
- `run_isSound`: runs from the empty arena are sound.
-/

namespace Lalr

/-! ## Operations -/

namespace Arena

/-- What can be done with the items of an arena. To absorb is to add the lookahead of the source to
that of the target, to insert is to add a single terminal. -/
inductive Operation where
  | alloc (core : Core) (lookahead : TerminalSet)
  | shift (g : Grammar) (id : ItemId)
  | link (source target : ItemId)
  | absorb (target source : ItemId)
  | insert (id : ItemId) (t : TerminalId)
  | propagate

namespace Operation

/-- The arena after an operation. -/
def apply (a : Arena) : Operation → Except Fault Arena
  | alloc core lookahead => .ok (a.alloc core lookahead).2
  | shift g id => Prod.snd <$> a.shift g id
  | link source target => Prod.snd <$> a.link source target
  | absorb target source => Prod.snd <$> a.absorb target source
  | insert id t => Prod.snd <$> a.insertLookahead id t
  | propagate => Prod.snd <$> a.propagate

/-- The operation records no link that leads out of the arena. -/
def linksWithin (a : Arena) : Operation → Bool
  | link _ target => target < a.size
  | _ => true

/-- All that the operation names is there, and an item that is to be shifted has a symbol after its
marker. -/
def Fits (a : Arena) : Operation → Prop
  | alloc _ _ => True
  | shift g id => ∃ item X, a[id]? = some item ∧ item.core.next? g = .ok (some X)
  | link source target => source < a.size ∧ target < a.size
  | absorb target source => target < a.size ∧ source < a.size
  | insert id _ => id < a.size
  | propagate => True

end Operation

end Arena

/-- The name of a set. -/
abbrev Register := Nat

/-- What can be done with a set, also by means of the set in another register. -/
inductive SetOperation where
  | new
  | clone (other : Register)
  | add (id : ItemId)
  | addNew (core : Core) (lookahead : TerminalSet)
  | addSet (other : Register)
  | remove (core : Core)
  | removeSet (other : Register)
  | takeLast
  | closure (g : Grammar)
  | hash

namespace SetOperation

/-- The set `s` and the arena after an operation; `sets` are all sets as they are before. -/
def apply (sets : Register → ItemSet) (s : ItemSet) (a : Arena) :
    SetOperation → Except Fault (ItemSet × Arena)
  | new => .ok (.empty, a)
  | clone other => .ok (sets other, a)
  | add id => (fun placed => (placed.set, placed.arena)) <$> s.add a id
  | addNew core lookahead =>
    (fun placed => (placed.set, placed.arena)) <$> s.addNew a core lookahead
  | addSet other => s.addSet (sets other) a
  | remove core => .ok ((s.remove core).2, a)
  | removeSet other => .ok (s.removeSet (sets other), a)
  | takeLast => .ok ((s.takeLast?.map Prod.snd).getD s, a)
  | closure g => s.closure g a
  | hash => .ok (s.hashCode.2, a)

/-- All that the operation names is there, and the grammar has the productions of all items of which
the closure is wanted. -/
def Fits (s : ItemSet) (a : Arena) : SetOperation → Prop
  | add id => id < a.size
  | closure g => g.IsDefined ∧ ∀ x, s.Has x → g.HasProduction x
  | _ => True

end SetOperation

/-- An arena, and sets in registers. -/
structure Workbench where
  arena : Arena
  sets : Register → ItemSet

namespace Workbench

/-- An arena without any sets but empty ones. -/
def ofArena (a : Arena) : Workbench := ⟨a, fun _ => .empty⟩

/-- What can be done at a workbench. -/
inductive Operation where
  | onItems (op : Arena.Operation)
  | onSet (k : Register) (op : SetOperation)

/-- The workbench after an operation. -/
def apply (b : Workbench) : Operation → Except Fault Workbench
  | .onItems op => (fun a => ⟨a, b.sets⟩) <$> op.apply b.arena
  | .onSet k op =>
    (fun (s, a) => ⟨a, Function.update b.sets k s⟩) <$> op.apply b.sets (b.sets k) b.arena

/-- The workbench after some operations. -/
def run (b : Workbench) (ops : List Operation) : Except Fault Workbench := ops.foldlM apply b

/-- The operation records no link that leads out of the arena. -/
def Operation.linksWithin (b : Workbench) : Operation → Bool
  | .onItems op => op.linksWithin b.arena
  | .onSet _ _ => true

/-- All links that are recorded lead to items that are in the arena at that time. -/
def linksWithin (b : Workbench) : List Operation → Bool
  | [] => true
  | op :: ops =>
    op.linksWithin b &&
      match b.apply op with
      | .ok c => c.linksWithin ops
      | .error _ => true

/-- All that the operation names is there. -/
def Operation.Fits (b : Workbench) : Operation → Prop
  | .onItems op => op.Fits b.arena
  | .onSet k op => op.Fits (b.sets k) b.arena

variable {a a' : Arena} {b b' c d : Workbench} {op : Operation} {ops ops' : List Operation}

theorem run_cons_eq_ok_iff :
    b.run (op :: ops) = .ok d ↔ ∃ c, b.apply op = .ok c ∧ c.run ops = .ok d :=
  foldlM_cons_eq_ok_iff

/-- Links are recorded in the first part of a run or in the second. -/
theorem linksWithin_append (h : b.run ops = .ok c) :
    b.linksWithin (ops ++ ops') = (b.linksWithin ops && c.linksWithin ops') := by
  induction ops generalizing b with
  | nil =>
    cases foldlM_nil_eq_ok_iff.mp h
    rfl
  | cons op ops ih =>
    obtain ⟨d, hstep, hrest⟩ := run_cons_eq_ok_iff.mp h
    simp only [List.cons_append, linksWithin, hstep, ih hrest, Bool.and_assoc]

/-- After an operation all sets have a property if they had it before and if the set that it has
made has it. -/
theorem forall_sets_of_apply {P : ItemSet → Prop} (h : b.apply op = .ok c)
    (hold : ∀ k, P (b.sets k))
    (hnew : ∀ k (op : SetOperation) s, op.apply b.sets (b.sets k) b.arena = .ok (s, c.arena) →
      P s) (k : Register) : P (c.sets k) := by
  cases op with
  | onItems op =>
    obtain ⟨a, -, rfl⟩ := map_eq_ok_iff.mp h
    exact hold k
  | onSet j op =>
    obtain ⟨⟨s, a⟩, happly, rfl⟩ := map_eq_ok_iff.mp h
    show P (Function.update b.sets j s k)
    by_cases hk : k = j
    · subst hk
      rw [Function.update_self]
      exact hnew k op s happly
    · rw [Function.update_of_ne hk]
      exact hold k

end Workbench

/-! ## Hashes -/

theorem SetOperation.apply_isHashed {op : SetOperation} {sets : Register → ItemSet}
    {s s' : ItemSet} {a a' : Arena} (hs : s.IsHashed) (hsets : ∀ k, (sets k).IsHashed)
    (h : op.apply sets s a = .ok (s', a')) : s'.IsHashed := by
  cases op with
  | new =>
    cases h
    exact .empty
  | clone other =>
    cases h
    exact hsets other
  | add id =>
    obtain ⟨placed, hadd, hplaced⟩ := map_eq_ok_iff.mp h
    cases hplaced
    exact hs.add hadd
  | addNew core lookahead =>
    obtain ⟨placed, hadd, hplaced⟩ := map_eq_ok_iff.mp h
    cases hplaced
    exact hs.addNew hadd
  | addSet other => exact hs.addSet h
  | remove core =>
    cases h
    exact hs.remove core
  | removeSet other =>
    cases h
    exact hs.removeSet (sets other)
  | takeLast =>
    cases h
    cases htake : s.takeLast? with
    | none => exact hs
    | some taken => exact hs.takeLast? htake
  | closure g => exact hs.closure h
  | hash =>
    cases h
    exact hs.hashCode_snd

namespace Workbench

variable {a a' : Arena} {b b' c : Workbench} {op : Operation} {ops ops' : List Operation}

/-- In a run no set remembers a hash that is out of date. -/
theorem run_isHashed (hb : ∀ k, (b.sets k).IsHashed) (h : b.run ops = .ok c) (k : Register) :
    (c.sets k).IsHashed := by
  refine foldlM_induction (P := fun d : Workbench => ∀ k, (d.sets k).IsHashed) h hb ?_ k
  intro op _ d e hd hstep
  exact forall_sets_of_apply hstep hd fun k op s => SetOperation.apply_isHashed (hd k) hd

/-- **Hashes and equality of sets.** After any operations a set remembers either nothing or the hash
of the cores that it has, and this is the hash that it answers with. However two sets were made, in
one run or in two, they compare equal exactly when they have the same cores, and then they have the
same hash. -/
theorem run_hashCode (h : (ofArena a).run ops = .ok b) (h' : (ofArena a').run ops' = .ok b') :
    (∀ k, ((b.sets k).cached = none ∨ (b.sets k).cached = some (xorHash (b.sets k).cores)) ∧
      (b.sets k).hashCode.1 = xorHash (b.sets k).cores) ∧
    ∀ k j, ((b.sets k).sameCores (b'.sets j) = true ↔
        ∀ core, core ∈ (b.sets k).cores ↔ core ∈ (b'.sets j).cores) ∧
      ((b.sets k).sameCores (b'.sets j) = true →
        (b.sets k).hashCode.1 = (b'.sets j).hashCode.1) := by
  have hb := run_isHashed (fun _ => .empty) h
  have hb' := run_isHashed (fun _ => .empty) h'
  refine ⟨fun k => ⟨?_, (hb k).hashCode_fst⟩, fun k j => ⟨?_, ?_⟩⟩
  · cases hcached : (b.sets k).cached with
    | none => exact .inl rfl
    | some hash => exact .inr (congrArg some ((hb k).cached hash hcached))
  · exact ItemSet.sameCores_iff (hb k).nodup (hb' j).nodup
  · exact ItemSet.hashCode_congr (hb k) (hb' j)

/-- Two cores come into one set in this order, with the hash asked for in between, and into another
one in the other order. Then the first one takes in the items of the other one. -/
def twoOrders : List Operation :=
  [.onSet 0 (.addNew ⟨1, 0⟩ (.singleton 1)), .onSet 0 .hash, .onSet 0 (.addNew ⟨2, 0⟩ ∅),
    .onSet 1 (.addNew ⟨2, 0⟩ (.singleton 2)), .onSet 1 (.addNew ⟨1, 0⟩ ∅), .onSet 1 .hash,
    .onSet 0 .hash, .onSet 0 (.addSet 1)]

/-- The two sets are equal although their items are other ones, and the hash that the first one
remembers is still right after the merge. -/
theorem run_hashCode_twoOrders : ∃ b, (ofArena .empty).run twoOrders = .ok b ∧
    (b.sets 0).ids ≠ (b.sets 1).ids ∧ (b.sets 0).sameCores (b.sets 1) = true ∧
    (b.sets 0).cached = some (xorHash [⟨1, 0⟩, ⟨2, 0⟩]) ∧
    (b.sets 0).hashCode.1 = (b.sets 1).hashCode.1 := by
  have hcheck : (match (ofArena .empty).run twoOrders with
    | .ok b => (b.sets 0).ids != (b.sets 1).ids && (b.sets 0).sameCores (b.sets 1) &&
        (b.sets 0).cached.isSome && (b.sets 0).cores == [⟨1, 0⟩, ⟨2, 0⟩]
    | .error _ => false) = true := by decide +kernel
  split at hcheck
  · next b h =>
    simp only [Bool.and_eq_true, bne_iff_ne, beq_iff_eq] at hcheck
    obtain ⟨⟨⟨hids, hsame⟩, hsome⟩, hcores⟩ := hcheck
    obtain ⟨hhash, hequal⟩ := run_hashCode h h
    refine ⟨b, h, hids, hsame, ?_, (hequal 0 1).2 hsame⟩
    rcases (hhash 0).1 with hnone | hcached
    · rw [hnone] at hsome
      cases hsome
    · rw [hcached, hcores]
  · cases hcheck

end Workbench

/-! ## Soundness -/

section Operations

variable {sets : Register → ItemSet} {s s' : ItemSet} {a a' b : Arena}

theorem Arena.Operation.apply_evolves {op : Arena.Operation} (h : op.apply a = .ok b)
    (hlinks : op.linksWithin a = true) : a.Evolves b := by
  cases op with
  | alloc core lookahead =>
    cases h
    exact alloc_evolves a core lookahead
  | shift g id =>
    obtain ⟨⟨target, b⟩, hshift, rfl⟩ := map_eq_ok_iff.mp h
    exact shift_evolves hshift
  | link source target =>
    obtain ⟨⟨isNew, b⟩, hlink, rfl⟩ := map_eq_ok_iff.mp h
    exact link_evolves hlink (of_decide_eq_true hlinks)
  | absorb target source =>
    obtain ⟨⟨grew, b⟩, habsorb, rfl⟩ := map_eq_ok_iff.mp h
    exact absorb_evolves habsorb
  | insert id t =>
    obtain ⟨⟨isNew, b⟩, hinsert, rfl⟩ := map_eq_ok_iff.mp h
    exact insertLookahead_evolves hinsert
  | propagate =>
    obtain ⟨⟨n, b⟩, hpropagate, rfl⟩ := map_eq_ok_iff.mp h
    exact propagate_evolves hpropagate

theorem SetOperation.apply_evolves {op : SetOperation} (hs : s.IsOver a)
    (hsets : ∀ k, (sets k).IsOver a) (h : op.apply sets s a = .ok (s', a')) :
    s'.IsOver a' ∧ a.Evolves a' := by
  cases op with
  | new =>
    cases h
    exact ⟨ItemSet.isOver_empty a, .refl a⟩
  | clone other =>
    cases h
    exact ⟨hsets other, .refl a⟩
  | add id =>
    obtain ⟨placed, hadd, hplaced⟩ := map_eq_ok_iff.mp h
    cases hplaced
    exact ItemSet.add_evolves hs hadd
  | addNew core lookahead =>
    obtain ⟨placed, hadd, hplaced⟩ := map_eq_ok_iff.mp h
    cases hplaced
    exact ItemSet.addNew_evolves hs hadd
  | addSet other => exact ItemSet.addSet_evolves hs h
  | remove core =>
    cases h
    exact ⟨hs.sublist (ItemSet.remove_sublist s core), .refl a⟩
  | removeSet other =>
    cases h
    refine ⟨ItemSet.removeSet_induction (P := fun r => r.IsOver a) (sets other) ?_ hs, .refl a⟩
    exact fun r core hr => hr.sublist (ItemSet.remove_sublist r core)
  | takeLast =>
    cases h
    refine ⟨?_, .refl a⟩
    cases htake : s.takeLast? with
    | none => exact hs
    | some taken => exact hs.sublist (ItemSet.takeLast?_sublist htake)
  | closure g => exact ItemSet.closure_evolves hs h
  | hash =>
    cases h
    exact ⟨hs.sublist (s.toList_hashCode ▸ List.Sublist.refl _), .refl a⟩

end Operations

namespace Workbench

variable {b c d : Workbench} {op : Operation} {ops before later : List Operation}

/-- All sets are over the arena, and so are the links. -/
structure IsSound (b : Workbench) : Prop where
  sets : ∀ k, (b.sets k).IsOver b.arena
  closed : b.arena.IsClosed
  simple : b.arena.IsSimple

theorem isSound_empty : (ofArena .empty).IsSound where
  sets _ := ItemSet.isOver_empty _
  closed := by
    rintro source target ⟨item, hitem, -⟩
    exact absurd (Arena.lt_size_of_getElem? hitem) (Nat.not_lt_zero _)
  simple id item hitem := absurd (Arena.lt_size_of_getElem? hitem) (Nat.not_lt_zero _)

/-- One operation. -/
theorem IsSound.apply (h : b.IsSound) (hlinks : op.linksWithin b = true)
    (hstep : b.apply op = .ok c) : c.IsSound ∧ b.arena.Evolves c.arena := by
  have hevolves : b.arena.Evolves c.arena := by
    cases op with
    | onItems op =>
      obtain ⟨a, happly, rfl⟩ := map_eq_ok_iff.mp hstep
      exact Arena.Operation.apply_evolves happly hlinks
    | onSet k op =>
      obtain ⟨⟨s, a⟩, happly, rfl⟩ := map_eq_ok_iff.mp hstep
      exact (SetOperation.apply_evolves (h.sets k) h.sets happly).2
  refine ⟨⟨?_, hevolves.closed h.closed, hevolves.simple h.simple⟩, hevolves⟩
  refine forall_sets_of_apply (P := fun s => s.IsOver c.arena) hstep ?_ ?_
  · exact fun k => (h.sets k).evolves hevolves
  · exact fun k op s happly => (SetOperation.apply_evolves (h.sets k) h.sets happly).1

/-- A whole run. -/
theorem IsSound.run (h : b.IsSound) (hlinks : b.linksWithin ops = true)
    (hrun : b.run ops = .ok c) : c.IsSound ∧ b.arena.Evolves c.arena := by
  induction ops generalizing b with
  | nil =>
    cases foldlM_nil_eq_ok_iff.mp hrun
    exact ⟨h, .refl _⟩
  | cons op ops ih =>
    obtain ⟨d, hstep, hrest⟩ := run_cons_eq_ok_iff.mp hrun
    simp only [linksWithin, hstep, Bool.and_eq_true] at hlinks
    obtain ⟨hd, hevolves⟩ := h.apply hlinks.1 hstep
    obtain ⟨hc, hevolves'⟩ := ih hd hlinks.2 hrest
    exact ⟨hc, hevolves.trans hevolves'⟩

/-- In a sound workbench what is there can be worked with. -/
theorem IsSound.exists_apply (h : b.IsSound) (hfits : op.Fits b) : ∃ c, b.apply op = .ok c := by
  suffices NeverFails (b.apply op) from this.exists_eq_ok
  cases op with
  | onItems op =>
    refine FailsOnly.map ?_
    cases op with
    | alloc core lookahead => exact failsOnly_pure _
    | shift g id =>
      obtain ⟨item, X, hitem, hX⟩ := hfits
      exact (Arena.shift_neverFails hitem hX).map
    | link source target => exact (Arena.link_neverFails hfits.1).map
    | absorb target source => exact (Arena.absorb_neverFails hfits.1 hfits.2).map
    | insert id t =>
      refine FailsOnly.map ((Arena.get_neverFails hfits).bind fun item _ => ?_)
      exact (Arena.extendLookahead_neverFails hfits).bind fun _ _ => failsOnly_pure _
    | propagate => exact (Arena.propagate_neverFails h.closed).map
  | onSet k op =>
    refine FailsOnly.map ?_
    cases op with
    | add id => exact (ItemSet.add_neverFails (h.sets k) hfits).map
    | addNew core lookahead => exact (ItemSet.addNew_neverFails (h.sets k)).map
    | addSet other =>
      obtain ⟨s, a, hadd, -⟩ := ItemSet.exists_addSet (h.sets k) (h.sets other)
      exact neverFails_of_eq_ok hadd
    | closure g => exact ItemSet.closure_neverFails hfits.1.wellFormed (h.sets k) hfits.2
    | _ => exact failsOnly_pure _

/-- **What holds of arenas and sets however they are used.** In any run from the empty arena which
records links between items of the arena only, every set has, for each of its cores, one item with
this core in the arena, and no link leads out of the arena or is recorded twice. In what a run goes
on with, items keep their cores, no lookahead loses a terminal, and links only come in behind those
that there are. So every operation has a result if all that it names is there. -/
theorem run_isSound (hbefore : (ofArena .empty).run before = .ok b) (hlater : b.run later = .ok c)
    (hlinks : (ofArena .empty).linksWithin (before ++ later) = true) :
    (∀ k, (c.sets k).IsOver c.arena) ∧ c.arena.IsClosed ∧ c.arena.IsSimple ∧
      b.arena.cores <+: c.arena.cores ∧
      (∀ id t, b.arena.Looks id t → c.arena.Looks id t) ∧
      (∀ id, b.arena.targets id <+: c.arena.targets id) ∧
      ∀ op : Operation, op.Fits c → ∃ d, c.apply op = .ok d := by
  rw [linksWithin_append hbefore, Bool.and_eq_true] at hlinks
  obtain ⟨hb, -⟩ := isSound_empty.run hlinks.1 hbefore
  obtain ⟨hc, hevolves⟩ := hb.run hlinks.2 hlater
  exact ⟨hc.sets, hc.closed, hc.simple, hevolves.cores, fun id t => hevolves.looks,
    hevolves.targets, fun op => hc.exists_apply⟩

/-- The closure of the start as set 0, and an item of its own with a link to it. -/
def setUp (g : Grammar) : List Operation :=
  [.onItems (.alloc ⟨acceptProduction, 0⟩ (.singleton endOfInput)), .onSet 0 (.add 0),
    .onSet 1 (.clone 0), .onSet 0 (.closure g), .onItems (.shift g 0), .onSet 2 (.add 4),
    .onItems (.link 1 4)]

/-- More of everything, with another closure to which items of the first one belong. -/
def goOn (g : Grammar) : List Operation :=
  [.onItems (.insert 4 1), .onItems .propagate, .onSet 1 (.addSet 0), .onSet 1 .hash,
    .onSet 2 (.addNew ⟨1, 0⟩ (.singleton 2)), .onSet 2 (.addSet 0), .onSet 1 .takeLast,
    .onSet 1 (.remove ⟨1, 0⟩), .onItems (.absorb 1 0), .onSet 1 (.removeSet 2),
    .onSet 2 (.closure g)]

/-- The second closure gives item 0 a link more, behind the three that it has from the first. -/
theorem run_isSound_entangled : ∃ g b c, Grammar.define Examples.entangled = .ok g ∧
    (ofArena .empty).run (setUp g) = .ok b ∧ b.run (goOn g) = .ok c ∧
    (∀ k, (c.sets k).IsOver c.arena) ∧ c.arena.IsSimple ∧ b.arena.cores <+: c.arena.cores ∧
    b.arena.targets 0 = [1, 2, 3] ∧ c.arena.targets 0 = [1, 2, 3, 7] ∧
    ∃ d, c.apply (.onItems .propagate) = .ok d := by
  obtain ⟨g, hg, hcheck⟩ := Grammar.exists_define_of_check Examples.entangled
    (fun g : Grammar => (ofArena .empty).linksWithin (setUp g ++ goOn g) &&
      match (ofArena .empty).run (setUp g) with
      | .error _ => false
      | .ok b => b.arena.targets 0 == [1, 2, 3] &&
        match b.run (goOn g) with
        | .error _ => false
        | .ok c => c.arena.targets 0 == [1, 2, 3, 7]) (by decide +kernel)
  rw [Bool.and_eq_true] at hcheck
  obtain ⟨hlinks, hcheck⟩ := hcheck
  split at hcheck
  · cases hcheck
  next b hb =>
    rw [Bool.and_eq_true, beq_iff_eq] at hcheck
    obtain ⟨hbefore, hcheck⟩ := hcheck
    split at hcheck
    · cases hcheck
    next c hc =>
      obtain ⟨hsets, -, hsimple, hcores, -, -, happly⟩ := run_isSound hb hc hlinks
      exact ⟨g, b, c, hg, hb, hc, hsets, hsimple, hcores, hbefore, beq_iff_eq.mp hcheck,
        happly _ trivial⟩

end Workbench

end Lalr
