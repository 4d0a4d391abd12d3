import Lalr.Proofs.Workbench

/-!
# Propagation between other operations

Items, links and terminals may be added to an arena in many orders, and lookaheads
may be propagated now and then on the way. After a last propagation none of this
can be seen: what an item looks at depends on what was added only.

- `Arena.run`, `IsSchedule`: operations one after the other; those of a schedule
  add items, links between items that are there, and terminals, or propagate.
- `Arena.Applied`: what one operation but a propagation makes of an arena.
- `Arena.Given`, `Arena.Settled`: the terminals that items were given from
  outside, and the arena in which they have come along all links
  (`settled_of_run`).
- `exists_run_iff`: a schedule has a result exactly when at its first propagation
  no link leads out of the arena.
- `run_isConfluent`: schedules that add the same have the same result, with or
  without propagations on the way and in whatever order they add links and
  terminals.
-/

namespace Lalr

namespace Arena

/-! ## Schedules -/

namespace Operation

/-- The items that an operation adds: their cores and their lookaheads. -/
def allocated : Operation → List (Core × TerminalSet)
  | alloc core lookahead => [(core, lookahead)]
  | _ => []

/-- The operation propagates. -/
def isPropagate : Operation → Bool
  | propagate => true
  | _ => false

/-- The operation adds a link or a terminal to items that are there. -/
def isMovable : Operation → Bool
  | link _ _ => true
  | insert _ _ => true
  | _ => false

/-- The operation may stand in a schedule where so many items are there. -/
def Suits (size : Nat) : Operation → Prop
  | alloc _ _ => True
  | propagate => True
  | link source target => source < size ∧ target < size
  | insert id _ => id < size
  | shift _ _ => False
  | absorb _ _ => False

end Operation

/-- The arena after some operations. -/
def run (a : Arena) (ops : List Operation) : Except Fault Arena := ops.foldlM Operation.apply a

/-- The operations add items, links between items that are there at that time and terminals, or
propagate. -/
def IsSchedule (size : Nat) : List Operation → Prop
  | [] => True
  | op :: ops => op.Suits size ∧ IsSchedule (size + op.allocated.length) ops

/-- The number of items that are there at the first propagation, or at the end if there is none. -/
def sizeAtPropagate (size : Nat) : List Operation → Nat
  | [] => size
  | op :: ops =>
    if op.isPropagate then size else sizeAtPropagate (size + op.allocated.length) ops

/-- All items that the operations add. -/
def allocations (ops : List Operation) : List (Core × TerminalSet) :=
  ops.flatMap Operation.allocated

/-- The links and terminals are added at other places. -/
structure Reordered (ops ops' : List Operation) : Prop where
  fixed : ops.filter (!·.isMovable) = ops'.filter (!·.isMovable)
  moved : (ops.filter Operation.isMovable).Perm (ops'.filter Operation.isMovable)

variable {a b c : Arena} {op : Operation} {ops ops' : List Operation} {size : Nat}
variable {id source target : ItemId} {t : TerminalId}

theorem run_cons_eq_ok_iff :
    a.run (op :: ops) = .ok c ↔ ∃ b, op.apply a = .ok b ∧ b.run ops = .ok c :=
  foldlM_cons_eq_ok_iff

@[simp] theorem allocations_cons : allocations (op :: ops) = op.allocated ++ allocations ops :=
  List.flatMap_cons

theorem le_sizeAtPropagate (size : Nat) (ops : List Operation) :
    size ≤ sizeAtPropagate size ops := by
  induction ops generalizing size with
  | nil => exact Nat.le_refl _
  | cons op ops ih =>
    unfold sizeAtPropagate
    split
    · exact Nat.le_refl _
    · exact Nat.le_trans (Nat.le_add_right _ _) (ih _)

/-! ## Operations that are left out -/

section Filter

variable {keep : Operation → Bool}

theorem allocations_filter (h : ∀ op : Operation, keep op = false → op.allocated = []) :
    allocations (ops.filter keep) = allocations ops := by
  induction ops with
  | nil => rfl
  | cons op ops ih =>
    cases hkeep : keep op with
    | true => rw [List.filter_cons_of_pos hkeep, allocations_cons, allocations_cons, ih]
    | false =>
      rw [List.filter_cons_of_neg (Bool.not_eq_true _ ▸ hkeep), ih, allocations_cons, h op hkeep,
        List.nil_append]

theorem isSchedule_filter (h : ∀ op : Operation, keep op = false → op.allocated = [])
    (hops : IsSchedule size ops) : IsSchedule size (ops.filter keep) := by
  induction ops generalizing size with
  | nil => exact hops
  | cons op ops ih =>
    obtain ⟨hop, hops⟩ := hops
    cases hkeep : keep op with
    | true =>
      rw [List.filter_cons_of_pos hkeep]
      exact ⟨hop, ih hops⟩
    | false =>
      rw [h op hkeep] at hops
      rw [List.filter_cons_of_neg (Bool.not_eq_true _ ▸ hkeep)]
      exact ih hops

end Filter

theorem allocated_eq_nil_of_isPropagate (h : (!op.isPropagate) = false) : op.allocated = [] := by
  cases op with
  | alloc core lookahead => cases h
  | _ => rfl

theorem allocated_eq_nil_of_isMovable (h : (!op.isMovable) = false) : op.allocated = [] := by
  cases op with
  | alloc core lookahead => cases h
  | _ => rfl

/-- Links and terminals do not change how many items there are. -/
theorem sizeAtPropagate_filter_isMovable (size : Nat) (ops : List Operation) :
    sizeAtPropagate size (ops.filter (!·.isMovable)) = sizeAtPropagate size ops := by
  induction ops generalizing size with
  | nil => rfl
  | cons op ops ih =>
    cases op with
    | link source target => exact ih size
    | insert id t => exact ih size
    | propagate => rfl
    | alloc core lookahead => exact ih (size + 1)
    | shift g id => exact ih size
    | absorb target source => exact ih size

/-- Without propagations on the way the first one comes later. -/
theorem sizeAtPropagate_le_filter (size : Nat) (ops : List Operation) :
    sizeAtPropagate size ops ≤ sizeAtPropagate size (ops.filter (!·.isPropagate)) := by
  induction ops generalizing size with
  | nil => exact Nat.le_refl _
  | cons op ops ih =>
    cases op with
    | propagate => exact le_sizeAtPropagate _ _
    | link source target => exact ih size
    | insert id t => exact ih size
    | alloc core lookahead => exact ih (size + 1)
    | shift g id => exact ih size
    | absorb target source => exact ih size

/-! ## Single operations -/

/-- What an operation that does not propagate makes of an arena: a new item comes last, or there is
a link or a terminal more. -/
structure Applied (a : Arena) (op : Operation) (b : Arena) : Prop where
  cores : b.cores = a.cores ++ op.allocated.map Prod.fst
  links_iff : ∀ source target, b.Links source target ↔
    a.Links source target ∨ op = .link source target
  looks_iff : ∀ id t, b.Looks id t ↔ a.Looks id t ∨ op = .insert id t ∨
    ∃ entry ∈ op.allocated, id = a.size ∧ t ∈ entry.2

theorem Applied.size_eq (h : a.Applied op b) : b.size = a.size + op.allocated.length := by
  rw [← length_cores, h.cores, List.length_append, length_cores, List.length_map]

theorem growth_insertLookahead {isNew : Bool} (h : a.insertLookahead id t = .ok (isNew, b)) :
    a.Growth b [] (fun k u => k = id ∧ u = t) fun _ _ => False := by
  obtain ⟨item, -, h⟩ := bind_eq_ok_iff.mp h
  obtain ⟨b', hextend, h⟩ := bind_eq_ok_iff.mp h
  cases h
  exact (growth_extendLookahead hextend).congr rfl (fun k u => by rw [BitSet.mem_singleton])
    fun _ _ => Iff.rfl

/-- An operation of a schedule has a result. -/
theorem exists_applied (h : op.Suits a.size) (hop : op.isPropagate = false) :
    ∃ b, op.apply a = .ok b ∧ a.Applied op b := by
  cases op with
  | alloc core lookahead =>
    have hgrowth := growth_alloc a core lookahead
    refine ⟨_, rfl, hgrowth.cores, fun source target => ?_, fun id t => ?_⟩
    · simp [hgrowth.links_iff]
    · simp [hgrowth.looks_iff, Operation.allocated]
  | link source target =>
    have hlink : NeverFails (a.link source target) := link_neverFails h.1
    obtain ⟨⟨isNew, b⟩, hlink⟩ := hlink.exists_eq_ok
    have hgrowth := growth_link hlink
    refine ⟨b, map_eq_ok_iff.mpr ⟨_, hlink, rfl⟩, hgrowth.cores, fun s k => ?_, fun id t => ?_⟩
    · rw [hgrowth.links_iff, Operation.link.injEq, eq_comm, @eq_comm _ k]
    · simp [hgrowth.looks_iff, Operation.allocated]
  | insert id t =>
    have hinsert : NeverFails (a.insertLookahead id t) :=
      (get_neverFails h).bind fun item _ =>
        (extendLookahead_neverFails h).bind fun _ _ => failsOnly_pure _
    obtain ⟨⟨isNew, b⟩, hinsert⟩ := hinsert.exists_eq_ok
    have hgrowth := growth_insertLookahead hinsert
    refine ⟨b, map_eq_ok_iff.mpr ⟨_, hinsert, rfl⟩, hgrowth.cores, fun s k => ?_, fun k u => ?_⟩
    · simp [hgrowth.links_iff]
    · rw [hgrowth.looks_iff, Operation.insert.injEq, eq_comm, @eq_comm _ u]
      simp [Operation.allocated]
  | propagate => cases hop
  | shift g id => exact h.elim
  | absorb target source => exact h.elim

theorem Applied.eq_of_apply (h : op.Suits a.size) (hop : op.isPropagate = false)
    (hstep : op.apply a = .ok b) : a.Applied op b := by
  obtain ⟨b', hstep', happlied⟩ := exists_applied h hop
  cases hstep.symm.trans hstep'
  exact happlied

theorem eq_propagate_of_isPropagate (h : op.isPropagate = true) : op = .propagate := by
  cases op with
  | propagate => rfl
  | _ => cases h

/-- A propagation adds what reaches items along links. -/
theorem growth_apply_propagate (h : Operation.propagate.apply a = .ok b) :
    a.Growth b [] a.Reaches fun _ _ => False := by
  obtain ⟨⟨n, c⟩, hpropagate, rfl⟩ := map_eq_ok_iff.mp h
  exact growth_propagate hpropagate

theorem size_apply_propagate (h : Operation.propagate.apply a = .ok b) : b.size = a.size :=
  (growth_apply_propagate h).size_eq

/-- It has a result exactly when all links lead to items. -/
theorem exists_apply_propagate_iff :
    (∃ b, Operation.propagate.apply a = .ok b) ↔ a.IsClosed := by
  constructor
  · rintro ⟨b, h⟩
    obtain ⟨⟨n, c⟩, hpropagate, -⟩ := map_eq_ok_iff.mp h
    exact isClosed_of_propagate hpropagate
  · intro hclosed
    obtain ⟨⟨n, b⟩, hpropagate⟩ := (propagate_neverFails hclosed).exists_eq_ok
    exact ⟨b, map_eq_ok_iff.mpr ⟨_, hpropagate, rfl⟩⟩

/-! ## Where lookaheads come from -/

/-- The item was given the terminal: it looked at it from the beginning, it was added with it, or
the terminal was added to it. -/
def Given (a : Arena) (ops : List Operation) (id : ItemId) (t : TerminalId) : Prop :=
  a.Looks id t ∨ .insert id t ∈ ops ∨
    ∃ k entry, (allocations ops)[k]? = some entry ∧ id = a.size + k ∧ t ∈ entry.2

theorem given_nil_iff : a.Given [] id t ↔ a.Looks id t := by
  simp [Given, allocations]

/-- What is given by the first operation is there after it. -/
theorem Applied.given_iff (h : a.Applied op b) : b.Given ops id t ↔ a.Given (op :: ops) id t := by
  have hnew : (∃ k entry, (allocations (op :: ops))[k]? = some entry ∧ id = a.size + k ∧
      t ∈ entry.2) ↔ (∃ entry ∈ op.allocated, id = a.size ∧ t ∈ entry.2) ∨
        ∃ k entry, (allocations ops)[k]? = some entry ∧ id = b.size + k ∧ t ∈ entry.2 := by
    rw [h.size_eq, allocations_cons]
    cases op with
    | alloc core lookahead =>
      constructor
      · rintro ⟨k, entry, hentry, hid, ht⟩
        cases k with
        | zero =>
          cases hentry
          exact .inl ⟨_, List.mem_singleton_self _, hid, ht⟩
        | succ k =>
          exact .inr ⟨k, entry, hentry, hid.trans (Nat.add_right_comm a.size k 1), ht⟩
      · rintro (⟨entry, hentry, hid, ht⟩ | ⟨k, entry, hentry, hid, ht⟩)
        · cases List.mem_singleton.mp hentry
          exact ⟨0, _, rfl, hid, ht⟩
        · exact ⟨k + 1, entry, hentry, hid.trans (Nat.add_right_comm a.size 1 k), ht⟩
    | _ => simp [Operation.allocated]
  rw [Given, Given, h.looks_iff, hnew, List.mem_cons, @eq_comm _ op]
  simp only [or_assoc, or_left_comm]

/-- The operations have been carried out, and the terminals have come along all links: an item looks
at what was given to an item with a path of links to it. -/
structure Settled (a : Arena) (ops : List Operation) (b : Arena) : Prop where
  cores : b.cores = a.cores ++ (allocations ops).map Prod.fst
  links_iff : ∀ source target, b.Links source target ↔
    a.Links source target ∨ .link source target ∈ ops
  looks_iff : ∀ id t, b.Looks id t ↔
    ∃ source, Relation.ReflTransGen b.Links source id ∧ a.Given ops source t

/-- One operation more at the beginning. -/
theorem Applied.settled (h : a.Applied op b) (hsettled : b.Settled ops c) :
    a.Settled (op :: ops) c := by
  constructor
  case cores =>
    rw [hsettled.cores, h.cores, allocations_cons, List.map_append, List.append_assoc]
  case links_iff =>
    intro source target
    rw [hsettled.links_iff, h.links_iff, List.mem_cons, or_assoc, @eq_comm _ op]
  case looks_iff =>
    intro id t
    rw [hsettled.looks_iff]
    simp only [h.given_iff]

/-- The last propagation brings terminals along all links. -/
theorem settled_propagate (h : Operation.propagate.apply a = .ok b) : a.Settled [] b := by
  have hgrowth := growth_apply_propagate h
  have hlinks : b.Links = a.Links := by
    funext source target
    rw [hgrowth.links_iff, or_false]
  constructor
  case cores =>
    rw [hgrowth.cores]
    rfl
  case links_iff => simp [hlinks]
  case looks_iff =>
    intro id t
    rw [hgrowth.looks_iff, or_iff_right_of_imp Reaches.of_looks, hlinks]
    simp only [given_nil_iff, Reaches]

/-- A propagation at the beginning changes nothing: what it brings along links would come along them
anyway. -/
theorem settled_propagate_cons (h : Operation.propagate.apply a = .ok b)
    (hsettled : b.Settled ops c) : a.Settled (.propagate :: ops) c := by
  have hgrowth := growth_apply_propagate h
  have hlinks {source target : ItemId} (hlink : a.Links source target) : c.Links source target :=
    (hsettled.links_iff _ _).mpr (.inl (hgrowth.links hlink))
  have hgiven (id : ItemId) (t : TerminalId) :
      b.Given ops id t ↔ a.Reaches id t ∨ a.Given (.propagate :: ops) id t := by
    rw [Given, Given, hgrowth.looks_iff, size_apply_propagate h, List.mem_cons]
    simp [Operation.allocated, or_assoc, or_left_comm]
  constructor
  case cores =>
    rw [hsettled.cores, hgrowth.cores, List.append_nil]
    rfl
  case links_iff =>
    intro source target
    rw [hsettled.links_iff, hgrowth.links_iff, or_false, List.mem_cons]
    simp
  case looks_iff =>
    intro id t
    rw [hsettled.looks_iff]
    constructor
    · rintro ⟨source, hpath, ht⟩
      rcases (hgiven source t).mp ht with ⟨origin, hpath', ht⟩ | ht
      · have hpath' : Relation.ReflTransGen c.Links origin source :=
          Relation.ReflTransGen.mono (fun _ _ => hlinks) _ _ hpath'
        exact ⟨origin, hpath'.trans hpath, .inl ht⟩
      · exact ⟨source, hpath, ht⟩
    · rintro ⟨source, hpath, ht⟩
      exact ⟨source, hpath, (hgiven source t).mpr (.inr ht)⟩

/-- **A schedule that ends with a propagation settles the terminals.** -/
theorem settled_of_run (h : IsSchedule a.size ops) (hrun : a.run (ops ++ [.propagate]) = .ok b) :
    a.Settled ops b := by
  induction ops generalizing a with
  | nil =>
    obtain ⟨c, hstep, hrest⟩ := run_cons_eq_ok_iff.mp hrun
    cases foldlM_nil_eq_ok_iff.mp hrest
    exact settled_propagate hstep
  | cons op ops ih =>
    obtain ⟨hop, hops⟩ := h
    obtain ⟨c, hstep, hrest⟩ := run_cons_eq_ok_iff.mp hrun
    cases hpropagate : op.isPropagate with
    | true =>
      cases eq_propagate_of_isPropagate hpropagate
      exact settled_propagate_cons hstep (ih (size_apply_propagate hstep ▸ hops) hrest)
    | false =>
      have happlied := Applied.eq_of_apply hop hpropagate hstep
      exact happlied.settled (ih (happlied.size_eq ▸ hops) hrest)

/-! ## When a schedule has a result -/

/-- Links that an operation of a schedule adds lead to items that are there. -/
theorem Applied.links_lt_iff (h : a.Applied op b) (hop : op.Suits a.size) (hle : a.size ≤ size) :
    (∀ source target, b.Links source target → target < size) ↔
      ∀ source target, a.Links source target → target < size := by
  constructor
  · exact fun hall source target hlink => hall source target ((h.links_iff _ _).mpr (.inl hlink))
  · intro hall source target hlink
    rcases (h.links_iff _ _).mp hlink with hlink | rfl
    · exact hall source target hlink
    · exact Nat.lt_of_lt_of_le hop.2 hle

/-- A schedule that ends with a propagation has a result exactly when its first propagation has one:
all links that are added lead to items, so only those from the beginning can lead to none. -/
theorem exists_run_iff (h : IsSchedule a.size ops) :
    (∃ b, a.run (ops ++ [.propagate]) = .ok b) ↔
      ∀ source target, a.Links source target → target < sizeAtPropagate a.size ops := by
  induction ops generalizing a with
  | nil =>
    refine Iff.trans ?_ exists_apply_propagate_iff
    exact exists_congr fun b => run_cons_eq_ok_iff.trans (by simp [run, pure, Except.pure])
  | cons op ops ih =>
    obtain ⟨hop, hops⟩ := h
    have hrun : (∃ b, a.run (op :: ops ++ [.propagate]) = .ok b) ↔
        ∃ c, op.apply a = .ok c ∧ ∃ b, c.run (ops ++ [.propagate]) = .ok b := by
      simp only [List.cons_append, run_cons_eq_ok_iff]
      exact exists_comm.trans (exists_congr fun c => exists_and_left)
    rw [hrun, sizeAtPropagate]
    cases hpropagate : op.isPropagate with
    | true =>
      cases eq_propagate_of_isPropagate hpropagate
      refine Iff.trans ⟨fun ⟨c, hstep, _⟩ => ⟨c, hstep⟩, fun ⟨c, hstep⟩ => ⟨c, hstep, ?_⟩⟩
        exists_apply_propagate_iff
      -- links that stay within the arena do so later, too
      have hsize := size_apply_propagate hstep
      refine (ih (hsize ▸ hops)).mpr fun source target hlink => ?_
      rw [(growth_apply_propagate hstep).links_iff, or_false] at hlink
      have hclosed := exists_apply_propagate_iff.mp ⟨c, hstep⟩
      exact Nat.lt_of_lt_of_le (hclosed hlink) (hsize ▸ le_sizeAtPropagate _ _)
    | false =>
      obtain ⟨c, hstep, happlied⟩ := exists_applied hop hpropagate
      have hle : a.size ≤ sizeAtPropagate c.size ops :=
        Nat.le_trans (happlied.size_eq ▸ Nat.le_add_right _ _) (le_sizeAtPropagate _ _)
      rw [if_neg Bool.false_ne_true, ← happlied.size_eq, ← happlied.links_lt_iff hop hle,
        ← ih (happlied.size_eq ▸ hops)]
      refine ⟨fun ⟨c', hstep', hrest⟩ => ?_, fun hrest => ⟨c, hstep, hrest⟩⟩
      cases hstep.symm.trans hstep'
      exact hrest

/-! ## Schedules that add the same -/

/-- Both arenas have the same items with the same lookaheads, and the same links. -/
structure Agrees (a b : Arena) : Prop where
  cores : a.cores = b.cores
  lookaheads : a.lookaheads = b.lookaheads
  links_iff : ∀ source target, a.Links source target ↔ b.Links source target

/-- What items look at determines the lookaheads. -/
theorem lookaheads_eq_of_looks (hsize : a.size = b.size)
    (hlooks : ∀ id t, a.Looks id t ↔ b.Looks id t) : a.lookaheads = b.lookaheads := by
  have hlookup (a : Arena) (id : ItemId) : a.lookaheads[id]? = a[id]?.map Item.lookahead := by
    rw [lookaheads, List.getElem?_map, Array.getElem?_toList, getElem?_items]
  refine List.ext_getElem? fun id => ?_
  rw [hlookup, hlookup]
  cases ha : a[id]? with
  | none =>
    have hb : b[id]? = none := by
      rw [getElem?_eq_none_iff] at ha ⊢
      exact hsize ▸ ha
    rw [hb]
  | some item =>
    have hlt : id < b.size := hsize ▸ lt_size_of_getElem? ha
    have hb : b[id]? = some b.items[id] := Array.getElem?_eq_getElem hlt
    rw [hb, Option.map_some, Option.map_some]
    exact congrArg some (BitSet.ext fun t => by rw [← looks_iff ha, ← looks_iff hb, hlooks])

/-- What is settled depends on what was added only. -/
theorem Settled.agrees (h : a.Settled ops b) (h' : a.Settled ops' c)
    (hallocations : allocations ops = allocations ops')
    (hmoved : ∀ op : Operation, op.isMovable = true → (op ∈ ops ↔ op ∈ ops')) : b.Agrees c := by
  have hcores : b.cores = c.cores := by rw [h.cores, h'.cores, hallocations]
  have hlinks : b.Links = c.Links := by
    funext source target
    rw [h.links_iff, h'.links_iff, hmoved _ rfl]
  have hgiven (id : ItemId) (t : TerminalId) : a.Given ops id t ↔ a.Given ops' id t := by
    rw [Given, Given, hallocations, hmoved _ rfl]
  have hsize : b.size = c.size := by rw [← length_cores, hcores, length_cores]
  refine ⟨hcores, lookaheads_eq_of_looks hsize fun id t => ?_, fun source target => ?_⟩
  · rw [h.looks_iff, h'.looks_iff, hlinks]
    simp only [hgiven]
  · rw [hlinks]

/-- Schedules without their propagations add the same. -/
theorem mem_filter_isPropagate_iff (h : op.isMovable = true) :
    op ∈ ops ↔ op ∈ ops.filter (!·.isPropagate) := by
  have hop : (!op.isPropagate) = true := by
    cases op with
    | propagate => cases h
    | _ => rfl
  rw [List.mem_filter, hop, eq_self, and_true]

/-- So do schedules that are reordered. -/
theorem Reordered.mem_iff (h : Reordered ops ops') (hop : op.isMovable = true) :
    op ∈ ops ↔ op ∈ ops' := by
  have hmem := h.moved.mem_iff (a := op)
  rwa [List.mem_filter, List.mem_filter, hop, eq_self, and_true, and_true] at hmem

theorem Reordered.allocations_eq (h : Reordered ops ops') : allocations ops = allocations ops' := by
  rw [← allocations_filter fun _ => allocated_eq_nil_of_isMovable, h.fixed,
    allocations_filter fun _ => allocated_eq_nil_of_isMovable]

theorem Reordered.sizeAtPropagate_eq (h : Reordered ops ops') (size : Nat) :
    sizeAtPropagate size ops = sizeAtPropagate size ops' := by
  rw [← sizeAtPropagate_filter_isMovable, h.fixed, sizeAtPropagate_filter_isMovable]

/-- **Propagation is confluent with growth.** A schedule that ends with a propagation has a result
exactly when all links that the arena has at the beginning lead to items that are there at the first
propagation. Then an item looks at what was given to items with a path of links to it. The schedule
without its earlier propagations has a result, too, and so has every schedule that adds the links
and the terminals in another order; items, lookaheads and links are the same in all of them. -/
theorem run_isConfluent (a : Arena) {ops : List Operation} (h : IsSchedule a.size ops) :
    ((∃ b, a.run (ops ++ [.propagate]) = .ok b) ↔
      ∀ source target, a.Links source target → target < sizeAtPropagate a.size ops) ∧
    ∀ b, a.run (ops ++ [.propagate]) = .ok b →
      (∀ id t, b.Looks id t ↔
        ∃ source, Relation.ReflTransGen b.Links source id ∧ a.Given ops source t) ∧
      (∃ c, a.run (ops.filter (!·.isPropagate) ++ [.propagate]) = .ok c ∧ c.Agrees b) ∧
      ∀ ops', IsSchedule a.size ops' → Reordered ops ops' →
        ∃ c, a.run (ops' ++ [.propagate]) = .ok c ∧ c.Agrees b := by
  refine ⟨exists_run_iff h, fun b hrun => ?_⟩
  have hsettled := settled_of_run h hrun
  have hlinks := (exists_run_iff h).mp ⟨b, hrun⟩
  refine ⟨hsettled.looks_iff, ?_, fun ops' h' hreordered => ?_⟩
  · have hfilter : IsSchedule a.size (ops.filter (!·.isPropagate)) :=
      isSchedule_filter (fun _ => allocated_eq_nil_of_isPropagate) h
    obtain ⟨c, hrun'⟩ := (exists_run_iff hfilter).mpr fun source target hlink =>
      Nat.lt_of_lt_of_le (hlinks source target hlink) (sizeAtPropagate_le_filter _ _)
    exact ⟨c, hrun', (settled_of_run hfilter hrun').agrees hsettled
      (allocations_filter fun _ => allocated_eq_nil_of_isPropagate)
      fun op hop => (mem_filter_isPropagate_iff hop).symm⟩
  · obtain ⟨c, hrun'⟩ := (exists_run_iff h').mpr (hreordered.sizeAtPropagate_eq a.size ▸ hlinks)
    exact ⟨c, hrun', (settled_of_run h' hrun').agrees hsettled hreordered.allocations_eq.symm
      fun op hop => (hreordered.mem_iff hop).symm⟩

/-- A fourth item comes into the ring, and lookaheads are propagated on the way. -/
def joinRing : List Operation :=
  [.insert 0 3, .propagate, .alloc ⟨3, 0⟩ (.singleton 4), .link 2 3, .propagate, .link 3 0,
    .insert 3 5]

/-- The same with the links and the terminals in another order. -/
def joinRingLater : List Operation :=
  [.propagate, .alloc ⟨3, 0⟩ (.singleton 4), .insert 3 5, .link 3 0, .propagate, .link 2 3,
    .insert 0 3]

/-- In the end all four items look at all that any of them was given. -/
theorem run_joinRing : ∃ b c d, IsSchedule ring.size joinRing ∧
    ring.run (joinRing ++ [.propagate]) = .ok b ∧ IsSchedule ring.size joinRingLater ∧
    Reordered joinRing joinRingLater ∧
    ring.run (joinRing.filter (!·.isPropagate) ++ [.propagate]) = .ok c ∧ c.Agrees b ∧
    ring.run (joinRingLater ++ [.propagate]) = .ok d ∧ d.Agrees b ∧
    b.lookaheads.map BitSet.toList = .replicate 4 [1, 2, 3, 4, 5] := by
  have hjoin : IsSchedule ring.size joinRing := by
    simp [IsSchedule, joinRing, Operation.Suits, Operation.allocated, ring, size]
  have hlater : IsSchedule ring.size joinRingLater := by
    simp [IsSchedule, joinRingLater, Operation.Suits, Operation.allocated, ring, size]
  have hreordered : Reordered joinRing joinRingLater :=
    ⟨rfl, (List.reverse_perm (joinRing.filter Operation.isMovable)).symm⟩
  have hrun : lookaheads <$> ring.run (joinRing ++ [.propagate]) =
      .ok (.replicate 4 (.ofList [1, 2, 3, 4, 5])) := by decide +kernel
  obtain ⟨b, h, hlookaheads⟩ := map_eq_ok_iff.mp hrun
  obtain ⟨-, hconfluent⟩ := run_isConfluent ring hjoin
  obtain ⟨-, ⟨c, hc, hagrees⟩, hall⟩ := hconfluent b h
  obtain ⟨d, hd, hagrees'⟩ := hall joinRingLater hlater hreordered
  refine ⟨b, c, d, hjoin, h, hlater, hreordered, hc, hagrees, hd, hagrees', ?_⟩
  rw [hlookaheads]
  decide +kernel

end Arena

end Lalr
