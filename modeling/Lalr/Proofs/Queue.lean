import Lalr.Queue

/-!
# What a queue takes in and hands out

A queue hands out what it took in, in the same order, and nothing else. Its
history shows it: what was handed out so far, and then what waits, is what was
taken in; and a value is taken in exactly when it does not wait at that moment
(`run_isFifo`).

- `IsIndexed.mem_push_iff`, `ofList_spec`: what waits after values came in.
- `Operation`, `Event`: what can be done with a queue, and what it came to.
- `apply_balance`, `run_balance`: the events of a history tell how what waits has
  changed.
- `Origin`: the ways to make a queue.
-/

namespace Lalr

namespace Queue

variable {α : Type} [Ord α] {q rest : Queue α} {x y : α}

/-! ## What comes to wait -/

/-- A value is taken in unless it waits. -/
theorem IsIndexed.push_fst_iff (h : q.IsIndexed) : (q.push x).1 = true ↔ x ∉ q.toList := by
  rw [push_fst, decide_eq_true_iff, h.mem_iff]

theorem IsIndexed.mem_push_iff (h : q.IsIndexed) :
    y ∈ (q.push x).2.toList ↔ y ∈ q.toList ∨ y = x := by
  rw [toList_push]
  split
  · next hx =>
    refine ⟨.inl, ?_⟩
    rintro (hy | rfl)
    · exact hy
    · exact (h.mem_iff _).mp hx
  · rw [List.mem_append, List.mem_singleton]

/-! ## Histories -/

/-- What can be done with a queue: a value comes to wait, unless it already does, or the one that
came in first is taken out. -/
inductive Operation (α : Type) where
  | push (x : α)
  | pop

/-- An operation with its answer: whether the value that came was taken in, or the value that was
handed out, if one waited. -/
inductive Event (α : Type) where
  | pushed (x : α) (isTaken : Bool)
  | popped (x? : Option α)
deriving DecidableEq

namespace Event

/-- The value that was taken in. -/
def taken : Event α → List α
  | pushed x true => [x]
  | _ => []

/-- The value that was handed out. -/
def handedOut : Event α → List α
  | popped (some x) => [x]
  | _ => []

end Event

/-- The values that were taken in, in this order. -/
def taken (events : List (Event α)) : List α := events.flatMap Event.taken

/-- The values that were handed out, in this order. -/
def handedOut (events : List (Event α)) : List α := events.flatMap Event.handedOut

/-- What an operation comes to, and the queue after it. -/
def apply (q : Queue α) : Operation α → Event α × Queue α
  | .push x => (.pushed x (q.push x).1, (q.push x).2)
  | .pop =>
    match q.pop? with
    | none => (.popped none, q)
    | some (x, rest) => (.popped (some x), rest)

/-- What operations come to one after the other, and the queue after them. -/
def run (q : Queue α) : List (Operation α) → List (Event α) × Queue α
  | [] => ([], q)
  | op :: ops => ((q.apply op).1 :: ((q.apply op).2.run ops).1, ((q.apply op).2.run ops).2)

theorem run_append (q : Queue α) (ops ops' : List (Operation α)) :
    q.run (ops ++ ops') =
      ((q.run ops).1 ++ ((q.run ops).2.run ops').1, ((q.run ops).2.run ops').2) := by
  induction ops generalizing q with
  | nil => rfl
  | cons op ops ih => rw [List.cons_append, run, run, ih, List.cons_append]

theorem apply_pop_of_eq_none (h : q.pop? = none) : q.apply .pop = (.popped none, q) := by
  rw [apply, h]

theorem apply_pop_of_eq_some (h : q.pop? = some (x, rest)) :
    q.apply .pop = (.popped (some x), rest) := by
  rw [apply, h]

/-- The value that waits first is the one that leaves. -/
theorem apply_pop_fst (q : Queue α) : (q.apply .pop).1 = .popped q.toList.head? := by
  cases hpop : q.pop? with
  | none => rw [apply_pop_of_eq_none hpop, pop?_eq_none_iff.mp hpop, List.head?_nil]
  | some popped => rw [apply_pop_of_eq_some hpop, toList_eq_cons_of_pop? hpop, List.head?_cons]

theorem exists_pop?_of_head? (h : q.toList.head? = some x) : ∃ rest, q.pop? = some (x, rest) := by
  cases hpop : q.pop? with
  | none =>
    rw [pop?_eq_none_iff.mp hpop] at h
    cases h
  | some popped =>
    rw [toList_eq_cons_of_pop? hpop] at h
    cases h
    exact ⟨popped.2, rfl⟩

/-- The event of an operation tells what has gone and what has come. -/
theorem apply_balance (q : Queue α) (op : Operation α) :
    (q.apply op).1.handedOut ++ (q.apply op).2.toList = q.toList ++ (q.apply op).1.taken := by
  cases op with
  | push x =>
    rw [apply, push_fst, toList_push]
    by_cases hx : x ∈ q.waiting <;> simp [hx, Event.handedOut, Event.taken]
  | pop =>
    cases hpop : q.pop? with
    | none => simp [apply_pop_of_eq_none hpop, Event.handedOut, Event.taken]
    | some popped =>
      rw [apply_pop_of_eq_some hpop, toList_eq_cons_of_pop? hpop]
      simp [Event.handedOut, Event.taken]

/-- So do those of a history. -/
theorem run_balance (q : Queue α) (ops : List (Operation α)) :
    handedOut (q.run ops).1 ++ (q.run ops).2.toList = q.toList ++ taken (q.run ops).1 := by
  induction ops generalizing q with
  | nil => exact (List.append_nil _).symm
  | cons op ops ih =>
    have hstep := apply_balance q op
    have hlater := ih (q.apply op).2
    rw [run, handedOut, taken, List.flatMap_cons, List.flatMap_cons]
    calc (q.apply op).1.handedOut ++ handedOut ((q.apply op).2.run ops).1 ++
          ((q.apply op).2.run ops).2.toList
        = (q.apply op).1.handedOut ++ (q.apply op).2.toList ++
            taken ((q.apply op).2.run ops).1 := by rw [List.append_assoc, hlater, List.append_assoc]
      _ = q.toList ++ ((q.apply op).1.taken ++ taken ((q.apply op).2.run ops).1) := by
        rw [hstep, List.append_assoc]

/-! ## Ways to make a queue -/

/-- How a queue is made: without values, with room for some, or from the values of a list. -/
inductive Origin (α : Type) where
  | empty
  | withCapacity (capacity : Nat)
  | ofList (xs : List α)

namespace Origin

/-- The queue that is made. -/
def queue : Origin α → Queue α
  | empty => .empty
  | withCapacity capacity => .emptyWithCapacity capacity
  | ofList xs => .ofList xs

/-- What is done to make it. -/
def operations : Origin α → List (Operation α)
  | ofList xs => xs.map .push
  | _ => []

/-- The values of a list come in one by one, and none goes out. -/
theorem run_map_push (q : Queue α) (xs : List α) :
    (q.run (xs.map .push)).2 = xs.foldl (fun q x => (q.push x).2) q ∧
      handedOut (q.run (xs.map .push)).1 = [] := by
  induction xs generalizing q with
  | nil => exact ⟨rfl, rfl⟩
  | cons x xs ih => exact ih (q.push x).2

theorem run_operations (o : Origin α) :
    (Queue.empty.run o.operations).2 = o.queue ∧
      handedOut (Queue.empty.run o.operations).1 = [] := by
  cases o with
  | empty => exact ⟨rfl, rfl⟩
  | withCapacity capacity => exact ⟨rfl, rfl⟩
  | ofList xs => exact run_map_push .empty xs

/-- What waits at the beginning is what was taken in. -/
theorem toList_queue (o : Origin α) :
    o.queue.toList = Queue.taken (Queue.empty.run o.operations).1 := by
  obtain ⟨hqueue, hnone⟩ := o.run_operations
  have hbalance := run_balance .empty o.operations
  rwa [hqueue, hnone] at hbalance

end Origin

/-! ## The index stays right -/

variable [Std.TransOrd α] [Std.LawfulEqOrd α]

theorem IsIndexed.apply (h : q.IsIndexed) (op : Operation α) : (q.apply op).2.IsIndexed := by
  cases op with
  | push x => exact h.push x
  | pop =>
    cases hpop : q.pop? with
    | none =>
      rw [apply_pop_of_eq_none hpop]
      exact h
    | some popped =>
      rw [apply_pop_of_eq_some hpop]
      exact h.pop? hpop

theorem IsIndexed.run (h : q.IsIndexed) (ops : List (Operation α)) : (q.run ops).2.IsIndexed := by
  induction ops generalizing q with
  | nil => exact h
  | cons op ops ih => exact ih (h.apply op)

theorem Origin.isIndexed_queue (o : Origin α) : o.queue.IsIndexed :=
  o.run_operations.1 ▸ isIndexed_empty.run o.operations

/-- A value that has left can come in again. -/
theorem IsIndexed.push_of_pop? (h : q.IsIndexed) (hpop : q.pop? = some (x, rest)) :
    (rest.push x).1 = true := by
  have hnodup := h.nodup
  rw [toList_eq_cons_of_pop? hpop, List.nodup_cons] at hnodup
  exact (h.pop? hpop).push_fst_iff.mpr hnodup.1

theorem IsIndexed.mem_run_map_push_iff (h : q.IsIndexed) (xs : List α) :
    y ∈ (q.run (xs.map .push)).2.toList ↔ y ∈ q.toList ∨ y ∈ xs := by
  induction xs generalizing q with
  | nil => simp [Queue.run]
  | cons x xs ih =>
    refine (ih (h.push x)).trans ?_
    rw [h.mem_push_iff, List.mem_cons, or_assoc]

theorem ofList_spec (xs : List α) :
    (ofList xs).IsIndexed ∧ ∀ y, y ∈ (ofList xs).toList ↔ y ∈ xs := by
  have hqueue : (empty.run (xs.map .push)).2 = ofList xs := (Origin.run_map_push .empty xs).1
  refine ⟨Origin.isIndexed_queue (.ofList xs), fun y => ?_⟩
  rw [← hqueue, isIndexed_empty.mem_run_map_push_iff]
  simp

/-! ## First in, first out -/

/-- **A queue hands out what it took in.** However it is made, and whatever is done with it, its
index holds exactly the waiting values, and none of them waits twice. What was handed out so far and
what waits is what was taken in, in the same order, from the time when the queue was made. A value
that is pushed is taken in exactly when it does not wait at that moment. The value that leaves is
the one that waits first, and it can come in again at once. -/
theorem run_isFifo (o : Origin α) : ∃ made, empty.run o.operations = (made, o.queue) ∧
    ∀ ops, ∃ events q, o.queue.run ops = (events, q) ∧ q.IsIndexed ∧
      handedOut events ++ q.toList = taken made ++ taken events ∧
      (∀ x, ∃ isTaken, o.queue.run (ops ++ [.push x]) =
        (events ++ [.pushed x isTaken], (q.push x).2) ∧ (isTaken = true ↔ x ∉ q.toList)) ∧
      (∃ rest, o.queue.run (ops ++ [.pop]) = (events ++ [.popped q.toList.head?], rest)) ∧
      ∀ x, q.toList.head? = some x → ∃ again, o.queue.run (ops ++ [.pop, .push x]) =
        (events ++ [.popped (some x), .pushed x true], again) := by
  obtain ⟨hqueue, -⟩ := o.run_operations
  refine ⟨_, Prod.ext rfl hqueue, fun ops => ⟨_, _, rfl, o.isIndexed_queue.run ops, ?_⟩⟩
  have hindexed := o.isIndexed_queue.run ops
  refine ⟨o.toList_queue ▸ run_balance o.queue ops, fun x => ?_, ?_, fun x hx => ?_⟩
  · exact ⟨_, run_append _ _ _, hindexed.push_fst_iff⟩
  · rw [run_append, ← apply_pop_fst]
    exact ⟨_, rfl⟩
  · obtain ⟨rest, hpop⟩ := exists_pop?_of_head? hx
    rw [run_append, run, apply_pop_of_eq_some hpop, run, apply, hindexed.push_of_pop? hpop]
    exact ⟨_, rfl⟩

/-- A list in which a value comes twice. -/
def repeated : Origin Nat := .ofList [1, 2, 1, 3]

/-- The value that has left comes in again, and another one does not while it waits. -/
theorem run_isFifo_repeated : ∃ made events q,
    empty.run repeated.operations = (made, repeated.queue) ∧
    repeated.queue.run [.pop, .push 1, .push 2, .pop, .pop] = (events, q) ∧ q.IsIndexed ∧
    handedOut events ++ q.toList = taken made ++ taken events ∧
    events = [.popped (some 1), .pushed 1 true, .pushed 2 false, .popped (some 2),
      .popped (some 3)] ∧ taken made = [1, 2, 3] ∧ q.toList = [1] := by
  have hcheck : taken (empty.run repeated.operations).1 = [1, 2, 3] ∧
      (repeated.queue.run [.pop, .push 1, .push 2, .pop, .pop]).1 = [.popped (some 1),
        .pushed 1 true, .pushed 2 false, .popped (some 2), .popped (some 3)] ∧
      (repeated.queue.run [.pop, .push 1, .push 2, .pop, .pop]).2.toList = [1] := by
    decide +kernel
  obtain ⟨made, hmade, hruns⟩ := run_isFifo repeated
  obtain ⟨events, q, hrun, hindexed, horder, -⟩ := hruns [.pop, .push 1, .push 2, .pop, .pop]
  rw [hmade, hrun] at hcheck
  obtain ⟨htaken, hevents, hwaiting⟩ := hcheck
  exact ⟨made, events, q, hmade, hrun, hindexed, horder, hevents, htaken, hwaiting⟩

end Queue

end Lalr
