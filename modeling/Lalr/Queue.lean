import Std.Data.TreeSet

/-!
# Queues without waiting duplicates

A `Queue` hands its values out in the order in which they came in, and takes no value that already
waits. A value that has left may come in again. An index of the waiting values makes the test for a
duplicate cheap.

- `toList` is the view: the waiting values, the one that leaves next first.
- `toList_push`, `toList_eq_cons_of_pop?` and `pop?_eq_none_iff` say what the operations do to it.
- `IsIndexed` says that the index holds exactly the waiting values, each of which waits once; every
  operation keeps it.
-/

namespace Lalr

/-- A first-in first-out queue in which no value waits twice: the values at its front, those behind
them from the last one on, and an index of all of them. -/
structure Queue (α : Type) [Ord α] where
  front : List α
  back : List α
  waiting : Std.TreeSet α

namespace Queue

variable {α : Type} [Ord α]

/-- The queue in which nothing waits. -/
def empty : Queue α := ⟨[], [], ∅⟩

/-- The queue in which nothing waits, made for `capacity` values. A queue takes any number of
values, so nothing depends on the capacity. -/
def emptyWithCapacity (_capacity : Nat) : Queue α := empty

/-- The waiting values, the one that leaves next first. -/
def toList (q : Queue α) : List α := q.front ++ q.back.reverse

/-- The number of waiting values. -/
def size (q : Queue α) : Nat := q.front.length + q.back.length

/-- Whether nothing waits. -/
def isEmpty (q : Queue α) : Bool := q.front.isEmpty && q.back.isEmpty

/-- Lets `x` wait, unless it already does; says whether it was taken. -/
def push (q : Queue α) (x : α) : Bool × Queue α :=
  match q with
  | ⟨front, back, waiting⟩ =>
    if x ∈ waiting then (false, ⟨front, back, waiting⟩)
    else (true, ⟨front, x :: back, waiting.insert x⟩)

/-- Takes out the value that came in first. -/
def pop? (q : Queue α) : Option (α × Queue α) :=
  match q with
  | ⟨x :: front, back, waiting⟩ => some (x, ⟨front, back, waiting.erase x⟩)
  | ⟨[], back, waiting⟩ =>
    -- the newer values take their turn
    match back.reverse with
    | [] => none
    | x :: front => some (x, ⟨front, [], waiting.erase x⟩)

/-- Takes out all values, in the order in which they came in. -/
def drain (q : Queue α) : List α × Queue α := (q.toList, empty)

/-- The queue after the values of a list came in one by one. -/
def ofList (xs : List α) : Queue α := xs.foldl (fun q x => (q.push x).2) empty

/-! ## The waiting values -/

@[simp] theorem toList_empty : (empty : Queue α).toList = [] := rfl

@[simp] theorem length_toList (q : Queue α) : q.toList.length = q.size := by simp [toList, size]

theorem toList_push (q : Queue α) (x : α) :
    (q.push x).2.toList = if x ∈ q.waiting then q.toList else q.toList ++ [x] := by
  unfold push
  split
  split <;> simp_all [toList]

theorem push_fst (q : Queue α) (x : α) : (q.push x).1 = decide (x ∉ q.waiting) := by
  unfold push
  split
  split <;> simp_all

theorem size_push_le (q : Queue α) (x : α) : (q.push x).2.size ≤ q.size + 1 := by
  rw [← length_toList, ← length_toList, toList_push]
  split <;> simp

theorem pop?_eq_none_iff {q : Queue α} : q.pop? = none ↔ q.toList = [] := by
  unfold pop? toList
  split
  · simp
  · split <;> simp_all

theorem toList_eq_cons_of_pop? {q rest : Queue α} {x : α} (h : q.pop? = some (x, rest)) :
    q.toList = x :: rest.toList := by
  unfold pop? at h
  split at h
  · cases h
    simp [toList]
  · split at h
    · cases h
    · next reversed =>
      cases h
      simp [toList, reversed]

theorem size_of_pop? {q rest : Queue α} {x : α} (h : q.pop? = some (x, rest)) :
    q.size = rest.size + 1 := by
  rw [← length_toList, toList_eq_cons_of_pop? h, List.length_cons, length_toList]

/-! ## The index -/

/-- The index holds exactly the waiting values, and none waits twice. -/
structure IsIndexed (q : Queue α) : Prop where
  mem_iff : ∀ x, x ∈ q.waiting ↔ x ∈ q.toList
  nodup : q.toList.Nodup

theorem isIndexed_empty : (empty : Queue α).IsIndexed := ⟨by simp [empty, toList], .nil⟩

variable [Std.TransOrd α] [Std.LawfulEqOrd α]

theorem IsIndexed.push {q : Queue α} (h : q.IsIndexed) (x : α) : (q.push x).2.IsIndexed := by
  obtain ⟨front, back, waiting⟩ := q
  unfold Queue.push
  dsimp only
  split
  · exact h
  · next absent =>
    have fresh : x ∉ front ++ back.reverse := fun m => absent ((h.mem_iff x).2 m)
    refine ⟨fun y => ?_, ?_⟩
    · have := h.mem_iff y
      simp only [toList, Std.TreeSet.mem_insert, Std.LawfulEqOrd.compare_eq_iff_eq] at this ⊢
      rw [this]
      grind
    · have := h.nodup
      simp only [toList] at this ⊢
      grind [List.nodup_append]

theorem IsIndexed.pop? {q rest : Queue α} {x : α} (h : q.IsIndexed)
    (k : q.pop? = some (x, rest)) : rest.IsIndexed := by
  have erased : rest.waiting = q.waiting.erase x := by
    unfold Queue.pop? at k
    split at k
    · cases k
      rfl
    · split at k <;> cases k
      rfl
  have listed := toList_eq_cons_of_pop? k
  have nodup := h.nodup
  rw [listed, List.nodup_cons] at nodup
  refine ⟨fun y => ?_, nodup.2⟩
  rw [erased, Std.TreeSet.mem_erase, h.mem_iff, listed, Ne, Std.LawfulEqOrd.compare_eq_iff_eq]
  grind

end Queue

end Lalr
