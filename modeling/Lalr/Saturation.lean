/-!
# Repeating a pass until it changes nothing

A pass makes a list of steps, each of which says whether it has changed something. `saturate` makes
passes until one of them has changed nothing. It ends because a measure of what is still missing
gets smaller with every change.

- `Progresses`: steps that say the truth, and whose changes lessen the measure.
- `pass_saturate`: a further pass changes nothing.
- `saturate_induction`: what holds at the start and is kept by every step holds of the result.
-/

namespace Lalr

variable {α β : Type}

/-- Makes one step more, and says whether it or a step before it has changed something. -/
def passStep (step : α → β → Bool × α) (before : Bool × α) (b : β) : Bool × α :=
  let (changes, a) := step before.2 b
  (before.1 || changes, a)

/-- Makes the steps one by one, and says whether one of them has changed something. -/
def pass (step : α → β → Bool × α) (bs : List β) (a : α) : Bool × α :=
  bs.foldl (passStep step) (false, a)

variable {step : α → β → Bool × α} {missing : α → Nat} {bs : List β}

/-- What was changed before does not matter for the value. -/
theorem foldl_passStep (changed : Bool) (a : α) : bs.foldl (passStep step) (changed, a) =
    (changed || (pass step bs a).1, (pass step bs a).2) := by
  induction bs generalizing changed a with
  | nil => simp [pass]
  | cons b bs ih => rw [pass, List.foldl_cons, List.foldl_cons, passStep, passStep, ih, ih,
      Bool.false_or, Bool.or_assoc]

theorem pass_cons (b : β) (a : α) : pass step (b :: bs) a =
    ((step a b).1 || (pass step bs (step a b).2).1, (pass step bs (step a b).2).2) := by
  rw [pass, List.foldl_cons, passStep, foldl_passStep, Bool.false_or]

/-- Each step says the truth about whether it changes something, and a change lessens what is
missing. -/
structure Progresses (step : α → β → Bool × α) (missing : α → Nat) (bs : List β) : Prop where
  idle : ∀ b ∈ bs, ∀ a, (step a b).1 = false → (step a b).2 = a
  less : ∀ b ∈ bs, ∀ a, (step a b).1 = true → missing (step a b).2 < missing a

namespace Progresses

theorem tail {b : β} (h : Progresses step missing (b :: bs)) : Progresses step missing bs :=
  ⟨fun c m => h.idle c (List.mem_cons_of_mem b m), fun c m => h.less c (List.mem_cons_of_mem b m)⟩

/-- If a pass has changed nothing, none of its steps has. -/
theorem idle_of_pass (h : Progresses step missing bs) {a : α} (none : (pass step bs a).1 = false) :
    (pass step bs a).2 = a ∧ ∀ b ∈ bs, (step a b).1 = false := by
  induction bs generalizing a with
  | nil => exact ⟨rfl, nofun⟩
  | cons b bs ih =>
    rw [pass_cons, Bool.or_eq_false_iff] at none
    have first := h.idle b List.mem_cons_self a none.1
    rw [first] at none
    obtain ⟨same, rest⟩ := ih h.tail none.2
    rw [pass_cons, first]
    exact ⟨same, List.forall_mem_cons.2 ⟨none.1, rest⟩⟩

theorem pass_le (h : Progresses step missing bs) (a : α) :
    missing (pass step bs a).2 ≤ missing a := by
  induction bs generalizing a with
  | nil => exact Nat.le_refl _
  | cons b bs ih =>
    rw [pass_cons]
    refine Nat.le_trans (ih h.tail _) ?_
    cases changes : (step a b).1 with
    | false => exact Nat.le_of_eq (congrArg missing (h.idle b List.mem_cons_self a changes))
    | true => exact Nat.le_of_lt (h.less b List.mem_cons_self a changes)

theorem pass_lt (h : Progresses step missing bs) {a : α} (some : (pass step bs a).1 = true) :
    missing (pass step bs a).2 < missing a := by
  induction bs generalizing a with
  | nil => cases some
  | cons b bs ih =>
    rw [pass_cons] at some ⊢
    cases changes : (step a b).1 with
    | false =>
      rw [changes, Bool.false_or] at some
      rw [h.idle b List.mem_cons_self a changes] at some ⊢
      exact ih h.tail some
    | true => exact Nat.lt_of_le_of_lt (h.tail.pass_le _) (h.less b List.mem_cons_self a changes)

end Progresses

/-- Makes passes until one of them has changed nothing. -/
def saturate (step : α → β → Bool × α) (missing : α → Nat) (bs : List β)
    (progresses : Progresses step missing bs) (a : α) : α :=
  let next := pass step bs a
  if _ : next.1 = true then saturate step missing bs progresses next.2 else next.2
termination_by missing a
decreasing_by exact progresses.pass_lt ‹_›

variable {progresses : Progresses step missing bs}

/-- A further pass changes nothing. -/
theorem pass_saturate (a : α) : pass step bs (saturate step missing bs progresses a) =
    (false, saturate step missing bs progresses a) := by
  fun_induction saturate step missing bs progresses a with
  | case1 a next some ih => exact ih
  | case2 a next none =>
    have none : (pass step bs a).1 = false := Bool.eq_false_iff.2 none
    have same := (progresses.idle_of_pass none).1
    show pass step bs (pass step bs a).2 = (false, (pass step bs a).2)
    rw [same, Prod.ext_iff]
    exact ⟨none, same⟩

/-- No step changes the result. -/
theorem step_saturate {b : β} (mem : b ∈ bs) (a : α) :
    (step (saturate step missing bs progresses a) b).1 = false :=
  (progresses.idle_of_pass (congrArg Prod.fst (pass_saturate a))).2 b mem

theorem pass_induction {P : α → Prop} {a : α} (start : P a)
    (kept : ∀ b ∈ bs, ∀ a, P a → P (step a b).2) : P (pass step bs a).2 := by
  induction bs generalizing a with
  | nil => exact start
  | cons b bs ih =>
    rw [pass_cons]
    exact ih (kept b List.mem_cons_self a start) fun c m => kept c (List.mem_cons_of_mem b m)

/-- What holds at the start and is kept by every step holds of the result. -/
theorem saturate_induction {P : α → Prop} {a : α} (start : P a)
    (kept : ∀ b ∈ bs, ∀ a, P a → P (step a b).2) : P (saturate step missing bs progresses a) := by
  fun_induction saturate step missing bs progresses a with
  | case1 a next some ih => exact ih (pass_induction start kept)
  | case2 a next none => exact pass_induction start kept

/-! ## Measures -/

/-- Fewer members of a list have the stronger property if some member has only the weaker one. -/
theorem countP_lt_countP {α : Type} {p q : α → Bool} {xs : List α} {x : α}
    (weaker : ∀ y ∈ xs, p y = true → q y = true) (mem : x ∈ xs) (no : p x = false)
    (yes : q x = true) : xs.countP p < xs.countP q := by
  obtain ⟨before, after, rfl⟩ := List.append_of_mem mem
  have := List.countP_mono_left fun y m => weaker y (List.mem_append_left _ m)
  have := List.countP_mono_left fun y m =>
    weaker y (List.mem_append_right _ (List.mem_cons_of_mem _ m))
  simp only [List.countP_append, List.countP_cons, no, yes, Bool.false_eq_true, if_false, if_true]
  omega

end Lalr
