import Lalr.Outcome

/-!
# Which failures are possible

The lemmas on outcomes say what holds when an operation has a result. These say
how an operation may fail, up to not at all.

- `FailsOnly`: every failure is one of those that are allowed.
- `NeverFails`: none is allowed, so there is a result
  (`NeverFails.exists_eq_ok`).

A sequence of operations fails only as its parts do, and a part that comes later
has to be looked at only for what the parts before it can have as their result.
-/

namespace Lalr

variable {ε α β : Type} {allowed other : ε → Prop} {x : Except ε α}

/-- If the operation fails, then in a way that is allowed. -/
def FailsOnly (allowed : ε → Prop) (x : Except ε α) : Prop := ∀ e, x = .error e → allowed e

/-- The operation has a result. -/
abbrev NeverFails (x : Except ε α) : Prop := FailsOnly (fun _ => False) x

theorem failsOnly_of_eq_ok {a : α} (h : x = .ok a) : FailsOnly allowed x := by
  rintro e rfl
  cases h

theorem neverFails_of_eq_ok {a : α} (h : x = .ok a) : NeverFails x := failsOnly_of_eq_ok h

theorem failsOnly_pure (a : α) : FailsOnly allowed (pure a : Except ε α) := failsOnly_of_eq_ok rfl

theorem failsOnly_error {e : ε} (h : allowed e) : FailsOnly allowed (.error e : Except ε α) := by
  intro e' he
  cases he
  exact h

theorem FailsOnly.mono (h : FailsOnly allowed x) (hsub : ∀ e, allowed e → other e) :
    FailsOnly other x := fun e he => hsub e (h e he)

/-- There is a result, or an allowed failure. -/
theorem FailsOnly.exists_eq (h : FailsOnly allowed x) :
    (∃ a, x = .ok a) ∨ ∃ e, x = .error e ∧ allowed e := by
  cases x with
  | ok a => exact .inl ⟨a, rfl⟩
  | error e => exact .inr ⟨e, rfl, h e rfl⟩

theorem NeverFails.exists_eq_ok (h : NeverFails x) : ∃ a, x = .ok a := by
  rcases FailsOnly.exists_eq h with hok | ⟨e, -, hfalse⟩
  · exact hok
  · exact hfalse.elim

/-- The second part of a sequence is looked at for the results of the first part only. -/
theorem FailsOnly.bind {f : α → Except ε β} (hx : FailsOnly allowed x)
    (hf : ∀ a, x = .ok a → FailsOnly allowed (f a)) : FailsOnly allowed (x >>= f) := by
  cases x with
  | ok a => exact hf a rfl
  | error e => exact failsOnly_error (hx e rfl)

/-- A first part whose result is known is passed over. -/
theorem failsOnly_bind_of_eq_ok {f : α → Except ε β} {a : α} (hx : x = .ok a)
    (hf : FailsOnly allowed (f a)) : FailsOnly allowed (x >>= f) := by
  subst hx
  exact hf

theorem FailsOnly.map {f : α → β} (hx : FailsOnly allowed x) : FailsOnly allowed (f <$> x) := by
  cases x with
  | ok a => exact failsOnly_of_eq_ok rfl
  | error e => exact failsOnly_error (hx e rfl)

/-- Steps that keep an invariant fail only as each of them does where the invariant holds. -/
theorem failsOnly_foldlM {P : List α → β → Prop} {f : β → α → Except ε β} {as : List α} {b : β}
    (start : P [] b)
    (fails : ∀ done a d, done ++ [a] <+: as → P done d → FailsOnly allowed (f d a))
    (kept : ∀ done a d e, done ++ [a] <+: as → P done d → f d a = .ok e → P (done ++ [a]) e) :
    FailsOnly allowed (as.foldlM f b) := by
  suffices later : ∀ todo done d, done ++ todo = as → P done d →
      FailsOnly allowed (todo.foldlM f d) from later as [] b rfl start
  intro todo
  induction todo with
  | nil => exact fun _ d _ _ => failsOnly_pure d
  | cons a todo ih =>
    intro done d same holds
    rw [List.append_cons] at same
    rw [List.foldlM_cons]
    exact (fails done a d ⟨todo, same⟩ holds).bind fun e step =>
      ih (done ++ [a]) e same (kept done a d e ⟨todo, same⟩ holds step)

/-- Operations on the members of a list fail only as each of them does. -/
theorem failsOnly_mapM {f : α → Except ε β} {as : List α}
    (each : ∀ a ∈ as, FailsOnly allowed (f a)) : FailsOnly allowed (as.mapM f) := by
  induction as with
  | nil => exact failsOnly_pure []
  | cons a as ih =>
    rw [List.mapM_cons]
    exact (each a List.mem_cons_self).bind fun _ _ =>
      (ih fun a' mem => each a' (List.mem_cons_of_mem a mem)).bind fun _ _ => failsOnly_pure _

end Lalr
