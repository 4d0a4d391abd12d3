/-!
# Sequences of operations that may fail

An operation that may fail is a value of `Except ε α`. These lemmas open sequences of such
operations: a sequence has a result exactly when each of its parts has one.
-/

namespace Lalr

variable {ε ε' α β : Type}

theorem bind_eq_ok_iff {x : Except ε α} {f : α → Except ε β} {b : β} :
    (x >>= f) = .ok b ↔ ∃ a, x = .ok a ∧ f a = .ok b := by
  cases x <;> simp [bind, Except.bind]

theorem map_eq_ok_iff {x : Except ε α} {f : α → β} {b : β} :
    (f <$> x) = .ok b ↔ ∃ a, x = .ok a ∧ f a = b := by
  cases x <;> simp [Functor.map, Except.map]

theorem pure_eq_ok_iff {a b : α} : (pure a : Except ε α) = .ok b ↔ a = b := by
  simp [pure, Except.pure]

theorem foldlM_cons_eq_ok_iff {f : β → α → Except ε β} {a : α} {as : List α} {b c : β} :
    (a :: as).foldlM f b = .ok c ↔ ∃ d, f b a = .ok d ∧ as.foldlM f d = .ok c := by
  rw [List.foldlM_cons, bind_eq_ok_iff]

theorem foldlM_nil_eq_ok_iff {f : β → α → Except ε β} {b c : β} :
    ([] : List α).foldlM f b = .ok c ↔ b = c := by simp [pure, Except.pure]

/-- What holds at the start and is kept by every step that succeeds holds of the result of all
steps. -/
theorem foldlM_induction {P : β → Prop} {f : β → α → Except ε β} {as : List α} {b c : β}
    (h : as.foldlM f b = .ok c) (start : P b)
    (kept : ∀ a ∈ as, ∀ d e, P d → f d a = .ok e → P e) : P c := by
  induction as generalizing b with
  | nil => exact foldlM_nil_eq_ok_iff.1 h ▸ start
  | cons a as ih =>
    obtain ⟨d, step, rest⟩ := foldlM_cons_eq_ok_iff.1 h
    exact ih rest (kept a List.mem_cons_self b d start step)
      fun a m => kept a (List.mem_cons_of_mem _ m)

/-- The same for a property that depends on the steps made so far. -/
theorem foldlM_prefix_induction {P : List α → β → Prop} {f : β → α → Except ε β} {as : List α}
    {b c : β} (h : as.foldlM f b = .ok c) (start : P [] b)
    (kept : ∀ done a d e, done ++ [a] <+: as → P done d → f d a = .ok e → P (done ++ [a]) e) :
    P as c := by
  suffices later : ∀ todo done d, done ++ todo = as → P done d → todo.foldlM f d = .ok c →
      P as c from
    later as [] b rfl start h
  intro todo
  induction todo with
  | nil =>
    intro done d same holds h
    rw [List.append_nil] at same
    exact foldlM_nil_eq_ok_iff.1 h ▸ same ▸ holds
  | cons a todo ih =>
    intro done d same holds h
    obtain ⟨e, step, rest⟩ := foldlM_cons_eq_ok_iff.1 h
    rw [List.append_cons] at same
    exact ih (done ++ [a]) e same (kept done a d e ⟨todo, same⟩ holds step) rest

/-- Steps that keep a relation to other steps have results together that are related. -/
theorem exists_foldlM_of_rel {γ : Type} {R : β → γ → Prop} {f : β → α → Except ε β}
    {f' : γ → α → Except ε γ} {as : List α} {b c : β} {b' : γ} (h : as.foldlM f b = .ok c)
    (start : R b b')
    (kept : ∀ {a d e d'}, R d d' → f d a = .ok e → ∃ e', f' d' a = .ok e' ∧ R e e') :
    ∃ c', as.foldlM f' b' = .ok c' ∧ R c c' := by
  induction as generalizing b b' with
  | nil => exact ⟨b', foldlM_nil_eq_ok_iff.2 rfl, foldlM_nil_eq_ok_iff.1 h ▸ start⟩
  | cons a as ih =>
    obtain ⟨d, step, rest⟩ := foldlM_cons_eq_ok_iff.1 h
    obtain ⟨d', step', related⟩ := kept start step
    obtain ⟨c', rest', last⟩ := ih rest related
    exact ⟨c', foldlM_cons_eq_ok_iff.2 ⟨d', step', rest'⟩, last⟩

/-- The results of a sequence of independent operations. -/
theorem mem_of_mapM_eq_ok {f : α → Except ε β} {as : List α} {bs : List β}
    (h : as.mapM f = .ok bs) (b : β) : b ∈ bs ↔ ∃ a ∈ as, f a = .ok b := by
  induction as generalizing bs with
  | nil =>
    rw [List.mapM_nil, pure_eq_ok_iff] at h
    simp [← h]
  | cons a as ih =>
    rw [List.mapM_cons] at h
    obtain ⟨c, first, h⟩ := bind_eq_ok_iff.1 h
    obtain ⟨cs, rest, h⟩ := bind_eq_ok_iff.1 h
    rw [← pure_eq_ok_iff.1 h, List.mem_cons, ih rest]
    simp [first, eq_comm]

/-- A filter whose tests all have a result. -/
theorem filterM_eq_ok {f : α → Except ε Bool} {p : α → Bool} {as : List α}
    (h : ∀ a ∈ as, f a = .ok (p a)) : as.filterM f = .ok (as.filter p) := by
  have aux (acc : List α) : as.filterAuxM f acc = .ok ((as.filter p).reverse ++ acc) := by
    induction as generalizing acc with
    | nil => rfl
    | cons a as ih =>
      rw [List.filterAuxM, h a List.mem_cons_self]
      refine (ih (fun b m => h b (List.mem_cons_of_mem _ m)) _).trans ?_
      cases same : p a <;> simp [same]
  refine bind_eq_ok_iff.2 ⟨_, aux [], ?_⟩
  simp [pure_eq_ok_iff]

end Lalr
