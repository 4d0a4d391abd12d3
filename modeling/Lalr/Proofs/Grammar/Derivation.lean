import Lalr.Grammar.Basic
import Mathlib.Logic.Relation

/-!
# Derivations

What the productions of a grammar derive, independent of any table.

- `Grammar.Expands`: what a production expands, and to what.
- `Grammar.Produces`, `Grammar.Derives`: one expansion anywhere in a string of
  symbols, and any number of them.
- `Grammar.ProducesRightmost`, `Grammar.DerivesRightmost`: the same for the
  last nonterminal only.
- `Grammar.Nullable`, `Grammar.First`: a string derives the empty string; a
  terminal begins some string derived from it.

A derivation from `α ++ β` is a derivation from `α` beside one from `β`
(`derives_append_iff`); everything about concatenations follows from that.
-/

namespace Lalr

namespace Grammar

variable {g : Grammar} {p q : ProductionId} {n m : NonterminalId} {t u : TerminalId}
variable {α β γ δ right : List Symbol}

/-- Production `p` expands the nonterminal `n` to `right`. -/
def Expands (g : Grammar) (p : ProductionId) (n : NonterminalId) (right : List Symbol) : Prop :=
  ∃ production, g.productions[p]? = some production ∧ production.left = n ∧
    production.right.toList = right

/-- A production is determined by its number. -/
theorem Expands.unique {right' : List Symbol} (h : g.Expands p n right)
    (h' : g.Expands p m right') : n = m ∧ right = right' := by
  obtain ⟨production, hp, rfl, rfl⟩ := h
  obtain ⟨production', hp', rfl, rfl⟩ := h'
  cases hp.symm.trans hp'
  exact ⟨rfl, rfl⟩

/-- One nonterminal of a string is expanded. -/
inductive Produces (g : Grammar) : List Symbol → List Symbol → Prop where
  | expand {p : ProductionId} {n : NonterminalId} {right : List Symbol}
      (h : g.Expands p n right) (pre post : List Symbol) :
    Produces g (pre ++ .nonterminal n :: post) (pre ++ right ++ post)

/-- Any number of expansions. -/
def Derives (g : Grammar) : List Symbol → List Symbol → Prop :=
  Relation.ReflTransGen g.Produces

/-- The last nonterminal of a string is expanded: only terminals follow it. -/
inductive ProducesRightmost (g : Grammar) : List Symbol → List Symbol → Prop where
  | expand {p : ProductionId} {n : NonterminalId} {right : List Symbol}
      (h : g.Expands p n right) (pre : List Symbol) (w : List TerminalId) :
    ProducesRightmost g (pre ++ .nonterminal n :: w.map .terminal)
      (pre ++ right ++ w.map .terminal)

/-- Any number of expansions of the last nonterminal. -/
def DerivesRightmost (g : Grammar) : List Symbol → List Symbol → Prop :=
  Relation.ReflTransGen g.ProducesRightmost

/-- The string derives the empty string. -/
def Nullable (g : Grammar) (α : List Symbol) : Prop := g.Derives α []

/-- The terminal begins some string that `α` derives. -/
def First (g : Grammar) (α : List Symbol) (t : TerminalId) : Prop :=
  ∃ rest, g.Derives α (.terminal t :: rest)

/-! ## Derivations in context -/

theorem Produces.append_left (h : g.Produces α β) (pre : List Symbol) :
    g.Produces (pre ++ α) (pre ++ β) := by
  cases h with
  | expand h pre' post =>
    have := Produces.expand h (pre ++ pre') post
    simpa only [List.append_assoc] using this

theorem Produces.append_right (h : g.Produces α β) (post : List Symbol) :
    g.Produces (α ++ post) (β ++ post) := by
  cases h with
  | expand h pre post' =>
    have := Produces.expand h pre (post' ++ post)
    simpa only [List.append_assoc, List.cons_append] using this

theorem Derives.append (h : g.Derives α γ) (h' : g.Derives β δ) :
    g.Derives (α ++ β) (γ ++ δ) := by
  have hleft : g.Derives (α ++ β) (γ ++ β) := by
    induction h with
    | refl => exact .refl
    | tail _ hstep ih => exact ih.tail (hstep.append_right β)
  induction h' with
  | refl => exact hleft
  | tail _ hstep ih => exact ih.tail (hstep.append_left γ)

/-- An element of a concatenation stands in one of its two parts. -/
theorem append_cons_eq_append {A : Type} {xs ys s t : List A} {a : A}
    (h : xs ++ a :: ys = s ++ t) :
    (∃ mid, s = xs ++ a :: mid ∧ ys = mid ++ t) ∨ ∃ mid, xs = s ++ mid ∧ t = mid ++ a :: ys := by
  rcases List.append_eq_append_iff.mp h with ⟨mid, hs, hmid⟩ | ⟨mid, hs, hmid⟩
  · cases mid with
    | nil =>
      rw [List.append_nil] at hs
      exact .inr ⟨[], by rw [hs, List.append_nil], hmid.symm⟩
    | cons b mid =>
      rw [List.cons_append, List.cons.injEq] at hmid
      exact .inl ⟨mid, hmid.1 ▸ hs, hmid.2⟩
  · exact .inr ⟨mid, hs, hmid⟩

/-- An expansion in a concatenation happens in one of its two parts. -/
theorem Produces.of_append (h : g.Produces (α ++ β) δ) :
    (∃ α', g.Produces α α' ∧ δ = α' ++ β) ∨ ∃ β', g.Produces β β' ∧ δ = α ++ β' := by
  generalize hs : α ++ β = s at h
  cases h with
  | @expand p n right h pre post =>
    rcases append_cons_eq_append hs.symm with ⟨mid, rfl, rfl⟩ | ⟨mid, rfl, rfl⟩
    · exact .inl ⟨pre ++ right ++ mid, .expand h pre mid, by simp only [List.append_assoc]⟩
    · exact .inr ⟨mid ++ right ++ post, .expand h mid post, by simp only [List.append_assoc]⟩

/-- The parts of a concatenation are derived from independently. -/
theorem derives_append_iff :
    g.Derives (α ++ β) δ ↔ ∃ δ₁ δ₂, δ = δ₁ ++ δ₂ ∧ g.Derives α δ₁ ∧ g.Derives β δ₂ := by
  constructor
  · intro h
    induction h with
    | refl => exact ⟨α, β, rfl, .refl, .refl⟩
    | tail _ hstep ih =>
      obtain ⟨δ₁, δ₂, rfl, h₁, h₂⟩ := ih
      rcases hstep.of_append with ⟨δ₁', hstep₁, rfl⟩ | ⟨δ₂', hstep₂, rfl⟩
      · exact ⟨δ₁', δ₂, rfl, h₁.tail hstep₁, h₂⟩
      · exact ⟨δ₁, δ₂', rfl, h₁, h₂.tail hstep₂⟩
  · rintro ⟨δ₁, δ₂, rfl, h₁, h₂⟩
    exact h₁.append h₂

theorem nonterminal_not_mem_map_terminal (w : List TerminalId) :
    Symbol.nonterminal n ∉ w.map Symbol.terminal := by
  intro h
  obtain ⟨t, -, ht⟩ := List.mem_map.mp h
  cases ht

/-- Terminals stay as they are. -/
theorem derives_map_terminal_iff {w : List TerminalId} :
    g.Derives (w.map .terminal) δ ↔ δ = w.map .terminal := by
  constructor
  · intro h
    induction h with
    | refl => rfl
    | tail _ hstep ih =>
      subst ih
      generalize hs : w.map Symbol.terminal = s at hstep
      cases hstep with
      | @expand p n right h pre post =>
        exact absurd (by simp [hs]) (nonterminal_not_mem_map_terminal (n := n) w)
  · rintro rfl
    exact .refl

/-! ## Strings that derive the empty string -/

theorem nullable_nil : g.Nullable [] := .refl

theorem nullable_append_iff : g.Nullable (α ++ β) ↔ g.Nullable α ∧ g.Nullable β := by
  refine derives_append_iff.trans ⟨?_, fun ⟨h₁, h₂⟩ => ⟨[], [], rfl, h₁, h₂⟩⟩
  rintro ⟨δ₁, δ₂, hnil, h₁, h₂⟩
  obtain ⟨rfl, rfl⟩ := List.append_eq_nil_iff.mp hnil.symm
  exact ⟨h₁, h₂⟩

theorem nullable_cons_iff {X : Symbol} : g.Nullable (X :: β) ↔ g.Nullable [X] ∧ g.Nullable β :=
  nullable_append_iff (α := [X])

theorem Expands.nullable (h : g.Expands p n right) (hr : g.Nullable right) :
    g.Nullable [.nonterminal n] := by
  refine Relation.ReflTransGen.head ?_ hr
  simpa using Produces.expand h [] []

/-! ## Terminals that come first -/

theorem first_append_iff : g.First (α ++ β) t ↔ g.First α t ∨ g.Nullable α ∧ g.First β t := by
  constructor
  · rintro ⟨rest, h⟩
    obtain ⟨δ₁, δ₂, heq, h₁, h₂⟩ := derives_append_iff.mp h
    cases δ₁ with
    | nil => exact .inr ⟨h₁, rest, heq ▸ h₂⟩
    | cons X δ₁ =>
      rw [List.cons_append, List.cons.injEq] at heq
      exact .inl ⟨δ₁, heq.1 ▸ h₁⟩
  · rintro (⟨rest, h⟩ | ⟨hnull, rest, h⟩)
    · exact ⟨rest ++ β, h.append .refl⟩
    · exact ⟨rest, hnull.append h⟩

theorem first_cons_iff {X : Symbol} :
    g.First (X :: β) t ↔ g.First [X] t ∨ g.Nullable [X] ∧ g.First β t :=
  first_append_iff (α := [X])

theorem not_first_nil : ¬g.First [] t := by
  rintro ⟨rest, h⟩
  cases (derives_map_terminal_iff (w := [])).mp h

theorem first_terminal_iff : g.First [.terminal t] u ↔ u = t := by
  constructor
  · rintro ⟨rest, h⟩
    cases (derives_map_terminal_iff (w := [t])).mp h
    rfl
  · rintro rfl
    exact ⟨[], .refl⟩

theorem Expands.first (h : g.Expands p n right) (hr : g.First right t) :
    g.First [.nonterminal n] t := by
  obtain ⟨rest, hr⟩ := hr
  refine ⟨rest, Relation.ReflTransGen.head ?_ hr⟩
  simpa using Produces.expand h [] []

end Grammar

end Lalr
