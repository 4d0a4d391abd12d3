import Lalr.Item.Basic
import Lalr.Proofs.Grammar.Defined
import Mathlib.Data.List.Induction

/-!
# Valid items

The items that are valid for a string of symbols, independent of any
automaton.

- `Dotted`: a production with a marker that may stand anywhere in it, the LR(0)
  items of the theory. `Core.dotted` is the view of a core as such an item.
- `Grammar.Closure`, `Grammar.ClosureLooks`: the least set above a kernel that is
  closed under prediction, and the lookaheads that come with it.
- `Grammar.Lr0Valid`, `Grammar.Lr1Valid`: validity for a string, without and
  with a lookahead.
- `lr0Valid_nil_iff`, `lr0Valid_concat_iff`: the valid items of a string are the
  closure of the items that come from the string without its last symbol. This
  is the subset construction.
- `lr1Valid_of_derivesRightmost`: what a rightmost derivation expands is a valid
  item, on the terminal that comes next.
-/

namespace Lalr

/-- A production with a marker behind its first `dot` symbols. -/
structure Dotted where
  production : ProductionId
  dot : Nat
deriving DecidableEq, Repr

/-- The item with the marker moved by one symbol. -/
def Dotted.advance (x : Dotted) : Dotted := { x with dot := x.dot + 1 }

/-- The item that a core stands for. -/
def Core.dotted (c : Core) : Dotted := ⟨c.production, c.dot.toNat⟩

theorem Core.dotted_inj {c d : Core} : c.dotted = d.dotted ↔ c = d := by
  cases c
  cases d
  simp [dotted, UInt16.toNat_inj]

namespace Grammar

variable {g : Grammar} {p q : ProductionId} {n m : NonterminalId} {t : TerminalId}
variable {X Y : Symbol} {α β γ δ right : List Symbol} {x y : Dotted}

/-- The symbol `X` stands after the marker of `x`, and `β` behind it. -/
def After (g : Grammar) (x : Dotted) (X : Symbol) (β : List Symbol) : Prop :=
  ∃ n right, g.Expands x.production n right ∧ right.drop x.dot = X :: β

theorem After.unique (h : g.After x X α) (h' : g.After x Y β) : X = Y ∧ α = β := by
  obtain ⟨n, right, hx, hdrop⟩ := h
  obtain ⟨n', right', hx', hdrop'⟩ := h'
  rw [(hx.unique hx').2, hdrop', List.cons.injEq] at hdrop
  exact ⟨hdrop.1.symm, hdrop.2.symm⟩

/-- A nonterminal stands after the marker of `x`, and `β` behind it; production `p` expands it. -/
def Predicts (g : Grammar) (x : Dotted) (p : ProductionId) (β : List Symbol) : Prop :=
  ∃ n right, g.After x (.nonterminal n) β ∧ g.Expands p n right

/-- The items that arise when the marker of an item in `items` moves over `X`. -/
def Advanced (g : Grammar) (X : Symbol) (items : Dotted → Prop) (y : Dotted) : Prop :=
  ∃ x β, items x ∧ g.After x X β ∧ y = x.advance

/-- The LR(0) closure: the kernel, and every production of a nonterminal after a marker with the
marker at its beginning. -/
inductive Closure (g : Grammar) (kernel : Dotted → Prop) : Dotted → Prop where
  | base {x : Dotted} (h : kernel x) : Closure g kernel x
  | predict {x : Dotted} {p : ProductionId} {β : List Symbol} (hx : Closure g kernel x)
      (hp : g.Predicts x p β) : Closure g kernel ⟨p, 0⟩

/-- The lookaheads in a closure: those given with the kernel, what begins the rest of an item that
predicts a production, and what an item looks at itself when that rest can be empty. -/
inductive ClosureLooks (g : Grammar) (kernel : Dotted → Prop) (given : Dotted → TerminalId → Prop) :
    Dotted → TerminalId → Prop where
  | given {x : Dotted} {t : TerminalId} (h : given x t) : ClosureLooks g kernel given x t
  | first {x : Dotted} {p : ProductionId} {β : List Symbol} {t : TerminalId}
      (hx : Closure g kernel x) (hp : g.Predicts x p β) (ht : g.First β t) :
    ClosureLooks g kernel given ⟨p, 0⟩ t
  | inherit {x : Dotted} {p : ProductionId} {β : List Symbol} {t : TerminalId}
      (hx : ClosureLooks g kernel given x t) (hp : g.Predicts x p β) (hβ : g.Nullable β) :
    ClosureLooks g kernel given ⟨p, 0⟩ t

/-- The LR(0) items that are valid for a string: the start of the augmented grammar for the empty
string, what a valid item predicts, and a valid item with the marker moved over one more symbol. -/
inductive Lr0Valid (g : Grammar) : List Symbol → Dotted → Prop where
  | start : Lr0Valid g [] ⟨acceptProduction, 0⟩
  | predict {γ : List Symbol} {x : Dotted} {p : ProductionId} {β : List Symbol}
      (hx : Lr0Valid g γ x) (hp : g.Predicts x p β) : Lr0Valid g γ ⟨p, 0⟩
  | shift {γ : List Symbol} {x : Dotted} {X : Symbol} {β : List Symbol}
      (hx : Lr0Valid g γ x) (hX : g.After x X β) : Lr0Valid g (γ ++ [X]) x.advance

/-- The LR(1) items, each with a lookahead, that are valid for a string. A predicted production looks
at what begins the rest of the item that predicts it and, when that rest can be empty, at what this
item looks at. -/
inductive Lr1Valid (g : Grammar) : List Symbol → Dotted → TerminalId → Prop where
  | start : Lr1Valid g [] ⟨acceptProduction, 0⟩ endOfInput
  | first {γ : List Symbol} {x : Dotted} {p : ProductionId} {β : List Symbol} {u : TerminalId}
      (hx : Lr0Valid g γ x) (hp : g.Predicts x p β) (hu : g.First β u) :
    Lr1Valid g γ ⟨p, 0⟩ u
  | inherit {γ : List Symbol} {x : Dotted} {p : ProductionId} {β : List Symbol} {u : TerminalId}
      (hx : Lr1Valid g γ x u) (hp : g.Predicts x p β) (hβ : g.Nullable β) :
    Lr1Valid g γ ⟨p, 0⟩ u
  | shift {γ : List Symbol} {x : Dotted} {X : Symbol} {β : List Symbol} {t : TerminalId}
      (hx : Lr1Valid g γ x t) (hX : g.After x X β) : Lr1Valid g (γ ++ [X]) x.advance t

theorem Lr1Valid.lr0Valid (h : g.Lr1Valid γ x t) : g.Lr0Valid γ x := by
  induction h with
  | start => exact .start
  | first hx hp _ => exact hx.predict hp
  | inherit _ hp _ ih => exact ih.predict hp
  | shift _ hX ih => exact ih.shift hX

/-- A valid item is one of a production, with the marker not behind its end. -/
theorem Lr0Valid.expands (wf : g.WellFormed) (h : g.Lr0Valid γ x) :
    ∃ n right, g.Expands x.production n right ∧ x.dot ≤ right.length := by
  induction h with
  | start => exact ⟨_, _, wf.accept, Nat.zero_le _⟩
  | predict _ hp =>
    obtain ⟨n, right, -, hp⟩ := hp
    exact ⟨n, right, hp, Nat.zero_le _⟩
  | @shift γ x X β _ hX =>
    obtain ⟨n, right, hp, hdrop⟩ := hX
    have hlt : x.dot < right.length := by
      have hlength := congrArg List.length hdrop
      rw [List.length_drop, List.length_cons] at hlength
      omega
    exact ⟨n, right, hp, hlt⟩

/-! ## The subset construction -/

/-- A closure depends on the members of its kernel only. -/
theorem Closure.mono {K L : Dotted → Prop} (h : g.Closure K x) (hsub : ∀ y, K y → L y) :
    g.Closure L x := by
  induction h with
  | base hx => exact .base (hsub _ hx)
  | predict _ hp ih => exact ih.predict hp

theorem closure_congr {K L : Dotted → Prop} (h : ∀ y, K y ↔ L y) :
    g.Closure K x ↔ g.Closure L x :=
  ⟨fun hx => hx.mono fun y => (h y).mp, fun hx => hx.mono fun y => (h y).mpr⟩

/-- Outside its kernel a closure has the marker at the beginning only. -/
theorem Closure.mem_or_dot_eq_zero {K : Dotted → Prop} (h : g.Closure K x) : K x ∨ x.dot = 0 := by
  cases h with
  | base hx => exact .inl hx
  | predict => exact .inr rfl

/-- The start of the augmented grammar is never predicted. -/
theorem Predicts.ne_accept (wf : g.WellFormed) (h : g.Predicts x p β) : p ≠ acceptProduction := by
  rintro rfl
  obtain ⟨n, right, ⟨m, right', hm, hdrop⟩, hn⟩ := h
  have hmem : .nonterminal n ∈ right' := List.mem_of_mem_drop (hdrop ▸ List.mem_cons_self)
  rw [(hn.unique wf.accept).1] at hmem
  exact wf.start_not_mem hm hmem

/-- So a closure has no items but those of its kernel with a symbol before the marker or with the
start. -/
theorem Closure.mem_kernel (wf : g.WellFormed) {K : Dotted → Prop} (h : g.Closure K x)
    (hx : 0 < x.dot ∨ x.production = acceptProduction) : K x := by
  cases h with
  | base hx => exact hx
  | predict _ hp =>
    rcases hx with hdot | heq
    · exact absurd hdot (Nat.lt_irrefl 0)
    · exact absurd heq (hp.ne_accept wf)

theorem advanced_congr {S T : Dotted → Prop} (h : ∀ y, S y ↔ T y) :
    g.Advanced X S x ↔ g.Advanced X T x := by
  simp only [Advanced, h]

theorem lr0Valid_nil_iff : g.Lr0Valid [] x ↔ g.Closure (· = ⟨acceptProduction, 0⟩) x := by
  constructor
  · intro h
    generalize hs : [] = s at h
    induction h with
    | start => exact .base rfl
    | predict _ hp ih => exact (ih hs).predict hp
    | shift => simp at hs
  · intro h
    induction h with
    | base hx => exact hx ▸ .start
    | predict _ hp ih => exact ih.predict hp

theorem lr0Valid_concat_iff :
    g.Lr0Valid (γ ++ [X]) x ↔ g.Closure (g.Advanced X (g.Lr0Valid γ)) x := by
  constructor
  · intro h
    generalize hs : γ ++ [X] = s at h
    induction h with
    | start => simp at hs
    | predict _ hp ih => exact (ih hs).predict hp
    | shift hx hX =>
      obtain ⟨rfl, hXY⟩ := List.append_inj' hs rfl
      cases hXY
      exact .base ⟨_, _, hx, hX, rfl⟩
  · intro h
    induction h with
    | base hx =>
      obtain ⟨y, β, hy, hX, rfl⟩ := hx
      exact hy.shift hX
    | predict _ hp ih => exact ih.predict hp

/-! ## Validity along a production -/

/-- What is kept when a marker moves over one symbol is kept along a right-hand side. -/
theorem shift_append_of_shift {P : List Symbol → Dotted → Prop}
    (hshift : ∀ γ x X β, P γ x → g.After x X β → P (γ ++ [X]) x.advance) (h : P γ ⟨p, 0⟩)
    (hp : g.Expands p n (α ++ β)) : P (γ ++ α) ⟨p, α.length⟩ := by
  induction α using List.reverseRecOn generalizing β with
  | nil => simpa using h
  | append_singleton α X ih =>
    rw [List.append_assoc] at hp
    have hX : g.After ⟨p, α.length⟩ X β := ⟨n, _, hp, List.drop_left⟩
    simpa [Dotted.advance] using hshift (γ ++ α) _ X β (ih hp) hX

/-- An item stays valid while its marker moves over symbols of its right-hand side. -/
theorem Lr0Valid.shift_append (h : g.Lr0Valid γ ⟨p, 0⟩) (hp : g.Expands p n (α ++ β)) :
    g.Lr0Valid (γ ++ α) ⟨p, α.length⟩ :=
  shift_append_of_shift (fun _ _ _ _ hx hX => hx.shift hX) h hp

/-- It stays valid on its lookahead, too. -/
theorem Lr1Valid.shift_append (h : g.Lr1Valid γ ⟨p, 0⟩ t) (hp : g.Expands p n (α ++ β)) :
    g.Lr1Valid (γ ++ α) ⟨p, α.length⟩ t :=
  shift_append_of_shift (P := fun γ x => g.Lr1Valid γ x t) (fun _ _ _ _ hx hX => hx.shift hX) h hp

/-! ## Rightmost derivations -/

/-- A nonterminal in a rightmost derivation, with what stands to its left and what is still to be
derived to its right: the left parts of the productions that lead to it, and the right ones. -/
inductive Spine (g : Grammar) : List Symbol → NonterminalId → List Symbol → Prop where
  | start : Spine g [] startNonterminal []
  | expand {γ δ α β : List Symbol} {n m : NonterminalId} {p : ProductionId}
      (h : Spine g γ n δ) (hp : g.Expands p n (α ++ .nonterminal m :: β)) :
    Spine g (γ ++ α) m (β ++ δ)

/-- Nothing to the left of a nonterminal is expanded before it is: so a nonterminal anywhere in a
right sentential form is at the end of a spine. -/
theorem exists_spine (h : g.DerivesRightmost [.nonterminal startNonterminal] δ) :
    ∀ α n β, δ = α ++ .nonterminal n :: β → ∃ rest, g.Spine α n rest ∧ g.Derives rest β := by
  induction h with
  | refl =>
    intro α n β heq
    rcases append_cons_eq_append (s := []) heq.symm with ⟨mid, hnil, -⟩ | ⟨mid, hα, heq⟩
    · simp at hnil
    · cases mid with
      | nil =>
        cases heq
        exact ⟨[], hα ▸ .start, .refl⟩
      | cons X mid => simp at heq
  | tail _ hstep ih =>
    intro α n β heq
    cases hstep with
    | @expand p k right hp pre w =>
      rw [List.append_assoc] at heq
      rcases append_cons_eq_append heq.symm with ⟨mid, rfl, rfl⟩ | ⟨mid, rfl, hmid⟩
      · -- the nonterminal was there before, and the step is one to the right of it
        obtain ⟨rest, hspine, hrest⟩ := ih α n (mid ++ .nonterminal k :: w.map .terminal) (by simp)
        refine ⟨rest, hspine, hrest.tail ?_⟩
        have := Produces.expand hp mid (w.map .terminal)
        simpa only [List.append_assoc] using this
      · rcases append_cons_eq_append hmid.symm with ⟨mid', rfl, rfl⟩ | ⟨mid', -, hw⟩
        · -- the nonterminal is new
          obtain ⟨rest, hspine, hrest⟩ := ih pre k _ rfl
          exact ⟨mid' ++ rest, hspine.expand hp, Derives.append .refl hrest⟩
        · exact absurd (by simp [hw]) (nonterminal_not_mem_map_terminal (n := n) w)

/-- The productions of the nonterminal at the end of a spine are valid on the terminal that comes
first in what is derived to the right of it. -/
theorem Spine.lr1Valid (wf : g.WellFormed) {w : List TerminalId} (h : g.Spine γ n δ)
    (hw : g.Derives δ (w.map .terminal)) (hp : g.Expands p n right) :
    g.Lr1Valid γ ⟨p, 0⟩ (w.headD endOfInput) := by
  induction h generalizing w p right with
  | start =>
    have hnil : w.map Symbol.terminal = [] := (derives_map_terminal_iff (w := [])).mp hw
    rw [List.map_eq_nil_iff.mp hnil, wf.eq_accept hp]
    exact .start
  | @expand γ δ α β n m q _ hq ih =>
    obtain ⟨s₁, s₂, hsplit, h₁, h₂⟩ := derives_append_iff.mp hw
    obtain ⟨w₁, w₂, rfl, rfl, rfl⟩ := List.map_eq_append_iff.mp hsplit
    have hitem : g.Lr1Valid (γ ++ α) ⟨q, α.length⟩ (w₂.headD endOfInput) :=
      (ih h₂ hq).shift_append hq
    have hpredicts : g.Predicts ⟨q, α.length⟩ p β :=
      ⟨m, right, ⟨n, _, hq, List.drop_left⟩, hp⟩
    cases w₁ with
    | nil => exact hitem.inherit hpredicts h₁
    | cons t w₁ => exact .first hitem.lr0Valid hpredicts ⟨_, h₁⟩

/-- **Rightmost derivations stay within valid items**: when the nonterminal before the terminals `w`
is expanded, the whole right-hand side is valid on the first of them. -/
theorem lr1Valid_of_derivesRightmost (wf : g.WellFormed) {w : List TerminalId}
    (h : g.DerivesRightmost [.nonterminal startNonterminal]
      (γ ++ .nonterminal n :: w.map .terminal)) (hp : g.Expands p n right) :
    g.Lr1Valid (γ ++ right) ⟨p, right.length⟩ (w.headD endOfInput) := by
  obtain ⟨rest, hspine, hrest⟩ := exists_spine h γ n _ rfl
  rw [← List.append_nil right] at hp
  exact (hspine.lr1Valid wf hrest hp).shift_append hp

end Grammar

end Lalr
