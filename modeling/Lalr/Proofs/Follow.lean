import Lalr.Proofs.Validity

/-!
# What can follow a nonterminal

The terminals that can follow a nonterminal, whatever stands before it.

- `Grammar.Reachable`: the nonterminal occurs in some string that the start of
  the augmented grammar derives.
- `Grammar.Follow`: the terminal can follow the nonterminal.
- `reachable_iff_lr0Valid`, `follow_iff_lr1Valid`: these are the nonterminals
  whose productions are valid for some string, and the terminals on which they
  are, wherever the marker stands.

A string for which a production is valid is found along the uses that make its
left side reachable, or along the rules that make a terminal follow it. Nothing
has to be derived from what stands before the marker, so symbols that derive no
terminals do not matter.
-/

namespace Lalr

namespace Grammar

variable {g : Grammar} {p : ProductionId} {n m : NonterminalId} {t : TerminalId}
variable {γ right : List Symbol} {x : Dotted} {dot : Nat}

/-- The nonterminal occurs in some string that the start of the augmented grammar derives. -/
def Reachable (g : Grammar) (n : NonterminalId) : Prop :=
  ∃ δ, g.Derives [.nonterminal startNonterminal] δ ∧ .nonterminal n ∈ δ

theorem reachable_start : g.Reachable startNonterminal := ⟨_, .refl, List.mem_singleton.mpr rfl⟩

/-- What the right-hand side of a reachable nonterminal mentions is reachable. -/
theorem Reachable.use (h : g.Reachable m) (hp : g.Expands p m right)
    (hmem : .nonterminal n ∈ right) : g.Reachable n := by
  obtain ⟨δ, hδ, hm⟩ := h
  obtain ⟨pre, post, rfl⟩ := List.append_of_mem hm
  refine ⟨_, hδ.tail (.expand hp pre post), ?_⟩
  exact List.mem_append_left _ (List.mem_append_right _ hmem)

/-- Nothing else is reachable. -/
@[elab_as_elim]
theorem Reachable.induct {motive : ∀ n, g.Reachable n → Prop}
    (start : motive startNonterminal reachable_start)
    (use : ∀ {m n p right} (hm : g.Reachable m) (hp : g.Expands p m right)
      (hmem : .nonterminal n ∈ right), motive m hm → motive n (hm.use hp hmem))
    {n : NonterminalId} (h : g.Reachable n) : motive n h := by
  obtain ⟨δ, hδ, hmem⟩ := h
  induction hδ generalizing n with
  | refl =>
    cases List.mem_singleton.mp hmem
    exact start
  | tail _ hstep ih =>
    cases hstep with
    | @expand p m right hp pre post =>
      rw [List.append_assoc, List.mem_append, List.mem_append] at hmem
      rcases hmem with hpre | hright | hpost
      · exact ih (List.mem_append_left _ hpre)
      · exact use _ hp hright (ih (List.mem_append_right _ List.mem_cons_self))
      · exact ih (List.mem_append_right _ (List.mem_cons_of_mem _ hpost))

/-- The terminals that can follow a nonterminal: the least sets in which the end of the input
follows the start of the augmented grammar, and a nonterminal in a production of a reachable one is
followed by what begins the rest of the right-hand side and, when that rest can be empty, by what
follows the left side. -/
inductive Follow (g : Grammar) : NonterminalId → TerminalId → Prop where
  | start : Follow g startNonterminal endOfInput
  | first {p : ProductionId} {m n : NonterminalId} {α β : List Symbol} {t : TerminalId}
      (hm : g.Reachable m) (hp : g.Expands p m (α ++ .nonterminal n :: β)) (ht : g.First β t) :
    Follow g n t
  | inherit {p : ProductionId} {m n : NonterminalId} {α β : List Symbol} {t : TerminalId}
      (hm : g.Reachable m) (hp : g.Expands p m (α ++ .nonterminal n :: β)) (hβ : g.Nullable β)
      (ht : Follow g m t) : Follow g n t

/-! ## Only reachable nonterminals, on what follows them -/

/-- What an item predicts stands in a right-hand side behind the symbols before the marker. -/
theorem Predicts.exists_use {β : List Symbol} (h : g.Predicts x p β) (hp : g.Expands p n right) :
    ∃ m α, g.Expands x.production m (α ++ .nonterminal n :: β) := by
  obtain ⟨n', right', ⟨m, whole, hx, hdrop⟩, hp'⟩ := h
  obtain ⟨rfl, -⟩ := hp.unique hp'
  refine ⟨m, whole.take x.dot, ?_⟩
  rwa [← hdrop, List.take_append_drop]

theorem Lr0Valid.reachable (wf : g.WellFormed) (h : g.Lr0Valid γ x)
    (hp : g.Expands x.production n right) : g.Reachable n := by
  induction h generalizing n right with
  | start => exact (hp.unique wf.accept).1 ▸ reachable_start
  | predict _ hpredicts ih =>
    obtain ⟨m, α, hm⟩ := hpredicts.exists_use hp
    exact (ih hm).use hm (List.mem_append_right _ List.mem_cons_self)
  | shift _ _ ih => exact ih hp

theorem Lr1Valid.follow (wf : g.WellFormed) (h : g.Lr1Valid γ x t)
    (hp : g.Expands x.production n right) : g.Follow n t := by
  induction h generalizing n right with
  | start => exact (hp.unique wf.accept).1 ▸ .start
  | first hx hpredicts ht =>
    obtain ⟨m, α, hm⟩ := hpredicts.exists_use hp
    exact .first (hx.reachable wf hm) hm ht
  | inherit hx hpredicts hβ ih =>
    obtain ⟨m, α, hm⟩ := hpredicts.exists_use hp
    exact .inherit (hx.lr0Valid.reachable wf hm) hm hβ (ih hm)
  | shift _ _ ih => exact ih hp

/-! ## All reachable nonterminals, on all that follows them -/

/-- The marker of an item before a nonterminal: its productions are predicted. -/
theorem Expands.predicts {q : ProductionId} {α β : List Symbol}
    (hq : g.Expands q m (α ++ .nonterminal n :: β)) (hp : g.Expands p n right) :
    g.Predicts ⟨q, α.length⟩ p β := ⟨n, right, ⟨m, _, hq, List.drop_left⟩, hp⟩

theorem Reachable.exists_lr0Valid (wf : g.WellFormed) (h : g.Reachable n)
    (hp : g.Expands p n right) : ∃ γ, g.Lr0Valid γ ⟨p, 0⟩ := by
  induction h using Reachable.induct generalizing p right with
  | start =>
    cases wf.eq_accept hp
    exact ⟨[], .start⟩
  | @use m n q whole _ hq hmem ih =>
    obtain ⟨γ, hγ⟩ := ih hq
    obtain ⟨α, β, rfl⟩ := List.append_of_mem hmem
    exact ⟨γ ++ α, (hγ.shift_append hq).predict (hq.predicts hp)⟩

theorem Follow.exists_lr1Valid (wf : g.WellFormed) (h : g.Follow n t)
    (hp : g.Expands p n right) : ∃ γ, g.Lr1Valid γ ⟨p, 0⟩ t := by
  induction h generalizing p right with
  | start =>
    cases wf.eq_accept hp
    exact ⟨[], .start⟩
  | @first q m n α β t hm hq ht =>
    obtain ⟨γ, hγ⟩ := hm.exists_lr0Valid wf hq
    exact ⟨γ ++ α, .first (hγ.shift_append hq) (hq.predicts hp) ht⟩
  | @inherit q m n α β t _ hq hβ _ ih =>
    obtain ⟨γ, hγ⟩ := ih hq
    exact ⟨γ ++ α, (hγ.shift_append hq).inherit (hq.predicts hp) hβ⟩

/-- A nonterminal is reachable exactly when its productions are valid for some string, wherever the
marker stands. -/
theorem reachable_iff_lr0Valid (wf : g.WellFormed) (hp : g.Expands p n right)
    (hdot : dot ≤ right.length) : g.Reachable n ↔ ∃ γ, g.Lr0Valid γ ⟨p, dot⟩ := by
  refine ⟨fun h => ?_, fun ⟨γ, hγ⟩ => hγ.reachable wf hp⟩
  obtain ⟨γ, hγ⟩ := h.exists_lr0Valid wf hp
  rw [← List.take_append_drop dot right] at hp
  have hitem := hγ.shift_append hp
  rw [List.length_take_of_le hdot] at hitem
  exact ⟨γ ++ right.take dot, hitem⟩

/-- **A terminal follows a nonterminal exactly when its productions are valid on it** for some
string, wherever the marker stands. -/
theorem follow_iff_lr1Valid (wf : g.WellFormed) (hp : g.Expands p n right)
    (hdot : dot ≤ right.length) : g.Follow n t ↔ ∃ γ, g.Lr1Valid γ ⟨p, dot⟩ t := by
  refine ⟨fun h => ?_, fun ⟨γ, hγ⟩ => hγ.follow wf hp⟩
  obtain ⟨γ, hγ⟩ := h.exists_lr1Valid wf hp
  rw [← List.take_append_drop dot right] at hp
  have hitem := hγ.shift_append hp
  rw [List.length_take_of_le hdot] at hitem
  exact ⟨γ ++ right.take dot, hitem⟩

end Grammar

end Lalr
