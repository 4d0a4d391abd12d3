import Lalr.Proofs.Grammar.Outcome
import Lalr.Proofs.Renaming

/-!
# Rules in another order

Two definitions that differ in the order of their rules define the same
productions under other numbers (`exists_sameRules_of_reordered`).

- `Definition.Reordered`: the definitions have the same symbols and the same start
  symbol, and the rules of one are those of the other in some order.
- `Grammar.SameRules`: the bijection of the numbers that comes with it. As no rule
  is there twice (`nodup_augmentedRules`), there is only one.
-/

namespace Lalr

namespace Definition

variable {steps steps' : List Step}

/-- The steps declare the same symbols, the same start symbol and, in some order, the same rules. -/
structure Reordered (steps steps' : List Step) : Prop where
  terminals : terminalNames steps = terminalNames steps'
  nonterminals : nonterminalNames steps = nonterminalNames steps'
  rules : (declaredRules steps).Perm (declaredRules steps')
  start : startOf steps = startOf steps'

theorem nodup_declaredRules (h : Throughout Admissible steps) : (declaredRules steps).Nodup := by
  induction steps using List.reverseRecOn with
  | nil => exact List.nodup_nil
  | append_singleton steps step ih =>
    obtain ⟨hsteps, hstep⟩ := throughout_concat_iff.mp h
    have hconcat : declaredRules (steps ++ [step]) = declaredRules steps ++ step.rule?.toList := by
      rw [declaredRules, List.filterMap_append]
      cases step <;> rfl
    rw [hconcat]
    cases step with
    | rule left right =>
      refine (ih hsteps).append (List.nodup_singleton _) fun rule hmem hlast => ?_
      cases List.mem_singleton.mp hlast
      exact hstep.2.2 hmem
    | terminal name => simpa [Step.rule?] using ih hsteps
    | nonterminal name => simpa [Step.rule?] using ih hsteps
    | start id => simpa [Step.rule?] using ih hsteps
    | giveUp message => simpa [Step.rule?] using ih hsteps

end Definition

namespace Grammar

variable {g g' : Grammar} {π : Equiv.Perm ProductionId} {p : ProductionId} {n : NonterminalId}
variable {right : List Symbol}

/-- The rule of a production. -/
def rule? (g : Grammar) (p : ProductionId) : Option Rule := g.productions[p]?.map Production.toRule

theorem expands_iff_rule? : g.Expands p n right ↔
    ∃ rule, g.rule? p = some rule ∧ rule.left = n ∧ rule.right.toList = right := by
  simp only [Expands, rule?, Option.map_eq_some_iff]
  constructor
  · rintro ⟨production, hp, hleft, hright⟩
    exact ⟨production.toRule, ⟨production, hp, rfl⟩, hleft, hright⟩
  · rintro ⟨_, ⟨production, hp, rfl⟩, hleft, hright⟩
    exact ⟨production, hp, hleft, hright⟩

@[simp] theorem rule?_ofRules (terminals nonterminals : Array String) (rules : List Rule)
    (start : NonterminalId) (p : ProductionId) :
    (ofRules terminals nonterminals rules start).rule? p = rules[p]? := by
  simp [rule?, ofRules, Function.comp_def]

/-- A production of `g` has the same rule as that of `g'` under the other number, and as no other
production of `g'`. -/
structure SameRules (π : Equiv.Perm ProductionId) (g g' : Grammar) : Prop where
  rule?_eq : ∀ p, g'.rule? (π p) = g.rule? p
  unique : ∀ p p' rule, g.rule? p = some rule → g'.rule? p' = some rule → p' = π p

theorem SameRules.renamed (h : SameRules π g g') (wf : g.WellFormed) (wf' : g'.WellFormed)
    (hstart : g.start = g'.start) : Renamed π g g' := by
  refine ⟨fun {p n right} => ?_, ?_⟩
  · rw [expands_iff_rule?, expands_iff_rule?, h.rule?_eq]
  · obtain ⟨⟨left, right⟩, hrule, rfl, hright⟩ := expands_iff_rule?.mp wf.accept
    obtain ⟨⟨left', right'⟩, hrule', rfl, hright'⟩ := expands_iff_rule?.mp wf'.accept
    have hsame : right = right' := Array.toList_inj.mp (hright.trans (hstart ▸ hright'.symm))
    exact (h.unique _ _ _ hrule (hsame ▸ hrule')).symm

end Grammar

open Definition in
/-- The rules of a definition that succeeds, with the one of the augmented grammar, are distinct. -/
theorem nodup_augmentedRules {steps : List Step} {g : Grammar} (h : Grammar.define steps = .ok g) :
    ((declared steps).augmentedRules (startOf steps)).Nodup := by
  obtain ⟨hpasses, -⟩ := finish_declared_of_define h
  refine List.nodup_cons.mpr ⟨fun hmem => ?_, ?_⟩
  · -- the start of the augmented grammar is no left side of a rule
    have hleft := (checked_declared hpasses).left _ (Array.mem_toList_iff.mp hmem)
    exact (hasNonterminal_declared_iff.mp hleft).1 rfl
  · exact nodup_declaredRules (throughout_admissible_of_passes hpasses)

open Definition in
/-- **Rules in another order are the same productions under other numbers.** -/
theorem exists_sameRules_of_reordered {steps steps' : List Step} {g g' : Grammar}
    (h : Reordered steps steps') (hg : Grammar.define steps = .ok g)
    (hg' : Grammar.define steps' = .ok g') : ∃ π, Grammar.SameRules π g g' := by
  have hperm : ((declared steps).augmentedRules (startOf steps)).Perm
      ((declared steps').augmentedRules (startOf steps')) := by
    rw [augmentedRules, augmentedRules, h.start]
    exact h.rules.cons _
  have hnodup' := nodup_augmentedRules hg'
  obtain ⟨π, hπ⟩ := exists_perm_getElem?_eq hperm (nodup_augmentedRules hg)
  obtain ⟨rfl, -⟩ := eq_ofRules_of_define hg
  obtain ⟨rfl, -⟩ := eq_ofRules_of_define hg'
  refine ⟨π, fun p => ?_, fun p p' rule hp hp' => ?_⟩
  · rw [Grammar.rule?_ofRules, Grammar.rule?_ofRules, hπ]
  · rw [Grammar.rule?_ofRules] at hp hp'
    have hlt := (List.getElem?_eq_some_iff.mp hp').choose
    exact (List.getElem?_inj hlt hnodup').mp (hp'.trans ((hπ p).trans hp).symm)

end Lalr
