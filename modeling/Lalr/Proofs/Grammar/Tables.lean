import Lalr.Item.Basic
import Lalr.Proofs.Grammar.Outcome
import Mathlib.Logic.Function.Iterate

/-!
# What the symbols of a grammar derive

The tables of a defined grammar say which nonterminals derive the empty string
(`nullability_isExact`) and which terminals begin what they derive
(`mem_first_iff_transGen`). Both hold of every nonterminal, also of the start of
the augmented grammar and of nonterminals that derive no string of terminals.
The tables of the productions say the same of every suffix of a right-hand side,
and so an item knows what can follow the symbol after its marker
(`suffixes_areExact`).

- `SettlesIn`: passes come to rest after so many rounds.
- `settlesIn_saturate`: the rounds of a saturation are no more than its measure.
-/

namespace Lalr

/-! ## Rounds -/

/-- Passes lead from `a` to `b` in so many rounds. Each of these changes something and says so, and
a further one changes nothing and says so. -/
structure SettlesIn {α : Type} (round : α → Bool × α) (rounds : Nat) (a b : α) : Prop where
  reaches : (fun a => (round a).2)^[rounds] a = b
  changes : ∀ k < rounds, ∀ d, (fun a => (round a).2)^[k] a = d →
    (round d).1 = true ∧ (round d).2 ≠ d
  rests : round b = (false, b)

section SettlesIn

variable {α β : Type} {round : α → Bool × α} {rounds : Nat} {a b : α}

theorem settlesIn_zero (h : round a = (false, a)) : SettlesIn round 0 a a :=
  ⟨rfl, fun k hk => absurd hk (Nat.not_lt_zero k), h⟩

theorem SettlesIn.head (h : SettlesIn round rounds (round a).2 b) (hsaid : (round a).1 = true)
    (hchange : (round a).2 ≠ a) : SettlesIn round (rounds + 1) a b := by
  refine ⟨h.reaches, fun k hk d hd => ?_, h.rests⟩
  cases k with
  | zero =>
    subst hd
    exact ⟨hsaid, hchange⟩
  | succ k =>
    rw [Function.iterate_succ_apply] at hd
    exact h.changes k (by omega) d hd

/-- A saturation comes to rest, after no more rounds than its measure. -/
theorem settlesIn_saturate {step : α → β → Bool × α} {missing : α → Nat} {bs : List β}
    {progresses : Progresses step missing bs} (a : α) : ∃ rounds ≤ missing a,
      SettlesIn (pass step bs) rounds a (saturate step missing bs progresses a) := by
  fun_induction saturate step missing bs progresses a with
  | case1 a next hsaid ih =>
    obtain ⟨rounds, hle, h⟩ := ih
    have hless : missing next.2 < missing a := progresses.pass_lt hsaid
    refine ⟨rounds + 1, Nat.lt_of_le_of_lt hle hless, h.head hsaid fun heq => ?_⟩
    exact absurd (congrArg missing heq) (Nat.ne_of_lt hless)
  | case2 a next hidle =>
    have hsame : pass step bs a = (false, a) :=
      Prod.ext (Bool.eq_false_iff.mpr hidle)
        (progresses.idle_of_pass (Bool.eq_false_iff.mpr hidle)).1
    refine ⟨0, Nat.zero_le _, ?_⟩
    show SettlesIn (pass step bs) 0 a (pass step bs a).2
    rw [hsame]
    exact settlesIn_zero hsame

end SettlesIn

namespace Grammar

variable {g : Grammar} {n : NonterminalId} {t : TerminalId} {nonterminal : Nonterminal}

/-! ## Nullable nonterminals -/

/-- **Nullability is exact**: in a defined grammar a nonterminal is marked as nullable exactly when
it derives the empty string. Whatever the rules are, passes over them settle on the marks, in no
more rounds than there are rules. -/
theorem nullability_isExact (hg : g.IsDefined) :
    (∀ (n : NonterminalId) nonterminal, g.nonterminals[n]? = some nonterminal →
      (nonterminal.nullable = true ↔ g.Derives [.nonterminal n] [])) ∧
    ∀ rules : List Rule, ∃ rounds ≤ rules.length,
      SettlesIn (pass addNullable rules) rounds (emptyLefts rules) (nullables rules) := by
  constructor
  · intro n nonterminal hn
    obtain ⟨steps, -, hdescribes⟩ := hg.exists_describes
    exact (hdescribes.tables n nonterminal hn).1
  · intro rules
    obtain ⟨rounds, hle, h⟩ : ∃ rounds ≤ openRules rules (emptyLefts rules),
        SettlesIn (pass addNullable rules) rounds (emptyLefts rules) (nullables rules) :=
      settlesIn_saturate _
    exact ⟨rounds, Nat.le_trans hle List.countP_le_length, h⟩

/-- Of the entangled nonterminals `A` derives the empty string through `S`, and `U` does not derive
it. -/
theorem nullability_entangled : ∃ g a u, define Examples.entangled = .ok g ∧
    g.nonterminals[2]? = some a ∧ g.Derives [.nonterminal 2] [] ∧
    g.nonterminals[3]? = some u ∧ ¬g.Derives [.nonterminal 3] [] ∧
    ∃ rounds ≤ 7, SettlesIn (pass addNullable (Definition.declaredRules Examples.entangled)) rounds
      (emptyLefts (Definition.declaredRules Examples.entangled))
      (nullables (Definition.declaredRules Examples.entangled)) := by
  obtain ⟨g, hg, hcheck⟩ := exists_define_of_check Examples.entangled
    (fun g => g.nonterminals[2]?.any (·.nullable) && g.nonterminals[3]?.any (!·.nullable))
    (by decide +kernel)
  simp only [Bool.and_eq_true, Option.any_eq_true, Bool.not_eq_true'] at hcheck
  obtain ⟨⟨a, ha, hnullable⟩, u, hu, hnot⟩ := hcheck
  obtain ⟨hexact, hrounds⟩ := nullability_isExact (.of_define hg)
  refine ⟨g, a, u, hg, ha, (hexact 2 a ha).mp hnullable, hu, fun h => ?_,
    hrounds (Definition.declaredRules Examples.entangled)⟩
  rw [← hexact 3 u hu, hnot] at h
  cases h

/-! ## FIRST sets -/

/-- A string begins with a terminal, or some expansions make it do so. -/
theorem first_nonterminal_iff_transGen : g.First [.nonterminal n] t ↔
    ∃ rest, Relation.TransGen g.Produces [.nonterminal n] (.terminal t :: rest) := by
  refine exists_congr fun rest => ⟨fun h => ?_, Relation.TransGen.to_reflTransGen⟩
  rcases Relation.reflTransGen_iff_eq_or_transGen.mp h with heq | h
  · cases heq
  · exact h

/-- **FIRST sets are exact**: in a defined grammar a terminal is in the FIRST set of a nonterminal
exactly when one or more expansions of the nonterminal lead to a string that begins with it. -/
theorem mem_first_iff_transGen (hg : g.IsDefined) (hn : g.nonterminals[n]? = some nonterminal)
    (t : TerminalId) : t ∈ nonterminal.first ↔
      ∃ rest, Relation.TransGen g.Produces [.nonterminal n] (.terminal t :: rest) := by
  obtain ⟨steps, -, hdescribes⟩ := hg.exists_describes
  exact ((hdescribes.tables n nonterminal hn).2 t).trans first_nonterminal_iff_transGen

/-- The end of the input begins strings that the start of the augmented grammar derives in the
entangled grammar, through `A`. Nothing that `U` derives begins with it. -/
theorem mem_first_entangled : ∃ g start u, define Examples.entangled = .ok g ∧
    g.nonterminals[0]? = some start ∧
    (∃ rest, Relation.TransGen g.Produces [.nonterminal 0] (.terminal endOfInput :: rest)) ∧
    g.nonterminals[3]? = some u ∧
    ¬∃ rest, Relation.TransGen g.Produces [.nonterminal 3] (.terminal endOfInput :: rest) := by
  obtain ⟨g, hg, hcheck⟩ := exists_define_of_check Examples.entangled
    (fun g => g.nonterminals[0]?.any (endOfInput ∈ ·.first) &&
      g.nonterminals[3]?.any (endOfInput ∉ ·.first))
    (by decide +kernel)
  simp only [Bool.and_eq_true, Option.any_eq_true, decide_eq_true_eq] at hcheck
  obtain ⟨⟨start, hstart, hmem⟩, u, hu, hnot⟩ := hcheck
  have hdefined : g.IsDefined := .of_define hg
  exact ⟨g, start, u, hg, hstart, (mem_first_iff_transGen hdefined hstart endOfInput).mp hmem, hu,
    (mem_first_iff_transGen hdefined hu endOfInput).not.mp hnot⟩

/-! ## Suffixes of right-hand sides -/

/-- What begins a string that may be followed by a terminal of `L`: what begins the string alone,
and all of `L` if the string can be empty. -/
theorem first_concat_iff {β : List Symbol} {L : TerminalSet} :
    ((∃ l ∈ L, g.First (β ++ [.terminal l]) t) ∨ g.First β t) ↔
      g.First β t ∨ g.Nullable β ∧ t ∈ L := by
  simp only [first_append_iff, first_terminal_iff]
  constructor
  · rintro (⟨l, hl, ht | ⟨hβ, rfl⟩⟩ | ht)
    · exact .inl ht
    · exact .inr ⟨hβ, hl⟩
    · exact .inl ht
  · rintro (ht | ⟨hβ, ht⟩)
    · exact .inr ht
    · exact .inl ⟨t, ht, .inr ⟨hβ, rfl⟩⟩

/-- **Suffix tables are exact**: of every suffix of a right-hand side, also beyond its end, the
grammar knows whether it derives the empty string and which terminals begin what it derives. So
every item knows whether nothing need follow the symbol after its marker, and which terminals can
follow it when those of `L` can follow the whole production. -/
theorem suffixes_areExact (hg : g.IsDefined) {p : ProductionId} {production : Production}
    (hp : g.productions[p]? = some production) :
    (∀ pos,
      ∃ known, production.suffix pos = .ok known ∧
        (known.nullable = true ↔ g.Derives (production.right.toList.drop pos) []) ∧
        ∀ t, t ∈ known.first ↔
          ∃ rest, g.Derives (production.right.toList.drop pos) (.terminal t :: rest)) ∧
    ∀ (item : Item) (β : List Symbol), item.core.production = p →
      β = production.right.toList.drop (item.core.dot.toNat + 1) →
      (∃ isVisible, item.isLookaheadVisible g = .ok isVisible ∧
        (isVisible = true ↔ g.Derives β [])) ∧
      ∀ L : TerminalSet, ∃ first, item.firstOfRest g L = .ok first ∧
        ∀ t, t ∈ first ↔
          (∃ l ∈ L, ∃ rest, g.Derives (β ++ [.terminal l]) (.terminal t :: rest)) ∨
            ∃ rest, g.Derives β (.terminal t :: rest) := by
  have hsuffix := hg.wellFormed.exists_suffix hp
  refine ⟨fun pos => ?_, ?_⟩
  · obtain ⟨known, hknown, hexact⟩ := hsuffix pos
    exact ⟨known, hknown, hexact.nullable_iff, hexact.mem_first_iff⟩
  rintro item β rfl hβ
  obtain ⟨known, hknown, hexact⟩ := hsuffix (item.core.dot.toNat + 1)
  have hrest : item.core.rest g = .ok known :=
    bind_eq_ok_iff.mpr ⟨production, production_eq_ok_iff.mpr hp, hknown⟩
  subst hβ
  refine ⟨⟨_, bind_eq_ok_iff.mpr ⟨_, hrest, rfl⟩, hexact.nullable_iff⟩, fun L => ?_⟩
  refine ⟨_, bind_eq_ok_iff.mpr ⟨_, hrest, rfl⟩, fun t => ?_⟩
  refine Iff.trans ?_ first_concat_iff.symm
  rw [← hexact.mem_first_iff, ← hexact.nullable_iff]
  split
  · next h => simp only [BitSet.mem_union, h, true_and]
  · next h => simp only [h, Bool.false_eq_true, false_and, or_false]

/-- In lists of statements the rest `STMT SEMI_OPT` of a production cannot be empty, but `SEMI_OPT`
can: so the end of the input and a semicolon can follow the statement in
`[STMTS := STMTS . STMT SEMI_OPT]`. -/
theorem suffixes_statements : ∃ g production, define Examples.statements = .ok g ∧
    g.productions[2]? = some production ∧
    production.right.toList = [.nonterminal 2, .nonterminal 3, .nonterminal 6] ∧
    ¬g.Derives [.nonterminal 3, .nonterminal 6] [] ∧
    (∃ rest, g.Derives [.nonterminal 3, .nonterminal 6] (.terminal 4 :: rest)) ∧
    Item.isLookaheadVisible g ⟨⟨2, 1⟩, ∅, #[]⟩ = .ok true ∧ g.Derives [.nonterminal 6] [] ∧
    ∃ first, Item.firstOfRest g ⟨⟨2, 1⟩, ∅, #[]⟩ (.singleton endOfInput) = .ok first ∧
      first.toList = [endOfInput, 1] ∧
      ∀ t, t ∈ first ↔ (∃ l ∈ BitSet.singleton endOfInput, ∃ rest,
          g.Derives ([.nonterminal 6] ++ [.terminal l]) (.terminal t :: rest)) ∨
        ∃ rest, g.Derives [.nonterminal 6] (.terminal t :: rest) := by
  obtain ⟨g, hdefine, hcheck⟩ := exists_define_of_check Examples.statements
    (fun g => (g.productions[2]?.any fun production : Production =>
        production.right.toList == [.nonterminal 2, .nonterminal 3, .nonterminal 6] &&
          (production.suffix 1).toOption.any fun known : Suffix =>
            !known.nullable && decide (4 ∈ known.first)) &&
      (Item.isLookaheadVisible g ⟨⟨2, 1⟩, ∅, #[]⟩).toOption == some true &&
      (Item.firstOfRest g ⟨⟨2, 1⟩, ∅, #[]⟩ (.singleton endOfInput)).toOption.any
        fun first : TerminalSet => first.toList == [endOfInput, 1])
    (by decide +kernel)
  simp only [Bool.and_eq_true, Option.any_eq_true, Bool.not_eq_true', beq_iff_eq,
    decide_eq_true_eq] at hcheck
  obtain ⟨⟨⟨production, hp, hright, known, hknown, hnot, hmem⟩, hvisible⟩, first, hfirst, hlist⟩ :=
    hcheck
  obtain ⟨hsuffix, hitems⟩ := suffixes_areExact (.of_define hdefine) hp
  obtain ⟨⟨isVisible, hvisible', hempty⟩, hlooks⟩ :=
    hitems ⟨⟨2, 1⟩, ∅, #[]⟩ [.nonterminal 6] rfl (by rw [hright]; rfl)
  obtain ⟨first', hfirst', hiff⟩ := hlooks (.singleton endOfInput)
  rw [hvisible', Except.toOption, Option.some.injEq] at hvisible
  rw [hfirst', Except.toOption, Option.some.injEq] at hfirst
  subst hvisible hfirst
  obtain ⟨known', hknown', hnullable, hbegins⟩ := hsuffix 1
  rw [hknown', Except.toOption, Option.some.injEq] at hknown
  subst hknown
  rw [hright] at hnullable hbegins
  refine ⟨g, production, hdefine, hp, hright, fun h => ?_, (hbegins 4).mp hmem, hvisible',
    hempty.mp rfl, first', hfirst', hlist, hiff⟩
  rw [hnullable.mpr h] at hnot
  cases hnot

end Grammar

end Lalr
