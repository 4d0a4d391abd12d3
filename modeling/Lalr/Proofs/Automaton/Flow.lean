import Lalr.Proofs.Automaton.Collection
import Lalr.Proofs.Propagation

/-!
# Where lookaheads come from

What holds of the links and the lookaheads of an automaton while it is built.

- `Automaton.Passes`: the items to which an item passes its lookahead on. They
  are what it predicts in its own state, if nothing need follow, and what it
  becomes when its marker moves.
- `Automaton.Generates`: the terminals that an item has by itself.
- `Automaton.Receives`: what is generated somewhere and passed on to an item.
- `Flow`: the links are what is passed on, every item looks at what it generates,
  and at nothing that it does not receive. A step keeps this, whether it adds a
  state (`Draft.Added.flow`) or finds one (`Draft.Found.flow`).

What an item looks at before propagation lies between what it generates and what
it receives, and it does not matter where: with exact links, propagation makes it
what the item receives (`Flow.looks_propagate_iff`).
-/

namespace Lalr

open Grammar

variable {g : Grammar} {X : Symbol}

namespace Automaton

variable {m m' : Automaton} {id target : StateId} {h k : ItemId} {t : TerminalId}
variable {kernel items : ItemSet} {sources : List (Core × ItemId)} {done : List Symbol}

/-- The lookahead of one item has to flow on to the other: to a prediction in its own state that
nothing need follow, or to the item with the marker moved in the next state. -/
inductive Passes (g : Grammar) (m : Automaton) : ItemId → ItemId → Prop where
  | predict {i : StateId} {kernel items : ItemSet} {core : Core} {p : ProductionId}
      {β : List Symbol} {h k : ItemId} (hi : m.sets[i]? = some (kernel, items))
      (hh : (core, h) ∈ items.toList) (hp : g.Predicts core.dotted p β) (hβ : g.Nullable β)
      (hk : (⟨p, 0⟩, k) ∈ items.toList) : Passes g m h k
  | shift {i j : StateId} {kernel items kernel' items' : ItemSet} {core : Core} {X : Symbol}
      {β : List Symbol} {h k : ItemId} (hi : m.sets[i]? = some (kernel, items))
      (hgoes : m.Goes i X j) (hj : m.sets[j]? = some (kernel', items'))
      (hh : (core, h) ∈ items.toList) (hX : g.After core.dotted X β)
      (hk : (core.advance, k) ∈ kernel'.toList) : Passes g m h k

/-- The item looks at the terminal by itself: the end of the input follows the start of the
augmented grammar, and what begins the rest of an item follows its prediction. -/
inductive Generates (g : Grammar) (m : Automaton) : ItemId → TerminalId → Prop where
  | start {kernel items : ItemSet} {k : ItemId} (hi : m.sets[startState]? = some (kernel, items))
      (hk : (⟨acceptProduction, 0⟩, k) ∈ kernel.toList) : Generates g m k endOfInput
  | first {i : StateId} {kernel items : ItemSet} {core : Core} {p : ProductionId}
      {β : List Symbol} {h k : ItemId} {t : TerminalId} (hi : m.sets[i]? = some (kernel, items))
      (hh : (core, h) ∈ items.toList) (hp : g.Predicts core.dotted p β) (ht : g.First β t)
      (hk : (⟨p, 0⟩, k) ∈ items.toList) : Generates g m k t

/-- The terminal is generated somewhere and passed on to the item. -/
def Receives (g : Grammar) (m : Automaton) (k : ItemId) (t : TerminalId) : Prop :=
  ∃ source, Relation.ReflTransGen (m.Passes g) source k ∧ m.Generates g source t

/-- Items pass on to items of the arena. -/
theorem Passes.lt_size (hpass : m.Passes g h k) (hc : Collection g m id done) :
    k < m.arena.size := by
  cases hpass with
  | predict hi _ _ _ hk => exact (hc.closed hi).isOver.id_lt_size hk
  | shift _ _ hj _ _ hk => exact (hc.closed hj).kernel_isOver.id_lt_size hk

theorem Receives.passes (ht : m.Receives g h t) (hpass : m.Passes g h k) : m.Receives g k t := by
  obtain ⟨source, hpath, hsource⟩ := ht
  exact ⟨source, hpath.tail hpass, hsource⟩

/-- A closure gives its items nothing that they do not receive. -/
theorem receives_of_closedUpTo {a b : Arena} {i : StateId}
    (hclosed : ClosedUpTo g kernel a items b fun _ => False)
    (hi : m.sets[i]? = some (kernel, items))
    (hbefore : ∀ {k t}, a.Looks k t → m.Receives g k t) (ht : b.Looks k t) :
    m.Receives g k t := by
  rcases hclosed.looks_sound ht with hold | ⟨core, hk, hlooks⟩
  · exact hbefore hold
  · clear ht
    generalize hx : core.dotted = x at hlooks
    suffices hsome : ∃ c l, (c, l) ∈ items.toList ∧ c.dotted = x ∧ m.Receives g l t by
      obtain ⟨c, l, hl, heq, ht⟩ := hsome
      obtain rfl : c = core := Core.dotted_inj.mp (heq.trans hx.symm)
      exact hclosed.isOver.id_unique hl hk ▸ ht
    clear hx
    induction hlooks with
    | given hgiven =>
      obtain ⟨c, l, hl, heq, ht⟩ := hgiven
      exact ⟨c, l, hclosed.kernel_subset hl, heq, hbefore ht⟩
    | @first x p β t hx hp hfirst =>
      obtain ⟨c, h, hh, rfl⟩ := hclosed.exists_mem_of_closure hx
      obtain ⟨l, hl, -, -⟩ := hclosed.predicted hh (fun hw => hw) hp
      exact ⟨⟨p, 0⟩, l, hl, rfl, l, .refl, .first hi hh hp hfirst hl⟩
    | @inherit x p β t _ hp hβ ih =>
      obtain ⟨c, h, hh, rfl, ht⟩ := ih
      obtain ⟨l, hl, -, -⟩ := hclosed.predicted hh (fun hw => hw) hp
      exact ⟨⟨p, 0⟩, l, hl, rfl, ht.passes (.predict hi hh hp hβ hl)⟩

/-! ## Steps -/

/-- More states and transitions let items pass on more. -/
theorem Passes.mono (hpass : m.Passes g h k)
    (hsets : ∀ {i : StateId} {s}, m.sets[i]? = some s → m'.sets[i]? = some s)
    (hgoes : ∀ {i X j}, m.Goes i X j → m'.Goes i X j) : m'.Passes g h k := by
  cases hpass with
  | predict hi hh hp hβ hk => exact .predict (hsets hi) hh hp hβ hk
  | shift hi hX hj hh hafter hk => exact .shift (hsets hi) (hgoes hX) (hsets hj) hh hafter hk

theorem Generates.mono (ht : m.Generates g k t)
    (hsets : ∀ {i : StateId} {s}, m.sets[i]? = some s → m'.sets[i]? = some s) :
    m'.Generates g k t := by
  cases ht with
  | start hi hk => exact .start (hsets hi) hk
  | first hi hh hp ht hk => exact .first (hsets hi) hh hp ht hk

theorem Receives.mono (ht : m.Receives g k t)
    (hsets : ∀ {i : StateId} {s}, m.sets[i]? = some s → m'.sets[i]? = some s)
    (hgoes : ∀ {i X j}, m.Goes i X j → m'.Goes i X j) : m'.Receives g k t := by
  obtain ⟨source, hpath, hsource⟩ := ht
  have hmono : m.Passes g ≤ m'.Passes g := fun _ _ hpass => hpass.mono hsets hgoes
  exact ⟨source, Relation.ReflTransGen.mono hmono _ _ hpath, hsource.mono hsets⟩

theorem Passes.step (hpass : m.Passes g h k) (hstep : Step g m m' id X target) :
    m'.Passes g h k :=
  hpass.mono hstep.getElem?_sets fun hgoes => (hstep.goes_iff _ _ _).mpr (.inl hgoes)

theorem Receives.step (ht : m.Receives g k t) (hstep : Step g m m' id X target) :
    m'.Receives g k t :=
  ht.mono hstep.getElem?_sets fun hgoes => (hstep.goes_iff _ _ _).mpr (.inl hgoes)

/-- After a step, the sources pass on to the kernel of the target as well, and the items of the
target to their predictions. -/
theorem passes_step_iff {kernel₀ items₀ : ItemSet} (hc : Collection g m id done)
    (hstep : Step g m m' id X target) (hid : m.sets[id]? = some (kernel₀, items₀))
    (hsources : Sources g X items₀.toList sources)
    (htarget : m'.sets[target]? = some (kernel, items)) :
    m'.Passes g h k ↔ m.Passes g h k ∨
      (∃ core, (core, h) ∈ sources ∧ (core.advance, k) ∈ kernel.toList) ∨
      ∃ core p β, (core, h) ∈ items.toList ∧ g.Predicts core.dotted p β ∧ g.Nullable β ∧
        (⟨p, 0⟩, k) ∈ items.toList := by
  constructor
  · intro hpass
    cases hpass with
    | predict hi hh hp hβ hk =>
      rcases hstep.of_getElem?_sets hi with hold | ⟨-, rfl, -⟩
      · exact .inl (.predict hold hh hp hβ hk)
      · cases hi.symm.trans htarget
        exact .inr (.inr ⟨_, _, _, hh, hp, hβ, hk⟩)
    | @shift i j _ _ _ _ core Y β _ _ hi hgoes hj hh hX hk =>
      rcases (hstep.goes_iff i Y j).mp hgoes with hold | ⟨rfl, rfl, rfl⟩
      · obtain ⟨K, I, K', I', hi', hj', -⟩ := hc.advanced hold
        cases hi.symm.trans (hstep.getElem?_sets hi')
        cases hj.symm.trans (hstep.getElem?_sets hj')
        exact .inl (.shift hi' hold hj' hh hX hk)
      · cases hi.symm.trans (hstep.getElem?_sets hid)
        cases hj.symm.trans htarget
        exact .inr (.inl ⟨core, (hsources.mem_iff core h).mpr ⟨hh, β, hX⟩, hk⟩)
  · rintro (hpass | ⟨core, hmem, hk⟩ | ⟨core, p, β, hh, hp, hβ, hk⟩)
    · exact hpass.step hstep
    · obtain ⟨hh, β, hX⟩ := (hsources.mem_iff core h).mp hmem
      have hgoes : m'.Goes id X target := (hstep.goes_iff _ _ _).mpr (.inr ⟨rfl, rfl, rfl⟩)
      exact .shift (hstep.getElem?_sets hid) hgoes htarget hh hX hk
    · exact .predict htarget hh hp hβ hk

/-- After a step, the items of the target generate what begins their rests as well. -/
theorem generates_step_iff (hc : Collection g m id done) (hstep : Step g m m' id X target)
    (htarget : m'.sets[target]? = some (kernel, items)) :
    m'.Generates g k t ↔ m.Generates g k t ∨ ∃ core h p β, (core, h) ∈ items.toList ∧
      g.Predicts core.dotted p β ∧ g.First β t ∧ (⟨p, 0⟩, k) ∈ items.toList := by
  constructor
  · intro ht
    cases ht with
    | start hi hk =>
      obtain ⟨K, I, hstart, -⟩ := hc.start
      cases hi.symm.trans (hstep.getElem?_sets hstart)
      exact .inl (.start hstart hk)
    | first hi hh hp ht hk =>
      rcases hstep.of_getElem?_sets hi with hold | ⟨-, rfl, -⟩
      · exact .inl (.first hold hh hp ht hk)
      · cases hi.symm.trans htarget
        exact .inr ⟨_, _, _, _, hh, hp, ht, hk⟩
  · rintro (ht | ⟨core, h, p, β, hh, hp, ht, hk⟩)
    · exact ht.mono hstep.getElem?_sets
    · exact .first htarget hh hp ht hk

end Automaton

/-! ## The flow -/

/-- The links are what is passed on; what is generated is looked at, and what is looked at is
received. -/
structure Flow (g : Grammar) (m : Automaton) : Prop where
  links_iff : ∀ {h k}, m.arena.Links h k ↔ m.Passes g h k
  simple : m.arena.IsSimple
  looks : ∀ {k t}, m.Generates g k t → m.arena.Looks k t
  receives : ∀ {k t}, m.arena.Looks k t → m.Receives g k t

/-- **Propagation lets every item look at exactly what it receives.** -/
theorem Flow.looks_propagate_iff {m : Automaton} {b : Arena} {n : Nat} {k : ItemId}
    {t : TerminalId} (hf : Flow g m) (h : m.arena.propagate = .ok (n, b)) :
    b.Looks k t ↔ m.Receives g k t := by
  rw [(Arena.growth_propagate h).looks_iff]
  constructor
  · rintro (ht | ⟨source, hpath, ht⟩)
    · exact hf.receives ht
    · induction hpath with
      | refl => exact hf.receives ht
      | tail _ hlink ih => exact ih.passes (hf.links_iff.mp hlink)
  · rintro ⟨source, hpath, hsource⟩
    have hmono : m.Passes g ≤ m.arena.Links := fun _ _ => hf.links_iff.mpr
    exact .inr ⟨source, Relation.ReflTransGen.mono hmono _ _ hpath, hf.looks hsource⟩

/-- The start state alone, at the end of the input, has its flow. -/
theorem Flow.of_single {m : Automaton} {a : Arena} {kernel items : ItemSet}
    (hsets : m.sets = [(kernel, items)]) (hgoes : ∀ i X j, ¬m.Goes i X j)
    (hlooks : ∀ k t, a.Looks k t ↔ (⟨acceptProduction, 0⟩, k) ∈ kernel.toList ∧ t = endOfInput)
    (hlinks : ∀ h k, ¬a.Links h k) (hsimple : a.IsSimple)
    (hclosed : ClosedUpTo g kernel a items m.arena fun _ => False) : Flow g m := by
  obtain ⟨news, gained, linked, hclosure, -⟩ := hclosed.growth
  have hstart : m.sets[startState]? = some (kernel, items) := by
    rw [hsets]
    rfl
  have honly {i : StateId} {s : ItemSet × ItemSet} (hi : m.sets[i]? = some s) :
      s = (kernel, items) := by
    have hmem := List.mem_of_getElem? hi
    rw [hsets] at hmem
    exact List.mem_singleton.mp hmem
  constructor
  case simple => exact hclosure.simple hsimple
  case links_iff =>
    intro l k
    constructor
    · intro hlink
      rcases hclosed.links_sound hlink with hlink | ⟨core, p, β, hl, hp, hβ, hk⟩
      · exact absurd hlink (hlinks l k)
      · exact .predict hstart hl hp hβ hk
    · intro hpass
      cases hpass with
      | predict hi hl hp hβ hk =>
        cases honly hi
        obtain ⟨k', hk', -, hlink⟩ := hclosed.predicted hl (fun hw => hw) hp
        exact hclosed.isOver.id_unique hk' hk ▸ hlink hβ
      | shift _ hX => exact absurd hX (hgoes _ _ _)
  case looks =>
    intro k t ht
    cases ht with
    | start hi hk =>
      cases honly hi
      exact hclosure.looks ((hlooks k _).mpr ⟨hk, rfl⟩)
    | first hi hl hp ht hk =>
      cases honly hi
      obtain ⟨k', hk', hfirst, -⟩ := hclosed.predicted hl (fun hw => hw) hp
      exact hclosed.isOver.id_unique hk' hk ▸ hfirst t ht
  case receives =>
    intro k t ht
    have hbefore {k : ItemId} {t : TerminalId} (ht : a.Looks k t) : m.Receives g k t := by
      obtain ⟨hk, rfl⟩ := (hlooks k t).mp ht
      exact ⟨k, .refl, .start hstart hk⟩
    exact Automaton.receives_of_closedUpTo hclosed hstart hbefore ht

namespace Draft

variable {draft next : Draft} {m' : Automaton} {id target : StateId} {limit : Nat}
variable {sources : List (Core × ItemId)} {kernel items kernel₀ items₀ : ItemSet}
variable {done : List Symbol}

/-- Finding a known state keeps the flow. -/
theorem Found.flow {q : State} (h : Found draft sources target q next)
    (hf : Flow g draft.automaton) (hc : Collection g draft.automaton id done)
    (hstep : Automaton.Step g draft.automaton m' id X target) (harena : m'.arena = next.arena)
    (hid : draft.automaton.sets[id]? = some (kernel₀, items₀))
    (hsources : Sources g X items₀.toList sources) : Flow g m' := by
  have hold : draft.automaton.sets[target]? = some (q.kernel, q.items) :=
    Automaton.getElem?_sets_of_getElem? h.known
  have htarget := hstep.getElem?_sets hold
  have hgrowth := harena ▸ h.growth
  constructor
  case simple => exact hgrowth.simple hf.simple
  case links_iff =>
    intro l k
    rw [hgrowth.links_iff, Automaton.passes_step_iff hc hstep hid hsources htarget]
    constructor
    · rintro (hlink | hnew)
      · exact .inl (hf.links_iff.mp hlink)
      · exact .inr (.inl hnew)
    · rintro (hpass | hnew | ⟨core, p, β, hl, hp, hβ, hk⟩)
      · exact .inl (hf.links_iff.mpr hpass)
      · exact .inr hnew
      · exact .inl (hf.links_iff.mpr (.predict hold hl hp hβ hk))
  case looks =>
    intro k t ht
    rcases (Automaton.generates_step_iff hc hstep htarget).mp ht with
      ht | ⟨core, l, p, β, hl, hp, ht, hk⟩
    · exact hgrowth.looks (hf.looks ht)
    · exact hgrowth.looks (hf.looks (.first hold hl hp ht hk))
  case receives =>
    intro k t ht
    rcases (hgrowth.looks_iff k t).mp ht with ht | hfalse
    · exact (hf.receives ht).step hstep
    · exact hfalse.elim

/-- Adding a state keeps the flow. -/
theorem Added.flow {arena : Arena} (h : Added g limit draft sources target kernel items arena next)
    (hf : Flow g draft.automaton) (hc : Collection g draft.automaton id done)
    (hstep : Automaton.Step g draft.automaton m' id X target) (harena : m'.arena = next.arena)
    (hid : draft.automaton.sets[id]? = some (kernel₀, items₀))
    (hsources : Sources g X items₀.toList sources)
    (htarget : m'.sets[target]? = some (kernel, items)) : Flow g m' := by
  obtain ⟨news, gained, linked, hclosure, -⟩ := h.closed.growth
  have hpasses {l k : ItemId} := Automaton.passes_step_iff (h := l) (k := k) hc hstep hid hsources
    htarget
  constructor
  case links_iff =>
    intro l k
    rw [harena, hpasses]
    constructor
    · intro hlink
      rcases h.closed.links_sound hlink with hlink | hpredict
      · rcases (h.growth.links_iff l k).mp hlink with hlink | hshift
        · exact .inl (hf.links_iff.mp hlink)
        · exact .inr (.inl hshift)
      · exact .inr (.inr hpredict)
    · rintro (hpass | hshift | ⟨core, p, β, hl, hp, hβ, hk⟩)
      · exact hclosure.links (h.growth.links (hf.links_iff.mpr hpass))
      · exact hclosure.links ((h.growth.links_iff l k).mpr (.inr hshift))
      · obtain ⟨k', hk', -, hlink⟩ := h.closed.predicted hl (fun hw => hw) hp
        exact h.closed.isOver.id_unique hk' hk ▸ hlink hβ
  case simple =>
    rw [harena]
    exact hclosure.simple (h.growth.simple hf.simple)
  case looks =>
    intro k t ht
    rw [harena]
    rcases (Automaton.generates_step_iff hc hstep htarget).mp ht with
      ht | ⟨core, l, p, β, hl, hp, ht, hk⟩
    · exact hclosure.looks (h.growth.looks (hf.looks ht))
    · obtain ⟨k', hk', hlooks, -⟩ := h.closed.predicted hl (fun hw => hw) hp
      exact h.closed.isOver.id_unique hk' hk ▸ hlooks t ht
  case receives =>
    intro k t ht
    -- before the closure, new items look at what their sources look at
    have hbefore {k : ItemId} {t : TerminalId} (ht : arena.Looks k t) : m'.Receives g k t := by
      rcases (h.growth.looks_iff k t).mp ht with ht | ⟨core, source, hsource, hk, ht⟩
      · exact (hf.receives ht).step hstep
      · exact ((hf.receives ht).step hstep).passes (hpasses.mpr (.inr (.inl ⟨core, hsource, hk⟩)))
    exact Automaton.receives_of_closedUpTo h.closed htarget hbefore (harena ▸ ht)

end Draft

end Lalr
