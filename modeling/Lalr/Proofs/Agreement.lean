import Lalr.Proofs.Closure
import Lalr.Proofs.Follow

/-!
# Grammars that agree on what is reachable

A grammar may have more symbols and more productions than another one. What is
done with items of productions whose left side is reachable does not depend on
them: the results are equal, number for number, and so are the failures.

- `foldlM_congr_of_invariant`, `bind_congr_of_ok`: two runs are equal if their
  steps are equal wherever the invariant of the first one holds.
- `Grammar.Agrees`: the other grammar has the same records of all reachable
  nonterminals and of their productions.
- `Grammar.InReach`: the item is one of such a production. A closure stays among
  these items (`Closure.inReach`).
- `Agrees.closure`: closures of such items are equal.
-/

namespace Lalr

/-! ## Runs in lockstep -/

section Lockstep

variable {ε α β : Type}

/-- Sequences are equal if their first parts are, and their second parts for what the first parts
can have as their result. -/
theorem bind_congr_of_ok {x y : Except ε α} {f f' : α → Except ε β} (hx : x = y)
    (hf : ∀ a, y = .ok a → f a = f' a) : (x >>= f) = (y >>= f') := by
  subst hx
  cases x with
  | error e => rfl
  | ok a => exact hf a rfl

/-- Steps that are equal where an invariant of the one run holds make equal runs. -/
theorem foldlM_congr_of_invariant {P : List α → β → Prop} {f f' : β → α → Except ε β}
    {as : List α} {b : β} (hstart : P [] b)
    (hsame : ∀ done a d, done ++ [a] <+: as → P done d → f' d a = f d a)
    (hkept : ∀ done a d e, done ++ [a] <+: as → P done d → f d a = .ok e → P (done ++ [a]) e) :
    as.foldlM f' b = as.foldlM f b := by
  suffices hlater : ∀ todo done d, done ++ todo = as → P done d →
      todo.foldlM f' d = todo.foldlM f d from hlater as [] b rfl hstart
  intro todo
  induction todo with
  | nil => exact fun _ _ _ _ => rfl
  | cons a todo ih =>
    intro done d heq hholds
    rw [List.append_cons] at heq
    rw [List.foldlM_cons, List.foldlM_cons]
    exact bind_congr_of_ok (hsame done a d ⟨todo, heq⟩ hholds) fun e hstep =>
      ih (done ++ [a]) e heq (hkept done a d e ⟨todo, heq⟩ hholds hstep)

theorem mapM_congr {f f' : α → Except ε β} {as : List α} (hsame : ∀ a ∈ as, f' a = f a) :
    as.mapM f' = as.mapM f := by
  induction as with
  | nil => rfl
  | cons a as ih =>
    rw [List.mapM_cons, List.mapM_cons, hsame a List.mem_cons_self,
      ih fun b hb => hsame b (List.mem_cons_of_mem a hb)]

end Lockstep

/-! ## Grammars that agree -/

namespace Grammar

variable {g g' : Grammar} {x : Dotted} {n : NonterminalId}

/-- The item is one of a production with a reachable left side. -/
def InReach (g : Grammar) (x : Dotted) : Prop :=
  ∃ n right, g.Expands x.production n right ∧ g.Reachable n

/-- A nonterminal after the marker of such an item is reachable. -/
theorem InReach.reachable {β : List Symbol} (h : g.InReach x)
    (hx : g.After x (.nonterminal n) β) : g.Reachable n := by
  obtain ⟨m, right, hp, hdrop⟩ := hx
  obtain ⟨m', right', hp', hm⟩ := h
  obtain ⟨rfl, rfl⟩ := hp.unique hp'
  exact hm.use hp (List.mem_of_mem_drop (hdrop ▸ List.mem_cons_self))

theorem Closure.inReach {K : Dotted → Prop} (h : g.Closure K x) (hK : ∀ y, K y → g.InReach y) :
    g.InReach x := by
  induction h with
  | base hx => exact hK _ hx
  | predict _ hp ih =>
    obtain ⟨n, right, hn, hright⟩ := hp
    exact ⟨n, right, hright, ih.reachable hn⟩

theorem Lr0Valid.inReach {γ : List Symbol} (wf : g.WellFormed) (h : g.Lr0Valid γ x) :
    g.InReach x := by
  obtain ⟨n, right, hp, -⟩ := h.expands wf
  exact ⟨n, right, hp, h.reachable wf hp⟩

/-- The grammar `g'` says the same as `g` about everything that is reachable in `g`: reachable
nonterminals and their productions have the same records in both. -/
structure Agrees (g g' : Grammar) : Prop where
  exists_nonterminal : ∀ n : NonterminalId, g.Reachable n →
    ∃ nonterminal, g.nonterminals[n]? = some nonterminal ∧ g'.nonterminals[n]? = some nonterminal
  exists_production : ∀ (p : ProductionId) n right, g.Expands p n right → g.Reachable n →
    ∃ production, g.productions[p]? = some production ∧ g'.productions[p]? = some production

namespace Agrees

/-! ## Look-ups in the grammar -/

theorem nonterminal (h : g.Agrees g') (hn : g.Reachable n) :
    g'.nonterminal n = g.nonterminal n := by
  obtain ⟨nonterminal, heq, heq'⟩ := h.exists_nonterminal n hn
  unfold Grammar.nonterminal
  rw [heq, heq']

theorem production (h : g.Agrees g') (hx : g.InReach x) :
    g'.production x.production = g.production x.production := by
  obtain ⟨n, right, hp, hn⟩ := hx
  obtain ⟨production, heq, heq'⟩ := h.exists_production _ n right hp hn
  unfold Grammar.production
  rw [heq, heq']

variable {core : Core} {item : Item}

theorem next? (h : g.Agrees g') (hcore : g.InReach core.dotted) :
    core.next? g' = core.next? g :=
  bind_congr_of_ok (h.production hcore) fun _ _ => rfl

theorem rest (h : g.Agrees g') (hcore : g.InReach core.dotted) : core.rest g' = core.rest g :=
  bind_congr_of_ok (h.production hcore) fun _ _ => rfl

theorem isComplete (h : g.Agrees g') (hitem : g.InReach item.core.dotted) :
    item.isComplete g' = item.isComplete g :=
  bind_congr_of_ok (h.next? hitem) fun _ _ => rfl

theorem nextNonterminal? (h : g.Agrees g') (hitem : g.InReach item.core.dotted) :
    item.nextNonterminal? g' = item.nextNonterminal? g :=
  bind_congr_of_ok (h.next? hitem) fun _ _ => rfl

theorem firstOfRest (h : g.Agrees g') (hitem : g.InReach item.core.dotted)
    (lookahead : TerminalSet) : item.firstOfRest g' lookahead = item.firstOfRest g lookahead :=
  bind_congr_of_ok (h.rest hitem) fun _ _ => rfl

theorem isLookaheadVisible (h : g.Agrees g') (hitem : g.InReach item.core.dotted) :
    item.isLookaheadVisible g' = item.isLookaheadVisible g :=
  bind_congr_of_ok (h.rest hitem) fun _ _ => rfl

/-! ## Closures -/

variable {s : ItemSet} {a : Arena} {id : ItemId}

/-- Looking at an item looks up its production and the nonterminal after its marker. -/
theorem expand (h : g.Agrees g') {state : Closing} (hid : state.arena.cores[id]? = some core)
    (hcore : g.InReach core.dotted) : state.expand g' id = state.expand g id := by
  obtain ⟨item, hitem, rfl⟩ := Arena.getElem?_cores_eq_some_iff.mp hid
  refine bind_congr_of_ok rfl fun item' hget => ?_
  cases hitem.symm.trans (Arena.get_eq_ok_iff.mp hget)
  refine bind_congr_of_ok (h.nextNonterminal? hcore) fun after hafter => ?_
  cases after with
  | none => rfl
  | some n =>
    refine bind_congr_of_ok (h.firstOfRest hcore _) fun lookahead _ => ?_
    refine bind_congr_of_ok (h.isLookaheadVisible hcore) fun isVisible _ => ?_
    obtain ⟨β, hn⟩ := Item.nextNonterminal?_eq_some_iff.mp hafter
    exact bind_congr_of_ok (h.nonterminal (hcore.reachable hn)) fun _ _ => rfl

theorem run (h : g.Agrees g') (wf : g.WellFormed) (hs : ∀ x, s.Has x → g.InReach x)
    {state : Closing} (hclosed : ClosedUpTo g s a state.set state.arena (· ∈ state.work)) :
    state.run g' = state.run g := by
  have hexpand {set : ItemSet} {arena : Arena} {id : ItemId} {work : List ItemId}
      (hclosed : ClosedUpTo g s a set arena (· ∈ id :: work)) :
      Closing.expand g' id ⟨set, arena, work⟩ = Closing.expand g id ⟨set, arena, work⟩ := by
    obtain ⟨core, hmem⟩ := hclosed.waiting_mem List.mem_cons_self
    exact h.expand (hclosed.isOver.stored hmem) ((hclosed.closure hmem).inReach hs)
  fun_induction Closing.run g state with
  | case1 => rw [Closing.run]
  | case2 set arena id work e hfault =>
    rw [Closing.run, hexpand hclosed, hfault]
  | case3 set arena id work next hok ih =>
    have hopen : ClosedUpTo g s a set arena fun k => k = id ∨ k ∈ work :=
      hclosed.congr fun k => List.mem_cons
    rw [Closing.run, hexpand hclosed, hok]
    exact ih (ClosedUpTo.expand wf hopen hok)

/-- **Closures are equal.** -/
theorem closure (h : g.Agrees g') (wf : g.WellFormed) (hover : s.IsOver a)
    (hs : ∀ x, s.Has x → g.InReach x) : s.closure g' a = s.closure g a :=
  h.run wf hs (ClosedUpTo.refl hover)

end Agrees

end Grammar

end Lalr
