import Lalr.Proofs.Reclosure

/-!
# Complete closures

The closure of an item set finds all its items, but not all their lookaheads;
what is missing depends on the order in which items are looked at. The links
that it records make up for that: when the lookaheads have flowed along them,
they are those of the LR(1) closure (`closure_propagate_isExact`). So the order
in which the items of the set came in does not matter for them.

- `ClosedUpTo.closureLooks_of_reaches`: what flows along the links of a closure
  is what the rules give.
- `ItemSet.SameItems`: two sets, each over an arena of its own, have the same
  items with the same lookaheads.
- `exists_closure_propagate`: closure and propagation of one set.
-/

namespace Lalr

open Grammar

variable {g : Grammar} {s s' r : ItemSet} {a a' b c : Arena}

/-! ## What flows along the links of a closure -/

section Flow

variable {core : Core} {id : ItemId} {t : TerminalId} {n : Nat}
variable (h : ClosedUpTo g s a s' a' fun _ => False)
variable (hlinks : ∀ source target, ¬a.Links source target)

include h hlinks

/-- If there were no links, the closure has recorded links between its members only. -/
theorem ClosedUpTo.exists_predicts_of_links {source target : ItemId}
    (hlink : a'.Links source target) : ∃ core p β, (core, source) ∈ s'.toList ∧
      g.Predicts core.dotted p β ∧ g.Nullable β ∧ (⟨p, 0⟩, target) ∈ s'.toList :=
  (h.links_sound hlink).resolve_left (hlinks source target)

/-- They stay within the arena. -/
theorem ClosedUpTo.isClosed : a'.IsClosed := by
  intro source target hlink
  obtain ⟨core, p, β, -, -, -, htarget⟩ := h.exists_predicts_of_links hlinks hlink
  exact h.isOver.id_lt_size htarget

/-- What reaches a member is what the rules give it. -/
theorem ClosedUpTo.closureLooks_of_reaches (hmem : (core, id) ∈ s'.toList)
    (ht : a'.Reaches id t) : g.ClosureLooks s.Has (s.Looks a) core.dotted t := by
  -- the path stays within the members: each of its links leads to an item that is predicted
  obtain ⟨origin, hpath, ht⟩ := ht
  induction hpath generalizing core with
  | refl => exact h.closureLooks hmem ht
  | tail _ hlink ih =>
    obtain ⟨parent, p, β, hparent, hp, hβ, htarget⟩ := h.exists_predicts_of_links hlinks hlink
    rw [h.isOver.core_unique h.isOver hmem htarget]
    exact (ih hparent).inherit hp hβ

/-- **After propagation the members of a closure look at what the rules give.** -/
theorem ClosedUpTo.looks_propagate_iff (hpropagate : a'.propagate = .ok (n, b)) {x : Dotted} :
    s'.Looks b x t ↔ g.ClosureLooks s.Has (s.Looks a) x t := by
  have hpropagated := Arena.growth_propagate hpropagate
  constructor
  · rintro ⟨core, id, hmem, rfl, ht⟩
    rcases (hpropagated.looks_iff id t).mp ht with ht | ht
    · exact h.closureLooks hmem ht
    · exact h.closureLooks_of_reaches hlinks hmem ht
  · refine (h.isExpanded_of_propagate hpropagate).looks_of_closureLooks
      (h.passesOn_of_propagate hpropagate) (fun x hx => h.has_iff.mpr (.base hx)) ?_
    rintro x t ⟨core, id, hmem, rfl, ht⟩
    obtain ⟨news, gained, linked, hgrowth, -⟩ := h.growth
    exact ⟨core, id, h.kernel_subset hmem, rfl, hpropagated.looks (hgrowth.looks ht)⟩

end Flow

/-! ## Order does not matter -/

/-- The set `r` over `c` has the items of the set `s` over `a`, with the same lookaheads. The items
may have come in any order, and have other numbers. -/
structure ItemSet.SameItems (r : ItemSet) (c : Arena) (s : ItemSet) (a : Arena) : Prop where
  has_iff : ∀ x, r.Has x ↔ s.Has x
  looks_iff : ∀ x t, r.Looks c x t ↔ s.Looks a x t

theorem ItemSet.SameItems.of_perm (h : r.toList.Perm s.toList) : r.SameItems a s a := by
  constructor
  case has_iff =>
    intro x
    simp only [Has, mem_cores_iff, h.mem_iff]
  case looks_iff =>
    intro x t
    simp only [Looks, h.mem_iff]

theorem Grammar.ClosureLooks.mono {K L : Dotted → Prop} {G H : Dotted → TerminalId → Prop}
    {x : Dotted} {t : TerminalId} (h : g.ClosureLooks K G x t) (hK : ∀ y, K y → L y)
    (hG : ∀ y u, G y u → H y u) : g.ClosureLooks L H x t := by
  induction h with
  | given hx => exact .given (hG _ _ hx)
  | first hx hp ht => exact .first (hx.mono hK) hp ht
  | inherit _ hp hβ ih => exact ih.inherit hp hβ

/-- The rules give the same to the same items. -/
theorem ItemSet.SameItems.closureLooks_iff (h : r.SameItems c s a) {x : Dotted} {t : TerminalId} :
    g.ClosureLooks r.Has (r.Looks c) x t ↔ g.ClosureLooks s.Has (s.Looks a) x t :=
  ⟨fun ht => ht.mono (fun y => (h.has_iff y).mp) fun y u => (h.looks_iff y u).mp,
    fun ht => ht.mono (fun y => (h.has_iff y).mpr) fun y u => (h.looks_iff y u).mpr⟩

/-! ## Closure and propagation -/

/-- Over an arena without links, closure and propagation have a result: it is the LR(1) closure, and
it is closed. -/
theorem exists_closure_propagate (wf : g.WellFormed) (hs : s.IsOver a)
    (hprod : ∀ x, s.Has x → g.HasProduction x) (hlinks : ∀ source target, ¬a.Links source target) :
    ∃ s' a' n b, s.closure g a = .ok (s', a') ∧ a'.propagate = .ok (n, b) ∧
      (∀ x, s'.Has x ↔ g.Closure s.Has x) ∧
      (∀ x t, s'.Looks b x t ↔ g.ClosureLooks s.Has (s.Looks a) x t) ∧
      s'.closure g b = .ok (⟨s'.members, none⟩, b) := by
  obtain ⟨⟨s', a'⟩, hclosure⟩ := (ItemSet.closure_neverFails wf hs hprod).exists_eq_ok
  have hclosed := closedUpTo_closure wf hs hclosure
  obtain ⟨⟨n, b⟩, hpropagate⟩ :=
    (Arena.propagate_neverFails (hclosed.isClosed hlinks)).exists_eq_ok
  exact ⟨s', a', n, b, hclosure, hpropagate, fun x => hclosed.has_iff,
    fun x t => hclosed.looks_propagate_iff hlinks hpropagate,
    closure_of_propagate wf hs hprod hclosure hpropagate⟩

/-- **Closure and propagation give the LR(1) closure**: its cores, and exactly the lookaheads of the
least set that has the given ones and is closed under the rules. They are the same for every set
with the same items, in whatever order these came in; and closing the set again changes nothing. -/
theorem closure_propagate_isExact (hg : g.IsDefined) (hs : s.IsOver a)
    (hprod : ∀ x, s.Has x → g.HasProduction x) (hlinks : ∀ source target, ¬a.Links source target) :
    ∃ s' a' n b, s.closure g a = .ok (s', a') ∧ a'.propagate = .ok (n, b) ∧
      (∀ x, s'.Has x ↔ g.Closure s.Has x) ∧
      (∀ x t, s'.Looks b x t ↔ g.ClosureLooks s.Has (s.Looks a) x t) ∧
      s'.closure g b = .ok (⟨s'.members, none⟩, b) ∧
      ∀ (r : ItemSet) (c : Arena), r.IsOver c → (∀ source target, ¬c.Links source target) →
        r.SameItems c s a →
        ∃ r' c' m d, r.closure g c = .ok (r', c') ∧ c'.propagate = .ok (m, d) ∧
          r'.SameItems d s' b := by
  obtain ⟨s', a', n, b, hclosure, hpropagate, hhas, hlooks, hagain⟩ :=
    exists_closure_propagate hg.wellFormed hs hprod hlinks
  refine ⟨s', a', n, b, hclosure, hpropagate, hhas, hlooks, hagain, ?_⟩
  intro r c hr hlinks' hsame
  obtain ⟨r', c', m, d, hclosure', hpropagate', hhas', hlooks', -⟩ :=
    exists_closure_propagate hg.wellFormed hr (fun x hx => hprod x ((hsame.has_iff x).mp hx))
      hlinks'
  refine ⟨r', c', m, d, hclosure', hpropagate', fun x => ?_, fun x t => ?_⟩
  · rw [hhas', hhas]
    exact closure_congr hsame.has_iff
  · rw [hlooks', hlooks]
    exact hsame.closureLooks_iff

/-! ## Two items in both orders -/

/-- The start of the augmented grammar before the end of the input, and the next production on
terminal 2. -/
def twoItems : Arena :=
  ((Arena.empty.alloc ⟨acceptProduction, 0⟩ (.singleton endOfInput)).2.alloc ⟨1, 0⟩
    (.singleton 2)).2

/-- The two items in their order. -/
def inOrder : ItemSet := (ItemSet.empty.push ⟨acceptProduction, 0⟩ 0).push ⟨1, 0⟩ 1

/-- The two items, the later one first. -/
def reversed : ItemSet := (ItemSet.empty.push ⟨1, 0⟩ 1).push ⟨acceptProduction, 0⟩ 0

theorem isOver_twoItems : inOrder.IsOver twoItems ∧ reversed.IsOver twoItems :=
  ⟨((ItemSet.isOver_empty _).push rfl rfl).push rfl rfl,
    ((ItemSet.isOver_empty _).push rfl rfl).push rfl rfl⟩

theorem not_links_twoItems (source target : ItemId) : ¬twoItems.Links source target := by
  rintro ⟨item, hitem, htarget⟩
  have hnone : ∀ item ∈ twoItems.items.toList, item.targets = #[] := by decide
  rw [hnone item (Array.mem_toList_iff.mpr (Array.mem_of_getElem? hitem))] at htarget
  exact Array.not_mem_empty target htarget

/-- In this grammar both orders of the two items lead to the same LR(1) closure. -/
theorem closure_propagate_lateLookahead : ∃ g s' a' n b r' c' m d,
    Grammar.define Examples.lateLookahead = .ok g ∧
      inOrder.closure g twoItems = .ok (s', a') ∧ a'.propagate = .ok (n, b) ∧
      reversed.closure g twoItems = .ok (r', c') ∧ c'.propagate = .ok (m, d) ∧
      (∀ x t, s'.Looks b x t ↔
        g.ClosureLooks inOrder.Has (inOrder.Looks twoItems) x t) ∧
      r'.SameItems d s' b := by
  obtain ⟨g, hg, hcheck⟩ := exists_define_of_check Examples.lateLookahead
    (fun g : Grammar => decide (2 ≤ g.productions.size)) (by decide +kernel)
  have hprod (x : Dotted) (hx : inOrder.Has x) : g.HasProduction x := by
    refine hasProduction_of_lt (Nat.lt_of_lt_of_le ?_ (of_decide_eq_true hcheck))
    obtain ⟨core, hcore, rfl⟩ := hx
    have hsmall : ∀ core ∈ inOrder.cores, core.production < 2 := by decide
    exact hsmall core hcore
  obtain ⟨s', a', n, b, hclosure, hpropagate, -, hlooks, -, hall⟩ :=
    closure_propagate_isExact (.of_define hg) isOver_twoItems.1 hprod not_links_twoItems
  obtain ⟨r', c', m, d, hclosure', hpropagate', hsame⟩ :=
    hall reversed twoItems isOver_twoItems.2 not_links_twoItems (.of_perm (.swap _ _ _))
  exact ⟨g, s', a', n, b, r', c', m, d, hg, hclosure, hpropagate, hclosure', hpropagate', hlooks,
    hsame⟩

end Lalr
