import Lalr.Grammar.Examples
import Lalr.Proofs.Faultless
import Lalr.Proofs.Widening

/-!
# Closing an item set again

The closure looks at every item once. An item that gains terminals afterwards
does not pass them on, so closing a set again may let lookaheads grow. It leaves
everything else as it is, and it changes nothing exactly when the first closure
has found all lookaheads that the closure rules give (`closure_closure`). After
propagation that is always so (`closure_of_propagate`).

- `IsExpanded`: every member of a set has been looked at.
- `PassesOn`: what a member looks at has come to the items that it passes its
  lookahead on to.
- `IsExpanded.expand`, `IsExpanded.run`: looking at items again, one by one.
-/

namespace Lalr

open Grammar

variable {g : Grammar}

namespace Arena

variable {a : Arena} {source target : ItemId}

/-- A link that is there already is not recorded again. -/
theorem linkIf_eq_ok {wanted : Bool} (h : wanted = true → a.Links source target) :
    a.linkIf wanted source target = .ok a := by
  cases wanted with
  | false => rfl
  | true =>
    obtain ⟨item, hitem, htarget⟩ := h rfl
    have hlink : a.link source target = .ok (false, a) := by
      refine bind_eq_ok_iff.mpr ⟨item, get_eq_ok_iff.mpr hitem, ?_⟩
      rw [if_pos (Array.contains_iff_mem.mpr htarget)]
      rfl
    rw [linkIf, if_pos rfl, hlink]
    rfl

end Arena

/-! ## Looking at items again -/

/-- The set is over the arena, and all its members have been looked at. -/
structure IsExpanded (g : Grammar) (s : ItemSet) (a : Arena) : Prop where
  isOver : s.IsOver a
  predicted : ∀ {core id p β}, (core, id) ∈ s.toList → g.Predicts core.dotted p β →
    Predicted g s a id p β

/-- What the member `id` looks at in `a` has come in `b` to the items that it passes its lookahead
on to. -/
def PassesOn (g : Grammar) (s : ItemSet) (a b : Arena) (id : ItemId) : Prop :=
  ∀ ⦃core p β k t⦄, (core, id) ∈ s.toList → g.Predicts core.dotted p β → g.Nullable β →
    (⟨p, 0⟩, k) ∈ s.toList → a.Looks id t → b.Looks k t

variable {s : ItemSet} {a b : Arena} {core : Core} {id : ItemId}

theorem PassesOn.widen {a' b' : Arena} (h : PassesOn g s a b id)
    (ha : ∀ {id t}, a'.Looks id t → a.Looks id t) (hb : b.Widens b') : PassesOn g s a' b' id :=
  fun _ _ _ _ _ hmem hp hβ hk ht => hb.looks (h hmem hp hβ hk (ha ht))

namespace IsExpanded

theorem widen (h : IsExpanded g s a) (hw : a.Widens b) : IsExpanded g s b := by
  refine ⟨⟨h.isOver.nodup, fun hmem => ?_⟩, fun hmem hp => ?_⟩
  · rw [hw.cores_eq]
    exact h.isOver.stored hmem
  · exact (h.predicted hmem hp).mono (List.Subset.refl _) (fun _ _ => hw.looks)
      fun _ _ => hw.links_iff.mpr

/-- Predicting a production again widens the lookahead of its item. -/
theorem predict (h : IsExpanded g s a) {work : List ItemId} {p : ProductionId} {β : List Symbol}
    {lookahead : TerminalSet} {isVisible : Bool} (hmem : (core, id) ∈ s.toList)
    (hp : g.Predicts core.dotted p β) (hvisible : isVisible = true ↔ g.Nullable β)
    {next : Closing}
    (hstep : Closing.predict id isVisible lookahead ⟨s, a, work⟩ p = .ok next) :
    ∃ b, next = ⟨s, b, work⟩ ∧ a.Widens b ∧
      ∀ {k t}, (⟨p, 0⟩, k) ∈ s.toList → t ∈ lookahead → b.Looks k t := by
  obtain ⟨k, hk, -, hlinks⟩ := h.predicted hmem hp
  obtain ⟨item, hitem, -⟩ := h.isOver.exists_item hk
  have hwidens := Arena.widens_modify_extend hitem lookahead
  obtain ⟨placed, linked, hadd, hlink, rfl⟩ := Closing.exists_of_predict hstep
  rw [ItemSet.addNew, (ItemSet.find?_eq_some_iff h.isOver.nodup).mpr hk] at hadd
  obtain ⟨extended, hextend, hadd⟩ := bind_eq_ok_iff.mp hadd
  cases hadd
  obtain ⟨_, -, hextend⟩ := bind_eq_ok_iff.mp hextend
  cases hextend
  -- the link is there already
  rw [Arena.linkIf_eq_ok fun hv => hwidens.links_iff.mpr (hlinks (hvisible.mp hv))] at hlink
  cases hlink
  refine ⟨_, rfl, hwidens, fun hk' ht => ?_⟩
  cases h.isOver.id_unique hk hk'
  exact ((Arena.growth_modify_extend hitem lookahead).looks_iff k _).mpr (.inr ⟨rfl, ht⟩)

/-- Looking at a member again widens lookaheads, and passes its own on. -/
theorem expand (wf : g.WellFormed) (h : IsExpanded g s a) {work : List ItemId}
    (hmem : (core, id) ∈ s.toList) {next : Closing}
    (hstep : Closing.expand g id ⟨s, a, work⟩ = .ok next) :
    ∃ b, next = ⟨s, b, work⟩ ∧ a.Widens b ∧ PassesOn g s a b id := by
  obtain ⟨item, hitem, hcore⟩ := h.isOver.exists_item hmem
  have hunique {core' : Core} (hmem' : (core', id) ∈ s.toList) : core' = item.core :=
    (h.isOver.core_unique h.isOver hmem' hmem).trans hcore.symm
  rcases Closing.expand_cases wf hitem hstep with
    ⟨hnone, rfl⟩ | ⟨β, lookahead, isVisible, ps, -, hps, hlookahead, hvisible, hfold⟩
  · refine ⟨a, rfl, .refl a, fun core' p β k t hmem' hp => ?_⟩
    rw [hunique hmem'] at hp
    exact absurd hp (hnone p β)
  · have hreached : ∃ b, next = ⟨s, b, work⟩ ∧ a.Widens b ∧
        ∀ p ∈ ps, ∀ k t, (⟨p, 0⟩, k) ∈ s.toList → t ∈ lookahead → b.Looks k t := by
      refine foldlM_prefix_induction (P := fun done state => ∃ b, state = ⟨s, b, work⟩ ∧
        a.Widens b ∧ ∀ p ∈ done, ∀ k t, (⟨p, 0⟩, k) ∈ s.toList → t ∈ lookahead → b.Looks k t)
        hfold ⟨a, rfl, .refl a, by simp⟩ ?_
      rintro done p _ after hpre ⟨b, rfl, hwidens, hdone⟩ hpredict
      have hp : g.Predicts core.dotted p β :=
        hcore ▸ (hps p β).mpr ⟨hpre.subset (by simp), rfl⟩
      obtain ⟨c, rfl, hwidens', hthis⟩ := (h.widen hwidens).predict hmem hp hvisible hpredict
      refine ⟨c, rfl, hwidens.trans hwidens', fun q hq k t hk ht => ?_⟩
      rcases List.mem_append.mp hq with hq | hq
      · exact hwidens'.looks (hdone q hq k t hk ht)
      · cases List.mem_singleton.mp hq
        exact hthis hk ht
    obtain ⟨b, hnext, hwidens, hall⟩ := hreached
    refine ⟨b, hnext, hwidens, fun core' p β' k t hmem' hp hβ hk ht => ?_⟩
    rw [hunique hmem'] at hp
    obtain ⟨hp, rfl⟩ := (hps p β').mp hp
    exact hall p hp k t hk ((hlookahead t).mpr (.inr ⟨hβ, (Arena.looks_iff hitem).mp ht⟩))

/-- So does looking at several members again. -/
theorem run (wf : g.WellFormed) {state : Closing} (h : IsExpanded g state.set state.arena)
    (hwork : ∀ id ∈ state.work, ∃ core, (core, id) ∈ state.set.toList) {s' : ItemSet}
    (hrun : state.run g = .ok (s', b)) : s' = state.set ∧ state.arena.Widens b ∧
      ∀ id ∈ state.work, PassesOn g state.set state.arena b id := by
  fun_induction Closing.run g state with
  | case1 set arena =>
    cases hrun
    exact ⟨rfl, .refl _, by simp⟩
  | case2 => cases hrun
  | case3 set arena id work next hexpand ih =>
    obtain ⟨core, hmem⟩ := hwork id List.mem_cons_self
    obtain ⟨c, rfl, hwidens, hpass⟩ := h.expand wf hmem hexpand
    obtain ⟨rfl, hwidens', hpass'⟩ :=
      ih (h.widen hwidens) (fun k hk => hwork k (List.mem_cons_of_mem _ hk)) hrun
    refine ⟨rfl, hwidens.trans hwidens', List.forall_mem_cons.mpr ⟨?_, fun k hk => ?_⟩⟩
    · exact hpass.widen (fun ht => ht) hwidens'
    · exact (hpass' k hk).widen hwidens.looks (.refl b)

/-- **Closing a set again** keeps its members, and the cores and links of the arena; every member
passes on what it looked at before. -/
theorem closure (wf : g.WellFormed) (h : IsExpanded g s a)
    (hprod : ∀ x, s.Has x → g.HasProduction x) :
    ∃ b, s.closure g a = .ok (⟨s.members, none⟩, b) ∧ a.Widens b ∧ ∀ id, PassesOn g s a b id := by
  obtain ⟨⟨s', b⟩, hclosure⟩ := (ItemSet.closure_neverFails wf h.isOver hprod).exists_eq_ok
  let state : Closing := ⟨⟨s.members, none⟩, a, s.ids.reverse⟩
  have hstart : IsExpanded g state.set state.arena :=
    ⟨⟨h.isOver.nodup, h.isOver.stored⟩, h.predicted⟩
  obtain ⟨rfl, hwidens, hpass⟩ := run wf hstart
    (fun id hid => ItemSet.mem_ids_iff.mp (List.mem_reverse.mp hid)) hclosure
  refine ⟨b, hclosure, hwidens, fun id core p β k t hmem => ?_⟩
  exact hpass id (List.mem_reverse.mpr (ItemSet.mem_ids_iff.mpr ⟨core, hmem⟩)) hmem

/-- What is in the closure of members is a member. -/
theorem has_of_closure (h : IsExpanded g s a) {kernel : Dotted → Prop}
    (hkernel : ∀ x, kernel x → s.Has x) {x : Dotted} (hx : g.Closure kernel x) : s.Has x := by
  induction hx with
  | base hx => exact hkernel _ hx
  | predict _ hp ih =>
    obtain ⟨core, id, hmem, rfl⟩ := ih.exists_mem
    obtain ⟨k, hk, -⟩ := h.predicted hmem hp
    exact ItemSet.has_of_mem hk

/-- If members pass on what they look at, they look at all that the closure rules give. -/
theorem looks_of_closureLooks (h : IsExpanded g s a) (hpass : ∀ id, PassesOn g s a a id)
    {kernel : Dotted → Prop} {given : Dotted → TerminalId → Prop}
    (hkernel : ∀ x, kernel x → s.Has x) (hgiven : ∀ x t, given x t → s.Looks a x t) {x : Dotted}
    {t : TerminalId} (hx : g.ClosureLooks kernel given x t) : s.Looks a x t := by
  induction hx with
  | given hx => exact hgiven _ _ hx
  | first hx hp ht =>
    obtain ⟨core, id, hmem, rfl⟩ := (h.has_of_closure hkernel hx).exists_mem
    obtain ⟨k, hk, hfirst, -⟩ := h.predicted hmem hp
    exact ⟨_, k, hk, rfl, hfirst _ ht⟩
  | inherit _ hp hβ ih =>
    obtain ⟨core, id, hmem, rfl, ht⟩ := ih
    obtain ⟨k, hk, -⟩ := h.predicted hmem hp
    exact ⟨_, k, hk, rfl, hpass id hmem hp hβ hk ht⟩

/-- Closing a set again changes nothing exactly when its members have passed on what they look
at. -/
theorem closure_eq_iff (wf : g.WellFormed) (h : IsExpanded g s a)
    (hprod : ∀ x, s.Has x → g.HasProduction x) :
    s.closure g a = .ok (⟨s.members, none⟩, a) ↔ ∀ id, PassesOn g s a a id := by
  obtain ⟨b, hclosure, hwidens, hpass⟩ := h.closure wf hprod
  constructor
  · intro heq
    cases hclosure.symm.trans heq
    exact hpass
  · intro hpass
    rw [hclosure, hwidens.eq_of_looks fun id t ht => ?_]
    rcases (closedUpTo_closure wf h.isOver hclosure).looks_sound ht with ht | ⟨core, hmem, hlooks⟩
    · exact ht
    · obtain ⟨core', id', hmem', hdotted, ht⟩ :=
        h.looks_of_closureLooks hpass (fun _ hx => hx) (fun _ _ hx => hx) hlooks
      cases Core.dotted_inj.mp hdotted
      exact h.isOver.id_unique hmem' hmem ▸ ht

end IsExpanded

/-! ## Closing a set twice -/

section Twice

variable {s' : ItemSet} {a' : Arena}

/-- The closure of a set looks at all its members. -/
theorem ClosedUpTo.isExpanded (h : ClosedUpTo g s a s' a' fun _ => False) : IsExpanded g s' a' :=
  ⟨h.isOver, fun hmem hp => h.predicted hmem (fun hw => hw) hp⟩

theorem ClosedUpTo.hasProduction (h : ClosedUpTo g s a s' a' fun _ => False)
    (hprod : ∀ x, s.Has x → g.HasProduction x) : ∀ x, s'.Has x → g.HasProduction x := by
  intro x hx
  obtain ⟨core, id, hmem, rfl⟩ := hx.exists_mem
  exact (h.closure hmem).hasProduction hprod

/-- The members of a closure have passed on what they look at exactly when they look at all that the
rules give. -/
theorem ClosedUpTo.passesOn_iff (h : ClosedUpTo g s a s' a' fun _ => False) :
    (∀ id, PassesOn g s' a' a' id) ↔
      ∀ x t, g.ClosureLooks s.Has (s.Looks a) x t → s'.Looks a' x t := by
  constructor
  · intro hpass x t
    refine h.isExpanded.looks_of_closureLooks hpass (fun x hx => ?_) fun x t hx => ?_
    · obtain ⟨core, id, hmem, rfl⟩ := hx.exists_mem
      exact ItemSet.has_of_mem (h.kernel_subset hmem)
    · obtain ⟨core, id, hmem, rfl, ht⟩ := hx
      obtain ⟨news, gained, linked, hgrowth, -⟩ := h.growth
      exact ⟨core, id, h.kernel_subset hmem, rfl, hgrowth.looks ht⟩
  · intro hall id core p β k t hmem hp hβ hk ht
    obtain ⟨core', id', hmem', hdotted, ht'⟩ :=
      hall ⟨p, 0⟩ t (.inherit (h.closureLooks hmem ht) hp hβ)
    have hcore : core' = ⟨p, 0⟩ := Core.dotted_inj.mp hdotted
    subst hcore
    exact h.isOver.id_unique hmem' hk ▸ ht'

/-- **Closing a set twice**: the second closure keeps the members in their order, all cores and all
links. Lookaheads stay the same, too, exactly when the first closure has found all that the closure
rules give. -/
theorem closure_closure (hg : g.IsDefined) (hs : s.IsOver a)
    (hprod : ∀ x, s.Has x → g.HasProduction x) :
    ∃ s' a' a'', s.closure g a = .ok (s', a') ∧
      s'.closure g a' = .ok (⟨s'.members, none⟩, a'') ∧ a''.skeleton = a'.skeleton ∧
      (a'' = a' ↔ ∀ x t, g.ClosureLooks s.Has (s.Looks a) x t → s'.Looks a' x t) := by
  obtain ⟨⟨s', a'⟩, hfirst⟩ := (ItemSet.closure_neverFails hg.wellFormed hs hprod).exists_eq_ok
  have hclosed := closedUpTo_closure hg.wellFormed hs hfirst
  have hprod' := hclosed.hasProduction hprod
  obtain ⟨a'', hsecond, hwidens, -⟩ := hclosed.isExpanded.closure hg.wellFormed hprod'
  refine ⟨s', a', a'', hfirst, hsecond, hwidens.skeleton_eq, ?_⟩
  rw [← hclosed.passesOn_iff, ← hclosed.isExpanded.closure_eq_iff hg.wellFormed hprod', hsecond]
  simp

/-- The start of the augmented grammar before the end of the input, in an arena of its own. -/
def startKernel : ItemSet × Arena :=
  (ItemSet.empty.push ⟨acceptProduction, 0⟩ 0,
    (Arena.empty.alloc ⟨acceptProduction, 0⟩ (.singleton endOfInput)).2)

theorem isOver_startKernel : startKernel.1.IsOver startKernel.2 :=
  (ItemSet.isOver_empty _).push rfl rfl

theorem hasProduction_of_startKernel (wf : g.WellFormed) :
    ∀ x, startKernel.1.Has x → g.HasProduction x := by
  rintro x ⟨core, hcore, rfl⟩
  cases List.mem_singleton.mp hcore
  exact ⟨_, _, wf.accept⟩

/-- The first closure of the start misses a lookahead in this grammar; the second one finds it. -/
theorem exists_closure_lateLookahead : ∃ g s' a' a'',
    Grammar.define Examples.lateLookahead = .ok g ∧
      startKernel.1.closure g startKernel.2 = .ok (s', a') ∧
      s'.closure g a' = .ok (⟨s'.members, none⟩, a'') ∧ a'' ≠ a' := by
  obtain ⟨g, hg, hcheck⟩ := exists_define_of_check Examples.lateLookahead
    (fun g => match startKernel.1.closure g startKernel.2 with
      | .error _ => false
      | .ok (s', a') => match s'.closure g a' with
        | .error _ => false
        | .ok (s'', a'') => s'' == ⟨s'.members, none⟩ && a'' != a') (by decide +kernel)
  split at hcheck
  · cases hcheck
  · next s' a' hfirst =>
    split at hcheck
    · cases hcheck
    · next s'' a'' hsecond =>
      simp only [Bool.and_eq_true, beq_iff_eq, bne_iff_ne] at hcheck
      obtain ⟨rfl, hne⟩ := hcheck
      exact ⟨g, s', a', a'', hg, hfirst, hsecond, hne⟩

/-- In this grammar the first closure of the start has not found all lookaheads. -/
theorem closure_closure_lateLookahead : ∃ g s' a',
    Grammar.define Examples.lateLookahead = .ok g ∧
      startKernel.1.closure g startKernel.2 = .ok (s', a') ∧
      ¬∀ x t, g.ClosureLooks startKernel.1.Has (startKernel.1.Looks startKernel.2) x t →
        s'.Looks a' x t := by
  obtain ⟨g, s', a', a'', hg, hfirst, hsecond, hne⟩ := exists_closure_lateLookahead
  have hdefined : g.IsDefined := .of_define hg
  obtain ⟨s₁, a₁, a₂, hfirst', hsecond', -, hiff⟩ := closure_closure hdefined isOver_startKernel
    (hasProduction_of_startKernel hdefined.wellFormed)
  cases hfirst.symm.trans hfirst'
  cases hsecond.symm.trans hsecond'
  exact ⟨g, s', a', hg, hfirst, hiff.not.mp hne⟩

/-- So closures are not idempotent. -/
theorem not_closure_idempotent : ¬∀ (g : Grammar) (s : ItemSet) (a : Arena), g.IsDefined →
    s.IsOver a → (∀ x, s.Has x → g.HasProduction x) → ∀ s' a', s.closure g a = .ok (s', a') →
      ∃ s'', s'.closure g a' = .ok (s'', a') ∧ s''.members = s'.members := by
  intro hall
  obtain ⟨g, s', a', a'', hg, hfirst, hsecond, hne⟩ := exists_closure_lateLookahead
  have hdefined : g.IsDefined := .of_define hg
  obtain ⟨s'', hsame, -⟩ := hall g _ _ hdefined isOver_startKernel
    (hasProduction_of_startKernel hdefined.wellFormed) s' a' hfirst
  cases hsecond.symm.trans hsame
  exact hne rfl

/-! ## Closing a set after propagation -/

section Propagated

variable {n : Nat}

theorem ClosedUpTo.isExpanded_of_propagate (h : ClosedUpTo g s a s' a' fun _ => False)
    (hpropagate : a'.propagate = .ok (n, b)) : IsExpanded g s' b := by
  have hgrowth := Arena.growth_propagate hpropagate
  refine ⟨h.isOver.growth hgrowth, fun hmem hp => ?_⟩
  exact (h.isExpanded.predicted hmem hp).mono (List.Subset.refl _) (fun _ _ => hgrowth.looks)
    fun _ _ => hgrowth.links

/-- The links of a closure pass lookaheads on to all that ought to have them. -/
theorem ClosedUpTo.passesOn_of_propagate (h : ClosedUpTo g s a s' a' fun _ => False)
    (hpropagate : a'.propagate = .ok (n, b)) : ∀ id, PassesOn g s' b b id := by
  have hgrowth := Arena.growth_propagate hpropagate
  intro id core p β k t hmem hp hβ hk ht
  obtain ⟨k', hk', -, hlinks⟩ := h.isExpanded.predicted hmem hp
  cases h.isOver.id_unique hk hk'
  have hreaches : a'.Reaches id t := ((hgrowth.looks_iff id t).mp ht).elim .of_looks fun hr => hr
  exact hgrowth.looks_iff k t |>.mpr (.inr (hreaches.links (hlinks hβ)))

/-- **Propagation completes closures**: after it, closing a set again changes nothing. -/
theorem closure_of_propagate (wf : g.WellFormed) (hs : s.IsOver a)
    (hprod : ∀ x, s.Has x → g.HasProduction x) (hclosure : s.closure g a = .ok (s', a'))
    (hpropagate : a'.propagate = .ok (n, b)) :
    s'.closure g b = .ok (⟨s'.members, none⟩, b) := by
  have hclosed := closedUpTo_closure wf hs hclosure
  have hexpanded := hclosed.isExpanded_of_propagate hpropagate
  exact (hexpanded.closure_eq_iff wf (hclosed.hasProduction hprod)).mpr
    (hclosed.passesOn_of_propagate hpropagate)

end Propagated

end Twice

end Lalr
