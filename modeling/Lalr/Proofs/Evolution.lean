import Lalr.Proofs.Frame
import Lalr.Proofs.Join

/-!
# What no operation takes back

Whatever is done with items, an arena only ever gets more of everything: items
and links behind those that it has, and terminals in lookaheads.

- `Arena.Evolves`: one arena comes from another in this way, and links stay within
  it and without repetition if they did so before.
- `Arena.*_evolves`: the operations on items. A link has to lead to an item of the
  arena, which `link` does not check.
- `ItemSet.*_evolves`: the operations on sets. A set that was over the arena still
  is, and other sets are so anyway (`ItemSet.IsOver.evolves`).
-/

namespace Lalr

namespace Arena

variable {a b c : Arena} {id source target : ItemId} {t : TerminalId}

theorem isSimple_iff : a.IsSimple ↔ ∀ id, (a.targets id).Nodup := by
  constructor
  · intro hs id
    unfold targets
    cases hid : a[id]? with
    | none => exact .nil
    | some item => exact hs id item hid
  · intro hs id item hid
    rw [← targets_eq hid]
    exact hs id

theorem Widens.targets_eq (h : a.Widens b) : b.targets id = a.targets id := by
  have htargets (c : Arena) :
      c.targets id = (c.skeleton[id]?.map fun entry => entry.2.toList).getD [] := by
    rw [getElem?_skeleton, Option.map_map]
    rfl
  rw [htargets, htargets, h.skeleton_eq]

/-- The arena `b` comes from `a` without that anything is taken back: items keep their cores,
lookaheads and links, and what is new comes last. -/
structure Evolves (a b : Arena) : Prop where
  cores : a.cores <+: b.cores
  looks : ∀ {id t}, a.Looks id t → b.Looks id t
  targets : ∀ id, a.targets id <+: b.targets id
  closed : a.IsClosed → b.IsClosed
  simple : a.IsSimple → b.IsSimple

theorem Evolves.refl (a : Arena) : a.Evolves a :=
  ⟨List.prefix_rfl, fun ht => ht, fun _ => List.prefix_rfl, fun h => h, fun h => h⟩

theorem Evolves.trans (h : a.Evolves b) (h' : b.Evolves c) : a.Evolves c where
  cores := h.cores.trans h'.cores
  looks ht := h'.looks (h.looks ht)
  targets id := (h.targets id).trans (h'.targets id)
  closed ha := h'.closed (h.closed ha)
  simple ha := h'.simple (h.simple ha)

theorem Evolves.getElem?_cores {core : Core} (h : a.Evolves b) (hid : a.cores[id]? = some core) :
    b.cores[id]? = some core := by
  obtain ⟨news, hcores⟩ := h.cores
  rw [← hcores, List.getElem?_append_left (List.getElem?_eq_some_iff.mp hid).choose, hid]

theorem Evolves.size_le (h : a.Evolves b) : a.size ≤ b.size := by
  rw [← length_cores, ← length_cores]
  exact h.cores.length_le

theorem Widens.evolves (h : a.Widens b) : a.Evolves b where
  cores := h.cores_eq ▸ List.prefix_rfl
  looks := h.looks
  targets _ := h.targets_eq ▸ List.prefix_rfl
  closed := h.isClosed_iff.mpr
  simple hs := isSimple_iff.mpr fun id => h.targets_eq ▸ isSimple_iff.mp hs id

theorem Growth.evolves {news : List Core} {gained : ItemId → TerminalId → Prop}
    {linked : ItemId → ItemId → Prop} (h : a.Growth b news gained linked)
    (htargets : ∀ id, a.targets id <+: b.targets id)
    (hlinked : ∀ source target, linked source target → target < b.size) : a.Evolves b where
  cores := h.cores ▸ List.prefix_append _ _
  looks := h.looks
  targets := htargets
  simple := h.simple
  closed hclosed := by
    intro source target hlink
    rcases (h.links_iff source target).mp hlink with hold | hnew
    · exact Nat.lt_of_lt_of_le (hclosed hold) (h.size_eq ▸ Nat.le_add_right _ _)
    · exact hlinked source target hnew

/-! ## Operations on items -/

theorem alloc_evolves (a : Arena) (core : Core) (lookahead : TerminalSet) :
    a.Evolves (a.alloc core lookahead).2 := by
  refine (growth_alloc a core lookahead).evolves (fun id => ?_) fun _ _ => False.elim
  exact targets_alloc ▸ List.prefix_rfl

theorem shift_evolves {g : Grammar} (h : a.shift g source = .ok (target, b)) : a.Evolves b := by
  obtain ⟨item, -, h⟩ := bind_eq_ok_iff.mp h
  obtain ⟨isComplete, -, h⟩ := bind_eq_ok_iff.mp h
  split at h
  · cases h
  · obtain rfl : (a.alloc item.core.advance item.lookahead).2 = b :=
      congrArg Prod.snd (pure_eq_ok_iff.mp h)
    exact alloc_evolves a _ _

theorem linkIf_evolves {wanted : Bool} (h : a.linkIf wanted source target = .ok b)
    (htarget : target < a.size) : a.Evolves b := by
  have hgrowth := growth_linkIf h
  obtain ⟨hsource, hothers⟩ := linkIf_frame h
  refine hgrowth.evolves (fun id => ?_) ?_
  · by_cases hid : id = source
    · rw [hid, hsource]
      exact List.prefix_append _ _
    · exact targets_congr (hothers id hid) ▸ List.prefix_rfl
  · rintro source target ⟨-, -, rfl⟩
    rw [hgrowth.size_eq]
    exact Nat.lt_of_lt_of_le htarget (Nat.le_add_right _ _)

theorem link_evolves {isNew : Bool} (h : a.link source target = .ok (isNew, b))
    (htarget : target < a.size) : a.Evolves b := by
  have hlinkIf : a.linkIf true source target = .ok b := map_eq_ok_iff.mpr ⟨_, h, rfl⟩
  exact linkIf_evolves hlinkIf htarget

theorem absorb_evolves {grew : Bool} (h : a.absorb target source = .ok (grew, b)) : a.Evolves b :=
  (absorb_widens h).evolves

theorem extendLookahead_evolves {lookahead : TerminalSet}
    (h : a.extendLookahead id lookahead = .ok b) : a.Evolves b := by
  refine (growth_extendLookahead h).evolves (fun k => ?_) fun _ _ => False.elim
  exact (extendLookahead_frame h).1 k ▸ List.prefix_rfl

theorem insertLookahead_evolves {isNew : Bool} (h : a.insertLookahead id t = .ok (isNew, b)) :
    a.Evolves b := by
  obtain ⟨item, -, h⟩ := bind_eq_ok_iff.mp h
  obtain ⟨b', hextend, h⟩ := bind_eq_ok_iff.mp h
  cases h
  exact extendLookahead_evolves hextend

theorem propagate_evolves {n : Nat} (h : a.propagate = .ok (n, b)) : a.Evolves b := by
  obtain ⟨grown, hgrown, -⟩ := grownTo_of_propagate h
  exact hgrown.widens.evolves

end Arena

/-! ## Operations on sets -/

namespace ItemSet

variable {s s' t : ItemSet} {a a' b : Arena} {core : Core} {id : ItemId} {placed : Placed}

theorem IsOver.evolves (h : s.IsOver a) (hevolves : a.Evolves b) : s.IsOver b :=
  ⟨h.nodup, fun hmem => hevolves.getElem?_cores (h.stored hmem)⟩

theorem add_evolves (hs : s.IsOver a) (h : s.add a id = .ok placed) :
    placed.set.IsOver placed.arena ∧ a.Evolves placed.arena := by
  obtain ⟨item, hitem, ⟨existing, grew, b, -, habsorb, rfl⟩ | ⟨habsent, rfl⟩⟩ := add_cases h
  · have hevolves := Arena.absorb_evolves habsorb
    exact ⟨hs.evolves hevolves, hevolves⟩
  · exact ⟨hs.push habsent (Arena.getElem?_cores_eq_some_iff.mpr ⟨item, hitem, rfl⟩), .refl a⟩

theorem addNew_evolves {lookahead : TerminalSet} (hs : s.IsOver a)
    (h : s.addNew a core lookahead = .ok placed) :
    placed.set.IsOver placed.arena ∧ a.Evolves placed.arena := by
  obtain ⟨news, hgrowth, -, hover, -⟩ := addNew_spec hs h
  refine ⟨hover, hgrowth.evolves (fun k => ?_) fun _ _ => False.elim⟩
  exact (addNew_frame h).1 k ▸ List.prefix_rfl

/-- The other set need not be over the arena. If it has an item that is not there, there is no
result. -/
theorem addSet_evolves (hs : s.IsOver a) (h : s.addSet t a = .ok (s', a')) :
    s'.IsOver a' ∧ a.Evolves a' := by
  refine foldlM_induction (P := fun r : ItemSet × Arena => r.1.IsOver r.2 ∧ a.Evolves r.2) h
    ⟨hs, .refl a⟩ ?_
  rintro id - ⟨r, b⟩ next ⟨hr, hb⟩ hstep
  obtain ⟨placed, hplaced, rfl⟩ := map_eq_ok_iff.mp hstep
  obtain ⟨hover, hevolves⟩ := add_evolves hr hplaced
  exact ⟨hover, hb.trans hevolves⟩

end ItemSet

/-! ## Closures -/

/-- A closure links only to items that it has taken in. -/
theorem Closing.predict_evolves {source : ItemId} {isVisible : Bool} {lookahead : TerminalSet}
    {p : ProductionId} {state next : Closing} (hs : state.set.IsOver state.arena)
    (h : state.predict source isVisible lookahead p = .ok next) :
    next.set.IsOver next.arena ∧ state.arena.Evolves next.arena := by
  obtain ⟨placed, linked, hplaced, hlink, rfl⟩ := exists_of_predict h
  obtain ⟨hover, hplacing⟩ := ItemSet.addNew_evolves hs hplaced
  obtain ⟨-, -, -, -, hmem, -⟩ := ItemSet.addNew_spec hs hplaced
  have hlinking : placed.arena.Evolves linked :=
    Arena.linkIf_evolves hlink (hover.id_lt_size hmem)
  exact ⟨hover.evolves hlinking, hplacing.trans hlinking⟩

theorem ItemSet.closure_evolves {g : Grammar} {s s' : ItemSet} {a a' : Arena} (hs : s.IsOver a)
    (h : s.closure g a = .ok (s', a')) : s'.IsOver a' ∧ a.Evolves a' := by
  refine Closing.run_induction (P := fun set arena => set.IsOver arena ∧ a.Evolves arena) ?_
    ⟨⟨hs.nodup, hs.stored⟩, .refl a⟩ h
  rintro source isVisible lookahead p before after ⟨hbefore, hevolves⟩ hpredict
  obtain ⟨hover, hstep⟩ := Closing.predict_evolves hbefore hpredict
  exact ⟨hover, hevolves.trans hstep⟩

end Lalr
