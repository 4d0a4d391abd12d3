import Lalr.Proofs.Faultless
import Lalr.Proofs.Widening

/-!
# Propagation joins lookaheads along links

Propagation has a result exactly when no link leads out of the arena. Then every
lookahead has become the union of those that reach it along links, nothing else
has changed, and the count says how many lookaheads are other ones than before
(`propagate_isExact`).

- `Wave.forward_spec`, `Wave.forwardAll_spec`: one link, and all links of one
  item. What waits goes on waiting, and the links that were followed stay within
  the arena.
- `Wave.isClosed_of_spread`: every item with links comes to its turn, so there is
  a result only if all links stay within the arena.
- `Arena.GrownTo`: the items that are counted are those that have grown.
-/

namespace Lalr

variable {a b arena : Arena} {source target : ItemId} {grown : Std.TreeSet ItemId}

theorem Arena.Widens.isClosed_iff (h : a.Widens b) : b.IsClosed ↔ a.IsClosed := by
  simp only [Arena.IsClosed, h.links_iff, h.size_eq]

namespace Wave

variable {wave next before after : Wave}

/-- Following a link leaves everything but lookaheads as it is. What waits goes on waiting, and the
target is in the arena unless it is the source itself. -/
theorem forward_spec (h : before.forward source target = .ok after) :
    before.arena.Widens after.arena ∧ before.waiting.toList ⊆ after.waiting.toList ∧
      (target = source ∨ target < before.arena.size) := by
  rcases forward_cases h with ⟨habsorb, rfl⟩ | ⟨arena, habsorb, rfl⟩
  · exact ⟨.refl _, List.Subset.refl _, Arena.target_of_absorb habsorb⟩
  · refine ⟨(Arena.widens_of_absorb habsorb).1, ?_, Arena.target_of_absorb habsorb⟩
    rw [Queue.toList_push]
    split
    · exact List.Subset.refl _
    · exact List.subset_append_left _ _

/-- So does following all links of an item, and then they stay within the arena. -/
theorem forwardAll_spec (h : wave.forwardAll source = .ok next) :
    wave.arena.Widens next.arena ∧ wave.waiting.toList ⊆ next.waiting.toList ∧
      ∀ target, wave.arena.Links source target → target < wave.arena.size := by
  obtain ⟨item, hitem, h⟩ := exists_item_of_forwardAll h
  let followed (done : List ItemId) (later : Wave) : Prop :=
    wave.arena.Widens later.arena ∧ wave.waiting.toList ⊆ later.waiting.toList ∧
      ∀ target ∈ done, target < wave.arena.size
  have hfollowed : followed item.targets.toList next := by
    refine foldlM_prefix_induction (P := followed) h
      ⟨.refl _, List.Subset.refl _, by simp⟩ ?_
    rintro done target before after - ⟨hwidens, hwaiting, hdone⟩ hforward
    obtain ⟨hwidens', hwaiting', htarget⟩ := forward_spec hforward
    refine ⟨hwidens.trans hwidens', List.Subset.trans hwaiting hwaiting', fun k hk => ?_⟩
    rcases List.mem_append.mp hk with hk | hk
    · exact hdone k hk
    · rw [List.mem_singleton.mp hk]
      rcases htarget with rfl | hlt
      · exact Arena.lt_size_of_getElem? hitem
      · exact hwidens.size_eq ▸ hlt
  obtain ⟨hwidens, hwaiting, htargets⟩ := hfollowed
  refine ⟨hwidens, hwaiting, fun target hlink => htargets target ?_⟩
  rwa [Array.mem_toList_iff, ← Arena.links_iff hitem]

/-! ## When propagation has a result -/

/-- If the work comes to an end, its links stay within the arena: those that may not do so belong to
items that wait, and every item that waits comes to its turn. -/
theorem isClosed_of_spread (h : wave.spread = .ok (b, grown))
    (hwaiting : ∀ source target, wave.arena.Links source target →
      source ∈ wave.waiting.toList ∨ target < wave.arena.size) : wave.arena.IsClosed := by
  fun_induction Wave.spread wave with
  | case1 arena queue grown hpop =>
    intro source target hlink
    rcases hwaiting source target hlink with hmem | hlt
    · rw [Queue.pop?_eq_none_iff.mp hpop] at hmem
      cases hmem
    · exact hlt
  | case2 => cases h
  | case3 arena queue grown source rest hpop next hforward ih =>
    obtain ⟨hwidens, hkept, hsource⟩ := forwardAll_spec hforward
    refine hwidens.isClosed_iff.mp (ih h fun s k hlink => ?_)
    rw [hwidens.links_iff] at hlink
    rcases hwaiting s k hlink with hmem | hlt
    · rw [Queue.toList_eq_cons_of_pop? hpop, List.mem_cons] at hmem
      rcases hmem with rfl | hmem
      · exact .inr (hwidens.size_eq ▸ hsource k hlink)
      · exact .inl (hkept hmem)
    · exact .inr (hwidens.size_eq ▸ hlt)

end Wave

/-! ## What is counted -/

namespace Arena

/-- The arena comes from `a` by lookaheads that grow, and `grown` has the items for which they
did. -/
structure GrownTo (a arena : Arena) (grown : Std.TreeSet ItemId) : Prop where
  widens : a.Widens arena
  mem_grown_iff : ∀ id, id ∈ grown ↔ ∃ t, arena.Looks id t ∧ ¬a.Looks id t

/-- The number of items whose lookaheads differ in the two arenas. -/
def differing (a b : Arena) : Nat :=
  (List.range a.size).countP fun id => a[id]?.map Item.lookahead != b[id]?.map Item.lookahead

namespace GrownTo

theorem start (a : Arena) : a.GrownTo a ∅ :=
  ⟨.refl a, fun id => by simp⟩

theorem forward {before after : Wave} (h : a.GrownTo before.arena before.grown)
    (hforward : before.forward source target = .ok after) :
    a.GrownTo after.arena after.grown := by
  rcases Wave.forward_cases hforward with ⟨-, rfl⟩ | ⟨arena, habsorb, rfl⟩
  · exact h
  · obtain ⟨hwidens, t, ht, hnot⟩ := widens_of_absorb habsorb
    refine ⟨h.widens.trans hwidens, fun id => ?_⟩
    rw [Std.TreeSet.mem_insert, Std.LawfulEqOrd.compare_eq_iff_eq, h.mem_grown_iff]
    by_cases heq : target = id
    · subst heq
      exact ⟨fun _ => ⟨t, ht, fun hold => hnot (h.widens.looks hold)⟩, fun _ => .inl rfl⟩
    · have hsame (u : TerminalId) : arena.Looks id u ↔ before.arena.Looks id u := by
        simp [(growth_absorb habsorb).looks_iff, Ne.symm heq]
      simp [heq, hsame]

theorem forwardAll {wave next : Wave} (h : a.GrownTo wave.arena wave.grown)
    (hforward : wave.forwardAll source = .ok next) : a.GrownTo next.arena next.grown := by
  obtain ⟨item, -, hfold⟩ := Wave.exists_item_of_forwardAll hforward
  exact foldlM_induction (P := fun later => a.GrownTo later.arena later.grown) hfold h
    fun _ _ _ _ hbefore hstep => hbefore.forward hstep

theorem spread {wave : Wave} (h : a.GrownTo wave.arena wave.grown)
    (hspread : wave.spread = .ok (b, grown)) : a.GrownTo b grown := by
  fun_induction Wave.spread wave with
  | case1 =>
    cases hspread
    exact h
  | case2 => cases hspread
  | case3 arena queue grown source rest hpop next hforward ih =>
    have hopen : a.GrownTo (Wave.mk arena rest grown).arena (Wave.mk arena rest grown).grown := h
    exact ih (hopen.forwardAll hforward) hspread

/-- Items are counted once each, and exactly those whose lookahead is another one. -/
theorem size_eq (h : a.GrownTo b grown) : grown.size = a.differing b := by
  have hnodup : grown.toList.Nodup :=
    Std.TreeSet.ordered_toList.imp fun hlt => Nat.ne_of_lt (Nat.compare_eq_lt.mp hlt)
  have hmem (id : ItemId) : id ∈ grown.toList ↔ id ∈ (List.range a.size).filter fun id =>
      a[id]?.map Item.lookahead != b[id]?.map Item.lookahead := by
    rw [Std.TreeSet.mem_toList, h.mem_grown_iff, List.mem_filter, List.mem_range, bne_iff_ne,
      h.widens.lookahead_ne_iff]
    refine ⟨fun hgrew => ⟨?_, hgrew⟩, And.right⟩
    obtain ⟨t, ht, -⟩ := hgrew
    exact h.widens.size_eq ▸ ht.lt_size
  rw [← Std.TreeSet.length_toList, differing, List.countP_eq_length_filter]
  exact ((List.perm_ext_iff_of_nodup hnodup (List.nodup_range.filter _)).mpr hmem).length_eq

end GrownTo

/-! ## Propagation as a whole -/

variable {n : Nat}

theorem grownTo_of_propagate (h : a.propagate = .ok (n, b)) :
    ∃ grown, a.GrownTo b grown ∧ n = grown.size := by
  obtain ⟨⟨arena, grown⟩, hspread, h⟩ := bind_eq_ok_iff.mp h
  cases h
  exact ⟨grown, GrownTo.spread (.start a) hspread, rfl⟩

theorem isClosed_of_propagate (h : a.propagate = .ok (n, b)) : a.IsClosed := by
  obtain ⟨⟨arena, grown⟩, hspread, -⟩ := bind_eq_ok_iff.mp h
  refine Wave.isClosed_of_spread hspread fun source target hlink => .inl ?_
  exact ((Queue.ofList_spec a.linkedItems).2 source).mpr hlink.mem_linkedItems

/-- What reaches an item after propagation did so before. -/
theorem reaches_of_propagate {id : ItemId} {t : TerminalId} (h : a.propagate = .ok (n, b))
    (ht : b.Reaches id t) : a.Reaches id t := by
  have hgrowth := growth_propagate h
  obtain ⟨source, hpath, hlooks⟩ := ht
  have hstart : a.Reaches source t :=
    ((hgrowth.looks_iff source t).mp hlooks).elim .of_looks fun hr => hr
  induction hpath with
  | refl => exact hstart
  | tail _ hlink ih =>
    rw [hgrowth.links_iff, or_false] at hlink
    exact ih.links hlink

/-- Propagating again finds nothing to do. -/
theorem propagate_of_propagate (h : a.propagate = .ok (n, b)) : b.propagate = .ok (0, b) := by
  obtain ⟨grown, hgrown, -⟩ := grownTo_of_propagate h
  have hclosed : b.IsClosed := hgrown.widens.isClosed_iff.mpr (isClosed_of_propagate h)
  obtain ⟨⟨m, c⟩, hagain⟩ := (propagate_neverFails hclosed).exists_eq_ok
  obtain ⟨grown', hgrown', rfl⟩ := grownTo_of_propagate hagain
  have hsame : c = b := by
    -- what reaches an item now reached it before, and so the item looks at it
    refine hgrown'.widens.eq_of_looks fun id t ht => ?_
    rcases ((growth_propagate hagain).looks_iff id t).mp ht with ht | ht
    · exact ht
    · exact ((growth_propagate h).looks_iff id t).mpr (.inr (reaches_of_propagate h ht))
  subst hsame
  have hcount : grown'.size = 0 := by
    rw [hgrown'.size_eq, differing]
    simp
  rw [hagain, hcount]

/-- **Propagation joins lookaheads along links.** There is a result exactly when no link leads out
of the arena; then every lookahead is the union of those that reach it, and nothing else has
changed. The count is that of the lookaheads that are other ones than before, and propagating again
changes nothing. -/
theorem propagate_isExact (a : Arena) :
    ((∃ n b, a.propagate = .ok (n, b)) ↔ a.IsClosed) ∧
      ∀ n b, a.propagate = .ok (n, b) →
        b.skeleton = a.skeleton ∧ (∀ id t, b.Looks id t ↔ a.Reaches id t) ∧
          n = a.differing b ∧ b.propagate = .ok (0, b) := by
  refine ⟨⟨fun ⟨n, b, h⟩ => isClosed_of_propagate h, fun hclosed => ?_⟩, fun n b h => ?_⟩
  · obtain ⟨⟨n, b⟩, h⟩ := (propagate_neverFails hclosed).exists_eq_ok
    exact ⟨n, b, h⟩
  · obtain ⟨grown, hgrown, rfl⟩ := grownTo_of_propagate h
    refine ⟨hgrown.widens.skeleton_eq, fun id t => ?_, hgrown.size_eq, propagate_of_propagate h⟩
    rw [(growth_propagate h).looks_iff]
    exact or_iff_right_of_imp Reaches.of_looks

/-- Three items that pass their lookaheads on in a ring, the second one also to itself. -/
def ring : Arena :=
  ⟨#[⟨⟨0, 0⟩, .singleton 1, #[1]⟩, ⟨⟨1, 0⟩, ∅, #[2, 1]⟩, ⟨⟨2, 0⟩, .singleton 2, #[0]⟩]⟩

/-- In the ring all three lookaheads become the same, and each of them is another one than
before. -/
theorem propagate_ring : ∃ b, ring.propagate = .ok (3, b) ∧ ring.IsClosed ∧
    (∀ id t, b.Looks id t ↔ ring.Reaches id t) ∧ b.propagate = .ok (0, b) := by
  have hrun : (match ring.propagate with
    | .ok (n, _) => n == 3
    | .error _ => false) = true := by decide +kernel
  split at hrun
  · next n b h =>
    cases beq_iff_eq.mp hrun
    obtain ⟨hresult, hexact⟩ := propagate_isExact ring
    obtain ⟨-, hlooks, -, hagain⟩ := hexact 3 b h
    exact ⟨b, h, hresult.mp ⟨3, b, h⟩, hlooks, hagain⟩
  · cases hrun

end Arena

end Lalr
