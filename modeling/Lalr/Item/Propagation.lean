import Lalr.BitSet.Growth
import Lalr.Item.Arena
import Lalr.Outcome
import Lalr.Queue

/-!
# Propagation of lookaheads

Lookaheads flow along the links of an arena until none grows any more. Items whose links have to be
followed wait in a queue; an item that grows waits again. The work ends because no terminal is new
to all lookaheads: a lookahead that grows comes nearer to their union, so it cannot come to wait
again too often.

- `Wave`: the state of the work, with `forward` for a single link.
- `spread`: the work from a state to its end.
- `Arena.propagate`: the work from the beginning, with the number of the items that grew.
-/

namespace Lalr

namespace Arena

/-- The lookaheads of all items. -/
def lookaheads (a : Arena) : List TerminalSet := a.items.toList.map Item.lookahead

/-- What the lookaheads lack to their union. -/
def lookaheadRoom (a : Arena) : Nat := BitSet.room (.join a.lookaheads) a.lookaheads

theorem lookaheads_modify {a : Arena} {id : ItemId} {old : Item} (h : a[id]? = some old)
    (lookahead : TerminalSet) :
    (a.modify id fun item => item.extend lookahead).lookaheads =
      a.lookaheads.set id (old.lookahead ∪ lookahead) := by
  refine List.ext_getElem? fun j => ?_
  obtain ⟨lt, entry⟩ := Array.getElem?_eq_some_iff.1 (show a.items[id]? = some old from h)
  simp only [lookaheads, modify, List.getElem?_map, Array.getElem?_toList, Array.getElem?_modify,
    List.getElem?_set, List.length_map, Array.length_toList]
  by_cases e : id = j
  · subst e
    simp [lt, entry, Item.extend]
  · simp [e]

/-- A union either adds nothing or leaves less room. -/
theorem lookaheadRoom_absorb {a b : Arena} {target source : ItemId} {grew : Bool}
    (h : a.absorb target source = .ok (grew, b)) :
    if grew then b.lookaheadRoom < a.lookaheadRoom else b = a := by
  unfold absorb at h
  split at h
  · cases h
    simp
  · split at h
    · next old item at_target at_source =>
      dsimp only at h
      split at h
      · cases h
        simp
      · next new =>
        cases h
        have lookup (id : ItemId) : a.lookaheads[id]? = a[id]?.map Item.lookahead := by
          simp [lookaheads]
        have at_old := lookup target
        rw [at_target, Option.map_some] at at_old
        obtain ⟨lt, entry⟩ := List.getElem?_eq_some_iff.1 at_old
        -- both lookaheads lie below the union of all, and so does what they make together
        have member : item.lookahead ∈ a.lookaheads :=
          List.mem_of_getElem? ((lookup source).trans (by rw [at_source, Option.map_some]))
        have grows : a.lookaheads[target] ⊆ old.lookahead ∪ item.lookahead :=
          entry ▸ BitSet.subset_union_left _ _
        have below : old.lookahead ∪ item.lookahead ⊆ BitSet.join a.lookaheads :=
          BitSet.union_subset (BitSet.subset_join (List.mem_of_getElem? at_old))
            (BitSet.subset_join member)
        rw [if_pos rfl, lookaheadRoom, lookaheadRoom, lookaheads_modify at_target,
          BitSet.join_set lt grows below]
        refine BitSet.room_set_lt lt grows (fun sub => new ?_) below
        exact BitSet.Subset.trans (BitSet.subset_union_right _ _) (entry ▸ sub)
    · cases h

end Arena

/-- The state of a propagation: the items, those whose links have to be followed, and those whose
lookahead has grown. -/
structure Wave where
  arena : Arena
  waiting : Queue ItemId
  grown : Std.TreeSet ItemId

namespace Wave

/-- Follows one link. -/
def forward (source : ItemId) (wave : Wave) (target : ItemId) : Except Fault Wave :=
  match wave with
  | ⟨arena, waiting, grown⟩ =>
    match arena.absorb target source with
    | .error e => .error e
    | .ok (false, arena) => .ok ⟨arena, waiting, grown⟩
    | .ok (true, arena) => .ok ⟨arena, (waiting.push target).2, grown.insert target⟩

/-- Follows all links of one item. -/
def forwardAll (source : ItemId) (wave : Wave) : Except Fault Wave :=
  match wave.arena.get source with
  | .error e => .error e
  | .ok item => item.targets.toList.foldlM (forward source) wave

/-- What a wave still has to do: every growth that is possible, and every item that waits. -/
def work (wave : Wave) : Nat := wave.arena.lookaheadRoom + wave.waiting.size

/-- What following a link can come to: the target has all terminals already, or it grows and
waits. -/
theorem forward_cases {source target : ItemId} {before after : Wave}
    (h : before.forward source target = .ok after) :
    before.arena.absorb target source = .ok (false, before.arena) ∧ after = before ∨
      ∃ arena, before.arena.absorb target source = .ok (true, arena) ∧
        after = ⟨arena, (before.waiting.push target).2, before.grown.insert target⟩ := by
  obtain ⟨arena, waiting, grown⟩ := before
  dsimp only [forward] at h ⊢
  split at h
  · cases h
  · next same absorbed =>
    cases h
    obtain rfl : same = arena := by simpa using Arena.lookaheadRoom_absorb absorbed
    exact .inl ⟨absorbed, rfl⟩
  · next grows absorbed =>
    cases h
    exact .inr ⟨grows, absorbed, rfl⟩

theorem exists_item_of_forwardAll {source : ItemId} {wave next : Wave}
    (h : wave.forwardAll source = .ok next) : ∃ item, wave.arena[source]? = some item ∧
      item.targets.toList.foldlM (forward source) wave = .ok next := by
  unfold forwardAll at h
  split at h
  · cases h
  · next item found => exact ⟨item, Arena.get_eq_ok_iff.1 found, h⟩

theorem forward_le {source target : ItemId} {wave next : Wave}
    (h : wave.forward source target = .ok next) : next.work ≤ wave.work := by
  rcases forward_cases h with ⟨-, rfl⟩ | ⟨arena, absorbed, rfl⟩
  · exact Nat.le_refl _
  · -- one more item may wait, but there is less room
    have less := Arena.lookaheadRoom_absorb absorbed
    have longer := wave.waiting.size_push_le target
    simp only [if_true] at less
    simp only [work]
    omega

theorem forwardAll_le {source : ItemId} {wave next : Wave} (h : wave.forwardAll source = .ok next) :
    next.work ≤ wave.work := by
  obtain ⟨item, -, followed⟩ := exists_item_of_forwardAll h
  exact foldlM_induction (P := fun later => later.work ≤ wave.work) followed (Nat.le_refl _)
    fun _ _ _ _ bound step => Nat.le_trans (forward_le step) bound

/-- Follows the links of the waiting items until none waits; the result is the arena, and the items
whose lookahead has grown. -/
def spread (wave : Wave) : Except Fault (Arena × Std.TreeSet ItemId) :=
  match wave with
  | ⟨arena, waiting, grown⟩ =>
    match _popped : waiting.pop? with
    | none => .ok (arena, grown)
    | some (source, rest) =>
      match _forwarded : forwardAll source ⟨arena, rest, grown⟩ with
      | .error e => .error e
      | .ok next => spread next
termination_by wave.work
decreasing_by
  -- the item that left the queue is one less to wait
  refine Nat.lt_of_le_of_lt (forwardAll_le _forwarded) ?_
  simp only [work, Queue.size_of_pop? _popped]
  exact Nat.lt_succ_self _

end Wave

namespace Arena

/-- The numbers of the items that have links. -/
def linkedItems (a : Arena) : List ItemId :=
  a.items.toList.zipIdx.filterMap fun (item, id) => if item.targets.isEmpty then none else some id

/-- Lets all lookaheads flow along the links until none grows, and counts the items whose lookahead
grew. -/
def propagate (a : Arena) : Except Fault (Nat × Arena) := do
  let waiting := Queue.ofList a.linkedItems
  let (arena, grown) ← Wave.spread ⟨a, waiting, ∅⟩
  return (grown.size, arena)

end Arena

end Lalr
