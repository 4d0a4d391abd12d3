import Lalr.Automaton.Census
import Lalr.Proofs.Automaton.Canonical

/-!
# The items of the arena are divided among the states

Shifted items that turn out to make a known kernel are dropped again; those that
make a new one stay, with its closure behind them. So the states of an automaton
have the items of its arena one after the other: no item is left over, and no
two states share one (`isDivided_of_build`).

- `IsComplete.flatMap_ids`: the items of the states, put together, are those of
  the arena in order.
- `IsComplete.existsUnique_state`, `IsComplete.size_eq_total`: what follows for a
  single item, and for the number of items.
-/

namespace Lalr

theorem length_flatMap_eq_total {α β : Type} (f : α → List β) (xs : List α) :
    (xs.flatMap f).length = total (fun x => (f x).length) xs := by
  induction xs with
  | nil => rfl
  | cons x xs ih =>
    rw [List.flatMap_cons, List.length_append, ih]
    rfl

namespace Automaton

variable {g : Grammar} {m : Automaton}

namespace IsComplete

/-- The states have the items of the arena in order, one state after the other. -/
theorem flatMap_ids (hm : m.IsComplete g) :
    (m.states.toList.flatMap fun q => q.items.ids) = List.range m.arena.size := by
  rw [← hm.collection.ids, sets, List.flatMap_map]

/-- Every item of the arena belongs to exactly one state. -/
theorem existsUnique_state {id : ItemId} (hm : m.IsComplete g) (hid : id < m.arena.size) :
    ∃! i : StateId, ∃ q, m.states[i]? = some q ∧ id ∈ q.items.ids := by
  rw [← List.mem_range, ← hm.flatMap_ids, List.mem_flatMap] at hid
  obtain ⟨q, hmem, hid⟩ := hid
  obtain ⟨i, hq⟩ := List.mem_iff_getElem?.mp hmem
  rw [Array.getElem?_toList] at hq
  refine ⟨i, ⟨q, hq, hid⟩, ?_⟩
  rintro j ⟨r, hr, hid'⟩
  exact hm.state_unique (getElem?_sets_of_getElem? hr) (getElem?_sets_of_getElem? hq) hid' hid

/-- The arena has as many items as the states together. -/
theorem size_eq_total (hm : m.IsComplete g) :
    m.arena.size = total (fun q => q.items.size) m.states.toList :=
  calc m.arena.size
    _ = (m.states.toList.flatMap fun q => q.items.ids).length := by
      rw [hm.flatMap_ids, List.length_range]
    _ = total (fun q => q.items.ids.length) m.states.toList := length_flatMap_eq_total _ _
    _ = total (fun q => q.items.size) m.states.toList := by simp only [ItemSet.length_ids]

end IsComplete

/-- The items of the arena are divided among the states, which have them in order, one state after
the other. Each belongs to exactly one state and is stored under its own core, the items of the
kernel are the first ones of the state, and the sizes add up. -/
structure IsDivided (m : Automaton) : Prop where
  ids : (m.states.toList.flatMap fun q => q.items.ids) = List.range m.arena.size
  existsUnique : ∀ id < m.arena.size,
    ∃! i : StateId, ∃ q, m.states[i]? = some q ∧ id ∈ q.items.ids
  kernel_first : ∀ (i : StateId) q, m.states[i]? = some q → q.kernel.toList <+: q.items.toList
  stored : ∀ (i : StateId) q, m.states[i]? = some q → ∀ core id, (core, id) ∈ q.items.toList →
    ∃ item, m.arena[id]? = some item ∧ item.core = core
  size_eq : m.arena.size = total (fun q => q.items.size) m.states.toList

end Automaton

/-- **No item is dead, shared or dangling**: for every defined grammar and every limit under which
building succeeds, the items of the arena are divided among the states. -/
theorem isDivided_of_build {g : Grammar} {limit : Option Nat} {m : Automaton} (hg : g.IsDefined)
    (h : Automaton.build g limit = .ok m) : m.IsDivided := by
  have hm := Automaton.isComplete_of_build hg.wellFormed h
  have hclosed {i : StateId} {q : State} (hq : m.states[i]? = some q) :
      Automaton.IsClosed g m.arena q.kernel q.items :=
    hm.collection.closed (Automaton.getElem?_sets_of_getElem? hq)
  constructor
  case ids => exact hm.flatMap_ids
  case existsUnique => exact fun id hid => hm.existsUnique_state hid
  case kernel_first => exact fun i q hq => (hclosed hq).kernel_first
  case stored =>
    intro i q hq core id hmem
    exact Arena.getElem?_cores_eq_some_iff.mp ((hclosed hq).isOver.stored hmem)
  case size_eq => exact hm.size_eq_total

/-- The ten states of the assignments through pointers have 22 items. -/
theorem isDivided_pointer : ∃ g m, Grammar.define Examples.pointer = .ok g ∧
    Automaton.build g none = .ok m ∧ m.states.size = 10 ∧ m.arena.size = 22 ∧ m.IsDivided := by
  obtain ⟨g, m, hdefine, hbuild, hcheck⟩ := exists_build_of_check Examples.pointer
    (fun _ m => m.states.size == 10 && m.arena.size == 22) (by decide +kernel)
  obtain ⟨hstates, harena⟩ := Bool.and_eq_true_iff.mp hcheck
  exact ⟨g, m, hdefine, hbuild, eq_of_beq hstates, eq_of_beq harena,
    isDivided_of_build (.of_define hdefine) hbuild⟩

end Lalr
