import Lalr.Proofs.Closure
import Lalr.Proofs.Failure
import Lalr.Proofs.Propagation

/-!
# Operations on items that do not fault

An operation on items looks numbers up in the arena and in the grammar. On items
that are there, of productions that are there, every look-up finds something.

- `Arena.*_neverFails`, `ItemSet.*_neverFails`: the single operations, on numbers
  below the size of the arena and on sets that are over it.
- `ItemSet.closure_neverFails`: the closure of a set of items of productions. What
  waits is a member of the set, and members are over the arena.
- `Arena.propagate_neverFails`: the propagation in an arena whose links stay
  within it.
-/

namespace Lalr

open Grammar

variable {g : Grammar}

/-- The item is one of a production of the grammar. -/
def Grammar.HasProduction (g : Grammar) (x : Dotted) : Prop :=
  ∃ n right, g.Expands x.production n right

theorem Grammar.hasProduction_of_lt {x : Dotted} (h : x.production < g.productions.size) :
    g.HasProduction x :=
  ⟨_, _, g.productions[x.production], Array.getElem?_eq_getElem h, rfl, rfl⟩

/-! ## Look-ups in the grammar -/

/-- The table of suffixes is as long as the right-hand side, so it has an entry for the rest. -/
theorem Core.rest_neverFails (wf : g.WellFormed) {core : Core} (h : g.HasProduction core.dotted) :
    NeverFails (core.rest g) := by
  obtain ⟨n, right, production, hproduction, -⟩ := h
  obtain ⟨known, hknown, -⟩ := wf.exists_suffix hproduction (core.dot.toNat + 1)
  exact failsOnly_bind_of_eq_ok (production_eq_ok_iff.mpr hproduction) (failsOnly_of_eq_ok hknown)

theorem Core.next?_neverFails {core : Core} (h : g.HasProduction core.dotted) :
    NeverFails (core.next? g) := by
  obtain ⟨n, right, hp⟩ := h
  exact neverFails_of_eq_ok (Core.next?_of_expands hp)

/-! ## Look-ups in the arena -/

namespace Arena

variable {a : Arena} {id source target : ItemId} {lookahead : TerminalSet}

theorem exists_getElem? (h : id < a.size) : ∃ item, a[id]? = some item :=
  Option.ne_none_iff_exists'.mp fun hnone => Nat.not_le_of_lt h (getElem?_eq_none_iff.mp hnone)

theorem get_neverFails (h : id < a.size) : NeverFails (a.get id) := by
  obtain ⟨item, hitem⟩ := exists_getElem? h
  exact neverFails_of_eq_ok (get_eq_ok_iff.mpr hitem)

theorem link_neverFails (h : source < a.size) : NeverFails (a.link source target) := by
  refine (get_neverFails h).bind fun item _ => ?_
  split <;> exact failsOnly_pure _

theorem linkIf_neverFails {wanted : Bool} (h : source < a.size) :
    NeverFails (a.linkIf wanted source target) := by
  unfold linkIf
  split
  · exact (link_neverFails h).map
  · exact failsOnly_pure a

theorem stackIf_neverFails {wanted : Bool} {work : List ItemId} (h : id < a.size) :
    NeverFails (a.stackIf wanted id work) := by
  unfold stackIf
  split
  · exact (get_neverFails h).map
  · exact failsOnly_pure work

theorem extendLookahead_neverFails (h : id < a.size) :
    NeverFails (a.extendLookahead id lookahead) :=
  (get_neverFails h).map.bind fun _ _ => failsOnly_pure _

theorem absorb_neverFails (htarget : target < a.size) (hsource : source < a.size) :
    NeverFails (a.absorb target source) := by
  obtain ⟨old, hold⟩ := exists_getElem? htarget
  obtain ⟨item, hitem⟩ := exists_getElem? hsource
  unfold absorb
  split
  · exact failsOnly_pure _
  · simp only [hold, hitem]
    split <;> exact failsOnly_pure _

/-- An item can be shifted when a symbol stands after its marker. -/
theorem shift_neverFails {item : Item} {X : Symbol} (hitem : a[id]? = some item)
    (hX : item.core.next? g = .ok (some X)) : NeverFails (a.shift g id) := by
  have hincomplete : item.isComplete g = .ok false := bind_eq_ok_iff.mpr ⟨_, hX, rfl⟩
  refine failsOnly_bind_of_eq_ok (get_eq_ok_iff.mpr hitem) ?_
  exact failsOnly_bind_of_eq_ok hincomplete (failsOnly_pure _)

end Arena

/-! ## Items that come in -/

namespace ItemSet

variable {s : ItemSet} {a : Arena} {core : Core} {id : ItemId}

/-- What a set over the arena finds is in the arena. -/
theorem IsOver.lt_size_of_find? (h : s.IsOver a) (hfind : s.find? core = some id) :
    id < a.size :=
  h.id_lt_size ((find?_eq_some_iff h.nodup).mp hfind)

theorem add_neverFails (hs : s.IsOver a) (hid : id < a.size) : NeverFails (s.add a id) := by
  refine (Arena.get_neverFails hid).bind fun item _ => ?_
  dsimp only
  split
  · next existing hfind =>
    exact (Arena.absorb_neverFails (hs.lt_size_of_find? hfind) hid).bind
      fun _ _ => failsOnly_pure _
  · exact failsOnly_pure _

theorem addNew_neverFails {lookahead : TerminalSet} (hs : s.IsOver a) :
    NeverFails (s.addNew a core lookahead) := by
  unfold addNew
  split
  · next existing hfind =>
    exact (Arena.extendLookahead_neverFails (hs.lt_size_of_find? hfind)).bind
      fun _ _ => failsOnly_pure _
  · exact failsOnly_pure _

end ItemSet

/-! ## Closures -/

namespace Closing

variable {id source : ItemId} {state : Closing}

theorem predict_neverFails {isVisible : Bool} {lookahead : TerminalSet} {p : ProductionId}
    (hs : state.set.IsOver state.arena) (hsource : source < state.arena.size) :
    NeverFails (state.predict source isVisible lookahead p) := by
  refine (ItemSet.addNew_neverFails hs).bind fun placed hadd => ?_
  obtain ⟨news, hgrowth, -, hover, hmem, -⟩ := ItemSet.addNew_spec hs hadd
  have hlt : source < placed.arena.size :=
    Nat.lt_of_lt_of_le hsource (hgrowth.size_eq ▸ Nat.le_add_right _ _)
  refine (Arena.linkIf_neverFails hlt).bind fun linked hlink => ?_
  -- what goes on the stack is in the set, and so in the arena
  have hadded : placed.id < linked.size :=
    (hover.growth (Arena.growth_linkIf hlink)).id_lt_size hmem
  exact (Arena.stackIf_neverFails hadded).bind fun _ _ => failsOnly_pure _

/-- Looking at a member of the set does not fault: the nonterminal after its marker is known to the
grammar. -/
theorem expand_neverFails (wf : g.WellFormed) {core : Core} (hs : state.set.IsOver state.arena)
    (hid : state.arena.cores[id]? = some core) (hcore : g.HasProduction core.dotted) :
    NeverFails (state.expand g id) := by
  obtain ⟨item, hitem, rfl⟩ := Arena.getElem?_cores_eq_some_iff.mp hid
  refine failsOnly_bind_of_eq_ok (Arena.get_eq_ok_iff.mpr hitem) ?_
  refine ((Core.next?_neverFails hcore).bind fun _ _ => failsOnly_pure _).bind
    fun after hafter => ?_
  cases after with
  | none => exact failsOnly_pure state
  | some n =>
    refine ((Core.rest_neverFails wf hcore).bind fun _ _ => failsOnly_pure _).bind
      fun lookahead _ => ?_
    refine ((Core.rest_neverFails wf hcore).bind fun _ _ => failsOnly_pure _).bind
      fun isVisible _ => ?_
    obtain ⟨nonterminal, hknown⟩ : ∃ nonterminal, g.nonterminals[n]? = some nonterminal := by
      obtain ⟨β, m, right, hp, hdrop⟩ := Item.nextNonterminal?_eq_some_iff.mp hafter
      exact wf.known hp (List.mem_of_mem_drop (hdrop ▸ List.mem_cons_self))
    refine failsOnly_bind_of_eq_ok (nonterminal_eq_ok_iff.mpr hknown) ?_
    -- the item stays in the arena while its predictions come in
    refine failsOnly_foldlM (P := fun _ later =>
      later.set.IsOver later.arena ∧ id < later.arena.size)
      ⟨hs, Arena.lt_size_of_getElem? hitem⟩ ?_ ?_
    · rintro done p later - ⟨hover, hlt⟩
      exact predict_neverFails hover hlt
    · rintro done p later next - ⟨hover, hlt⟩ hpredict
      obtain ⟨added, news, hgrowth, -, hover', -⟩ := predict_spec hover hpredict
      exact ⟨hover', Nat.lt_of_lt_of_le hlt (hgrowth.size_eq ▸ Nat.le_add_right _ _)⟩

end Closing

/-- What is in a closure is one of a production if the kernel is. -/
theorem Grammar.Closure.hasProduction {K : Dotted → Prop} {x : Dotted} (h : g.Closure K x)
    (hK : ∀ y, K y → g.HasProduction y) : g.HasProduction x := by
  cases h with
  | base hx => exact hK x hx
  | predict _ hp =>
    obtain ⟨n, right, -, hp⟩ := hp
    exact ⟨n, right, hp⟩

theorem ClosedUpTo.run_neverFails (wf : g.WellFormed) {s : ItemSet} {a : Arena}
    (hprod : ∀ x, s.Has x → g.HasProduction x) {state : Closing}
    (h : ClosedUpTo g s a state.set state.arena (· ∈ state.work)) :
    NeverFails (state.run g) := by
  fun_induction Closing.run g state with
  | case1 => exact failsOnly_pure _
  | case2 set arena id work e hfault =>
    obtain ⟨core, hmem⟩ := h.waiting_mem List.mem_cons_self
    have hexpand : NeverFails (Closing.expand g id ⟨set, arena, work⟩) :=
      Closing.expand_neverFails wf h.isOver (h.isOver.stored hmem)
        ((h.closure hmem).hasProduction hprod)
    exact (hexpand e hfault).elim
  | case3 set arena id work next hexpand ih =>
    have hopen : ClosedUpTo g s a set arena fun k => k = id ∨ k ∈ work :=
      h.congr fun k => List.mem_cons
    exact ih (ClosedUpTo.expand wf hopen hexpand)

/-- **Closures do not fault.** -/
theorem ItemSet.closure_neverFails (wf : g.WellFormed) {s : ItemSet} {a : Arena} (hs : s.IsOver a)
    (hprod : ∀ x, s.Has x → g.HasProduction x) : NeverFails (s.closure g a) :=
  ClosedUpTo.run_neverFails wf hprod (ClosedUpTo.refl hs)

/-! ## Propagation -/

namespace Arena

variable {a b : Arena} {source : ItemId}

/-- No link leads out of the arena. -/
def IsClosed (a : Arena) : Prop := ∀ ⦃source target⦄, a.Links source target → target < a.size

/-- An item comes to wait only when a link to it is followed. -/
theorem waiting_lt_of_forward {wave next : Wave} {n : Nat} {target : ItemId}
    (hindexed : wave.waiting.IsIndexed) (hwaiting : ∀ k ∈ wave.waiting.toList, k < n)
    (htarget : target < n) (h : wave.forward source target = .ok next) :
    ∀ k ∈ next.waiting.toList, k < n := by
  rcases Wave.forward_cases h with ⟨-, rfl⟩ | ⟨arena, -, rfl⟩
  · exact hwaiting
  · intro k hk
    rcases hindexed.mem_push_iff.mp hk with hk | rfl
    · exact hwaiting k hk
    · exact htarget

namespace FlowedUpTo

/-- Following the links of an item that waits does not fault, and what waits then is in the
arena. -/
theorem forwardAll_neverFails (hclosed : a.IsClosed) {wave : Wave}
    (hindexed : wave.waiting.IsIndexed)
    (h : FlowedUpTo a wave.arena fun k => k = source ∨ k ∈ wave.waiting.toList)
    (hsource : source < a.size) (hwaiting : ∀ k ∈ wave.waiting.toList, k < a.size) :
    NeverFails (wave.forwardAll source) ∧ ∀ next, wave.forwardAll source = .ok next →
      ∀ k ∈ next.waiting.toList, k < a.size := by
  have hsize {arena : Arena} {waiting : ItemId → Prop} (h : FlowedUpTo a arena waiting) :
      arena.size = a.size := by
    obtain ⟨gained, hgrowth⟩ := h.growth
    exact hgrowth.size_eq
  obtain ⟨item, hitem⟩ := exists_getElem? (a := wave.arena) ((hsize h).symm ▸ hsource)
  have hlink {k : ItemId} (hk : k ∈ item.targets.toList) : a.Links source k := by
    rwa [← h.links_iff, Arena.links_iff hitem, ← Array.mem_toList_iff]
  let followed (_done : List ItemId) (later : Wave) : Prop :=
    later.waiting.IsIndexed ∧
      FlowedUpTo a later.arena (fun k => k = source ∨ k ∈ later.waiting.toList) ∧
      ∀ k ∈ later.waiting.toList, k < a.size
  have hstart : followed [] wave := ⟨hindexed, h, hwaiting⟩
  have hkept (done : List ItemId) (k : ItemId) (before after : Wave)
      (hpre : done ++ [k] <+: item.targets.toList) (hbefore : followed done before)
      (hforward : before.forward source k = .ok after) : followed (done ++ [k]) after := by
    obtain ⟨hindexed, hflowed, hwaiting⟩ := hbefore
    have hk := hlink (hpre.subset (List.mem_append_right _ List.mem_cons_self))
    obtain ⟨hindexed', hflowed', -⟩ := hflowed.forward hindexed hk hforward
    exact ⟨hindexed', hflowed', waiting_lt_of_forward hindexed hwaiting (hclosed hk) hforward⟩
  have hfails (done : List ItemId) (k : ItemId) (before : Wave)
      (hpre : done ++ [k] <+: item.targets.toList) (hbefore : followed done before) :
      NeverFails (before.forward source k) := by
    obtain ⟨arena, waiting, grown⟩ := before
    have hk := hlink (hpre.subset (List.mem_append_right _ List.mem_cons_self))
    have hsame : arena.size = a.size := hsize hbefore.2.1
    obtain ⟨⟨grew, arena'⟩, habsorb⟩ :=
      (absorb_neverFails (hsame ▸ hclosed hk) (hsame ▸ hsource)).exists_eq_ok
    dsimp only [Wave.forward]
    rw [habsorb]
    cases grew <;> exact failsOnly_pure _
  have hall : wave.forwardAll source = item.targets.toList.foldlM (Wave.forward source) wave := by
    rw [Wave.forwardAll, get_eq_ok_iff.mpr hitem]
  rw [hall]
  exact ⟨failsOnly_foldlM hstart hfails hkept,
    fun next hnext => (foldlM_prefix_induction hnext hstart hkept).2.2⟩

theorem spread_neverFails (hclosed : a.IsClosed) {wave : Wave}
    (hindexed : wave.waiting.IsIndexed)
    (h : FlowedUpTo a wave.arena (· ∈ wave.waiting.toList))
    (hwaiting : ∀ k ∈ wave.waiting.toList, k < a.size) : NeverFails wave.spread := by
  fun_induction Wave.spread wave with
  | case1 => exact failsOnly_pure _
  | case2 arena queue grown source rest hpop e hfault =>
    rw [Queue.toList_eq_cons_of_pop? hpop, List.forall_mem_cons] at hwaiting
    have hopen : FlowedUpTo a (Wave.mk arena rest grown).arena _ := h.pop hpop
    obtain ⟨hforward, -⟩ :=
      hopen.forwardAll_neverFails hclosed (hindexed.pop? hpop) hwaiting.1 hwaiting.2
    exact (hforward e hfault).elim
  | case3 arena queue grown source rest hpop next hforward ih =>
    rw [Queue.toList_eq_cons_of_pop? hpop, List.forall_mem_cons] at hwaiting
    have hopen : FlowedUpTo a (Wave.mk arena rest grown).arena _ := h.pop hpop
    obtain ⟨-, hwithin⟩ :=
      hopen.forwardAll_neverFails hclosed (hindexed.pop? hpop) hwaiting.1 hwaiting.2
    obtain ⟨hindexed', hflowed⟩ := forwardAll (hindexed.pop? hpop) hopen hforward
    exact ih hindexed' hflowed (hwithin next hforward)

end FlowedUpTo

/-- **Propagation does not fault** if the links stay within the arena. -/
theorem propagate_neverFails (h : a.IsClosed) : NeverFails a.propagate := by
  obtain ⟨hindexed, hstart⟩ := flowedUpTo_start a
  have hspread : NeverFails (Wave.spread ⟨a, Queue.ofList a.linkedItems, ∅⟩) := by
    refine FlowedUpTo.spread_neverFails h hindexed hstart fun k hk => ?_
    rw [(Queue.ofList_spec a.linkedItems).2] at hk
    obtain ⟨⟨item, id⟩, hzip, hid⟩ := List.mem_filterMap.mp hk
    obtain ⟨-, heq⟩ := Option.ite_none_left_eq_some.mp hid
    cases heq
    simpa [size] using List.snd_lt_of_mem_zipIdx hzip
  exact hspread.bind fun _ _ => failsOnly_pure _

end Arena

end Lalr
