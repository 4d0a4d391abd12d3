import Lalr.Proofs.Hashing
import Lalr.Proofs.Automaton.Stage

/-!
# Looking kernels up

A kernel whose state is looked up is compared with the kernels that have its
hash. Building looks it up by its signature instead, and finds the same state.

- `Draft.search`: the state whose kernel has the hash of a kernel and compares
  equal to it.
- `Draft.Knows.getElem?_signature`: the state that is known by the signature.
- `Draft.AreHashed`: the kernels of the states remember no wrong hash. Every
  stage of a run keeps this (`Stage.Reached.areHashed`).
- `Stage.Reached.getElem?_known`: whatever kernel is looked up at a stage, the
  search finds what the signature does.
-/

namespace Lalr

open Grammar

variable {g : Grammar} {limit : Nat} {X : Symbol} {a : Arena} {kernel : ItemSet}

namespace Draft

variable {draft next : Draft} {states : Array State} {known : Std.TreeMap (List Nat) StateId}
variable {ids : List ItemId} {id target : StateId}

/-- The first state whose kernel has the hash of a kernel and compares equal to it. -/
def search (states : Array State) (kernel : ItemSet) : Option StateId :=
  states.findIdx? fun q =>
    q.kernel.hashCode.1 == kernel.hashCode.1 && q.kernel.sameCores kernel

/-- The kernels of the states remember no wrong hash. -/
def AreHashed (states : Array State) : Prop := ∀ q ∈ states, q.kernel.IsHashed

/-- **The state that is known by the signature of a kernel** is the one that is found by its hash
and its cores. -/
theorem Knows.getElem?_signature (h : Knows states known) (hstates : AreHashed states)
    (hkernel : kernel.IsHashed) : known[kernel.signature]? = search states kernel := by
  have hfits {i : StateId} {q : State} (hq : states[i]? = some q) :
      (q.kernel.hashCode.1 == kernel.hashCode.1 && q.kernel.sameCores kernel) = true ↔
        q.kernel.signature = kernel.signature := by
    have hhashed := hstates q (Array.mem_of_getElem? hq)
    rw [ItemSet.signature_eq_iff_sameCores hhashed.nodup hkernel.nodup, Bool.and_eq_true,
      beq_iff_eq]
    exact ⟨And.right, fun hsame => ⟨ItemSet.hashCode_congr hhashed hkernel hsame, hsame⟩⟩
  refine Option.ext fun i => (h _ i).trans ?_
  rw [search, Array.findIdx?_eq_some_iff_getElem]
  constructor
  · rintro ⟨q, hq, hsame⟩
    obtain ⟨hlt, rfl⟩ := Array.getElem?_eq_some_iff.mp hq
    refine ⟨hlt, (hfits hq).mpr hsame, fun j hj hfit => ?_⟩
    -- an earlier state with this kernel would be the same one
    have hr : states[j]? = some states[j] := Array.getElem?_eq_getElem _
    have hi := (h _ i).mpr ⟨_, hq, hsame⟩
    have hj' := (h _ j).mpr ⟨_, hr, (hfits hr).mp hfit⟩
    exact Nat.ne_of_lt hj (Option.some.inj (hj'.symm.trans hi))
  · rintro ⟨hlt, hfit, -⟩
    have hq : states[i]? = some states[i] := Array.getElem?_eq_getElem hlt
    exact ⟨_, hq, (hfits hq).mp hfit⟩

/-! ## Kernels remember no wrong hash -/

theorem AreHashed.push {q : State} (h : AreHashed states) (hq : q.kernel.IsHashed) :
    AreHashed (states.push q) := by
  intro r hr
  rcases Array.mem_push.mp hr with hr | rfl
  · exact h r hr
  · exact hq

/-- Shifted items make up a new kernel, which remembers nothing wrong. -/
theorem isHashed_across {shifted : Shifted} (h : Shifted.across g X ids a = .ok shifted) :
    shifted.kernel.IsHashed := by
  refine foldlM_induction (P := fun r : Shifted => r.kernel.IsHashed) h .empty ?_
  rintro source - ⟨kernel, b, moves⟩ after hbefore hmove
  obtain ⟨item, -, hmove⟩ := bind_eq_ok_iff.mp hmove
  obtain ⟨next, -, hmove⟩ := bind_eq_ok_iff.mp hmove
  split at hmove
  · obtain ⟨⟨id, c⟩, -, hmove⟩ := bind_eq_ok_iff.mp hmove
    obtain ⟨placed, hplaced, hmove⟩ := bind_eq_ok_iff.mp hmove
    cases hmove
    exact hbefore.add hplaced
  · cases hmove
    exact hbefore

theorem AreHashed.addState (h : AreHashed states) (hkernel : kernel.IsHashed)
    (hadd : addState g limit ⟨a, states, known⟩ kernel = .ok (target, next)) :
    AreHashed next.states := by
  unfold Draft.addState at hadd
  dsimp only at hadd
  split at hadd
  · cases hadd
  · obtain ⟨⟨items, c⟩, -, hadd⟩ := bind_eq_ok_iff.mp hadd
    cases hadd
    exact h.push hkernel

theorem AreHashed.goto (h : AreHashed draft.states)
    (hgoto : draft.goto g limit ids X = .ok (target, next)) : AreHashed next.states := by
  obtain ⟨b, states, known⟩ := draft
  obtain ⟨⟨kernel, shifted, moves⟩, hacross, hgoto⟩ := bind_eq_ok_iff.mp hgoto
  dsimp only at hgoto
  split at hgoto
  · obtain ⟨met, hmeet, hgoto⟩ := bind_eq_ok_iff.mp hgoto
    cases hgoto
    obtain ⟨links, -, hmeet⟩ := bind_eq_ok_iff.mp (orFault_eq_ok_iff.mp hmeet)
    split at hmeet
    · obtain ⟨linked, -, hmeet⟩ := bind_eq_ok_iff.mp hmeet
      cases hmeet
      exact h
    · cases hmeet
  · obtain ⟨linked, -, hgoto⟩ := bind_eq_ok_iff.mp hgoto
    have hkernel : kernel.IsHashed := isHashed_across (orFault_eq_ok_iff.mp hacross)
    exact h.addState hkernel hgoto

/-- A transition leaves the kernels as they are. -/
theorem AreHashed.withTransition (h : AreHashed draft.states) :
    AreHashed (draft.withTransition id X target).states := by
  intro q hq
  obtain ⟨i, hi⟩ := Array.getElem?_of_mem hq
  rw [getElem?_withTransition, Option.map_eq_some_iff] at hi
  obtain ⟨r, hr, rfl⟩ := hi
  have hhashed := h r (Array.mem_of_getElem? hr)
  split
  · exact hhashed
  · exact hhashed

theorem areHashed_start (h : start g limit = .ok draft) : AreHashed draft.states := by
  obtain ⟨⟨k, isNew, kernel, b⟩, hadd, h⟩ := bind_eq_ok_iff.mp h
  obtain ⟨⟨target, next⟩, hstate, h⟩ := bind_eq_ok_iff.mp h
  cases pure_eq_ok_iff.mp h
  have hkernel : kernel.IsHashed := ItemSet.IsHashed.empty.addNew (orFault_eq_ok_iff.mp hadd)
  have hnone : AreHashed #[] := fun _ hmem => absurd hmem (Array.not_mem_empty _)
  exact hnone.addState hkernel hstate

end Draft

namespace Stage

variable {s : Stage}

/-- At every stage the kernels remember no wrong hash. -/
theorem Reached.areHashed (h : Reached g limit s) : Draft.AreHashed s.draft.states := by
  induction h with
  | first hstart => exact Draft.areHashed_start hstart
  | across _ hexpand ih =>
    obtain ⟨target, mid, hgoto, -, rfl⟩ := Draft.expandOver_eq_ok_iff.mp hexpand
    exact (Draft.AreHashed.goto ih hgoto).withTransition
  | next _ _ ih => exact ih

/-- **What building looks up** by the signature of a kernel is found by its hash and its cores. -/
theorem Reached.getElem?_known (wf : g.WellFormed) (hlimit : limit ≤ maxStates)
    (h : Reached g limit s) {shifted : Shifted}
    (hacross : Shifted.across g X s.ids s.draft.arena = .ok shifted) :
    s.draft.known[shifted.kernel.signature]? = Draft.search s.draft.states shifted.kernel := by
  obtain ⟨done, kernel, items, hat⟩ := h.exists_isAt wf hlimit
  exact hat.sound.knows.getElem?_signature h.areHashed (Draft.isHashed_across hacross)

end Stage

end Lalr
