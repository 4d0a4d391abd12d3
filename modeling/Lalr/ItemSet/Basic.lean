import Lalr.Item.Arena
import Std.Data.TreeSet

/-!
# Item sets

An item set holds at most one item for each core, in the order in which the cores came in. The items
themselves live in an arena; the set keeps their numbers. When an item comes in whose core is there
already, its lookahead is merged into the item that the set holds.

- `find?`, `contains`, `ids` and `cores` are views of the members.
- Two sets are the same kernel when they have the same cores (`sameCores`), whatever their order,
  their items and their lookaheads. `hashCode` depends on the cores alone, too; it is remembered
  until the members change.
- `signature` lists the cores in ascending order, so that kernels can be looked up.
-/

namespace Lalr

namespace Core

/-- Mixes one more word into a hash. -/
def mixWord (hash word : UInt64) : UInt64 :=
  ((hash <<< 5 ||| hash >>> 59) ^^^ word) * 0x517cc1b727220a95

/-- The hash of a core: its production and its marker mixed in this order. -/
def hashCode (c : Core) : UInt64 := mixWord (mixWord 0 (.ofNat c.production)) c.dot.toUInt64

/-- A number that no other core has; the marker takes up its last 16 bits. -/
def rank (c : Core) : Nat := c.production * 65536 + c.dot.toNat

theorem rank_inj {a b : Core} : a.rank = b.rank ↔ a = b := by
  refine ⟨fun h => ?_, congrArg rank⟩
  obtain ⟨p, d⟩ := a
  obtain ⟨q, e⟩ := b
  have := d.toNat_lt
  have := e.toNat_lt
  simp only [rank] at h
  have same : @Eq Nat p q := by omega
  rw [Core.mk.injEq, ← UInt16.toNat_inj]
  exact ⟨same, by omega⟩

end Core

/-- A set of items, at most one for each core: the cores with the numbers of their items, in the
order in which they came in, and the hash if it was computed since they changed. -/
structure ItemSet where
  members : Array (Core × ItemId)
  cached : Option UInt64
deriving DecidableEq, Repr

namespace ItemSet

/-- The set without items. -/
def empty : ItemSet := ⟨#[], none⟩

instance : Inhabited ItemSet := ⟨empty⟩

/-- The number of items. -/
def size (s : ItemSet) : Nat := s.members.size

/-- Whether there is no item. -/
def isEmpty (s : ItemSet) : Bool := s.members.isEmpty

/-- The numbers of the items, in order. -/
def ids (s : ItemSet) : List ItemId := s.members.toList.map Prod.snd

/-- The cores of the items, in order. -/
def cores (s : ItemSet) : List Core := s.members.toList.map Prod.fst

/-- The items, as the arena has them, in order. -/
def items (s : ItemSet) (a : Arena) : Except Fault (List Item) := s.ids.mapM a.get

/-- The number of the item with a core. -/
def find? (s : ItemSet) (core : Core) : Option ItemId :=
  (s.members.find? fun member => member.1 == core).map Prod.snd

/-- Whether there is an item with a core. -/
def contains (s : ItemSet) (core : Core) : Bool := (s.find? core).isSome

/-- Whether every core of `s` is a core of `t`. -/
def isSubset (s t : ItemSet) : Bool := s.members.all fun member => t.contains member.1

/-- Whether both sets have the same cores. -/
def sameCores (s t : ItemSet) : Bool := s.size == t.size && s.isSubset t

/-- The ranks of the cores in ascending order. -/
def signature (s : ItemSet) : List Nat := (Std.TreeSet.ofList (s.cores.map Core.rank)).toList

/-- The exclusive or of the hashes of the cores. -/
def coreHash (s : ItemSet) : UInt64 :=
  s.members.foldl (fun hash member => hash ^^^ member.1.hashCode) 0

/-- The hash of the set, and the set that remembers it. -/
def hashCode (s : ItemSet) : UInt64 × ItemSet :=
  match s.cached with
  | some hash => (hash, s)
  | none =>
    let hash := s.coreHash
    (hash, { s with cached := some hash })

/-! ## Items come in -/

/-- Appends an item with a core that is not there. -/
def push (s : ItemSet) (core : Core) (id : ItemId) : ItemSet :=
  match s with
  | ⟨members, _⟩ => ⟨members.push (core, id), none⟩

/-- What there is after an item came in: the item that the set holds for the core, whether the core
was not there before, the set and the arena. -/
structure Placed where
  id : ItemId
  isNew : Bool
  set : ItemSet
  arena : Arena

/-- Takes in an item of the arena. -/
def add (s : ItemSet) (a : Arena) (id : ItemId) : Except Fault Placed := do
  let core := (← a.get id).core
  match s.find? core with
  | some existing => return ⟨existing, false, s, (← a.absorb existing id).2⟩
  | none => return ⟨id, true, s.push core id, a⟩

/-- Takes in a core with a lookahead; an item for it is added to the arena only if the core is
new. -/
def addNew (s : ItemSet) (a : Arena) (core : Core) (lookahead : TerminalSet) :
    Except Fault Placed :=
  match s.find? core with
  | some existing => return ⟨existing, false, s, ← a.extendLookahead existing lookahead⟩
  | none =>
    let (id, a) := a.alloc core lookahead
    return ⟨id, true, s.push core id, a⟩

/-- Takes in items one by one. -/
def addMany (s : ItemSet) (a : Arena) (ids : List ItemId) : Except Fault (ItemSet × Arena) :=
  ids.foldlM (fun (s, a) id => (fun placed => (placed.set, placed.arena)) <$> s.add a id) (s, a)

/-- Takes in all items of another set. -/
def addSet (s t : ItemSet) (a : Arena) : Except Fault (ItemSet × Arena) := s.addMany a t.ids

/-! ## Items go out -/

/-- Removes the item with a core, and answers with its number; the others keep their order. -/
def remove (s : ItemSet) (core : Core) : Option ItemId × ItemSet :=
  (s.find? core, ⟨s.members.eraseP fun member => member.1 == core, none⟩)

/-- Removes the items whose cores are in another set. -/
def removeSet (s t : ItemSet) : ItemSet := t.cores.foldl (fun s core => (s.remove core).2) s

/-- Takes out the item that came in last. -/
def takeLast? (s : ItemSet) : Option (ItemId × ItemSet) :=
  match s.members.back? with
  | none => none
  | some (_, id) => some (id, ⟨s.members.pop, none⟩)

/-! ## Text -/

/-- The items of a set in braces, one a line. -/
def text (g : Grammar) (s : ItemSet) (a : Arena) : Except Fault String := do
  let lines ← (← s.items a).mapM fun item => return "  " ++ (← item.text g) ++ "\n"
  return "\x7b\n" ++ String.join lines ++ "\x7d"

/-! ## The views -/

@[simp] theorem find?_empty (core : Core) : empty.find? core = none := rfl

@[simp] theorem cores_push (s : ItemSet) (core : Core) (id : ItemId) :
    (s.push core id).cores = s.cores ++ [core] := by simp [push, cores]

@[simp] theorem ids_push (s : ItemSet) (core : Core) (id : ItemId) :
    (s.push core id).ids = s.ids ++ [id] := by simp [push, ids]

@[simp] theorem members_push (s : ItemSet) (core : Core) (id : ItemId) :
    (s.push core id).members = s.members.push (core, id) := rfl

theorem contains_iff {s : ItemSet} {core : Core} : s.contains core = true ↔ core ∈ s.cores := by
  simp [contains, find?, cores]

theorem contains_push (s : ItemSet) (core other : Core) (id : ItemId) :
    (s.push core id).contains other = (other == core || s.contains other) := by
  rw [Bool.eq_iff_iff, contains_iff, cores_push, Bool.or_eq_true, beq_iff_eq, contains_iff]
  grind

theorem find?_eq_none_iff {s : ItemSet} {core : Core} :
    s.find? core = none ↔ s.contains core = false := by
  simp [contains]

/-! ## Signatures -/

theorem mem_signature {s : ItemSet} {n : Nat} :
    n ∈ s.signature ↔ ∃ core ∈ s.cores, core.rank = n := by
  simp [signature, Std.TreeSet.mem_toList, Std.TreeSet.mem_ofList]

theorem pairwise_signature (s : ItemSet) : s.signature.Pairwise (· < ·) :=
  Std.TreeSet.ordered_toList.imp Nat.compare_eq_lt.1

/-- Two sets have the same signature exactly when they have the same cores. -/
theorem signature_eq_iff {s t : ItemSet} :
    s.signature = t.signature ↔ ∀ core, core ∈ s.cores ↔ core ∈ t.cores := by
  have rank_mem (u : ItemSet) (core : Core) : core.rank ∈ u.signature ↔ core ∈ u.cores := by
    simp [mem_signature, Core.rank_inj]
  constructor
  · intro h core
    rw [← rank_mem, h, rank_mem]
  · intro h
    -- strictly ascending lists with the same members are equal
    have nodup (u : ItemSet) : u.signature.Nodup := (pairwise_signature u).imp Nat.ne_of_lt
    refine List.Perm.eq_of_pairwise (fun a b _ _ less more => absurd less (Nat.lt_asymm more))
      (pairwise_signature s) (pairwise_signature t) ?_
    refine (List.perm_ext_iff_of_nodup (nodup s) (nodup t)).2 fun n => ?_
    simp only [mem_signature, h]

end ItemSet

end Lalr
