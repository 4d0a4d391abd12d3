import Lalr.Item.Basic

/-!
# Item arenas

All items of a construction live in one `Arena` and are known by their numbers in it, so that links
between them may form cycles. Items are only ever added at the end; a number that is not there is a
fault.

`a[id]?` is the view of an arena. Each operation that changes one comes with a lemma that says what
it does to the view.
-/

namespace Lalr

/-- The items of a construction, each at the index that is its number. -/
structure Arena where
  items : Array Item
deriving DecidableEq, Repr

namespace Arena

/-- The arena without items. -/
def empty : Arena := ⟨#[]⟩

/-- The number of items. -/
def size (a : Arena) : Nat := a.items.size

/-- Whether there is no item. -/
def isEmpty (a : Arena) : Bool := a.items.isEmpty

instance : GetElem? Arena ItemId Item fun a id => id < a.items.size where
  getElem a id _ := a.items[id]
  getElem? a id := a.items[id]?

instance : LawfulGetElem Arena ItemId Item fun a id => id < a.items.size where
  getElem?_def a id _ := getElem?_def a.items id

/-- The item of a number. -/
def get (a : Arena) (id : ItemId) : Except Fault Item :=
  match a[id]? with
  | some item => .ok item
  | none => .error (.foreignItem id)

/-- Changes one item; a number that is not there changes nothing. -/
def modify (a : Arena) (id : ItemId) (f : Item → Item) : Arena :=
  match a with
  | ⟨items⟩ => ⟨items.modify id f⟩

/-- Adds an item without links. -/
def alloc (a : Arena) (core : Core) (lookahead : TerminalSet) : ItemId × Arena :=
  match a with
  | ⟨items⟩ => (items.size, ⟨items.push ⟨core, lookahead, #[]⟩⟩)

/-- Adds the item that arises when the marker of another one moves on, with the same lookahead. -/
def shift (g : Grammar) (a : Arena) (id : ItemId) : Except Fault (ItemId × Arena) := do
  let item ← a.get id
  if ← item.isComplete g then .error .completedItem
  else return a.alloc item.core.advance item.lookahead

/-- Lets the lookahead of one item flow on to another, and says whether that link is new. -/
def link (a : Arena) (source target : ItemId) : Except Fault (Bool × Arena) := do
  let item ← a.get source
  if item.targets.contains target then return (false, a)
  else return (true, a.modify source fun item => item.linkTo target)

/-- Records a link, if there is to be one. -/
def linkIf (a : Arena) (wanted : Bool) (source target : ItemId) : Except Fault Arena :=
  if wanted then Prod.snd <$> a.link source target else .ok a

/-- Adds terminals to the lookahead of an item. -/
def extendLookahead (a : Arena) (id : ItemId) (lookahead : TerminalSet) : Except Fault Arena := do
  discard (a.get id)
  return a.modify id fun item => item.extend lookahead

/-- Adds a terminal to the lookahead of an item, and says whether it is new. -/
def insertLookahead (a : Arena) (id : ItemId) (t : TerminalId) : Except Fault (Bool × Arena) := do
  let item ← a.get id
  return ((item.lookahead.insertNew t).1, ← a.extendLookahead id (.singleton t))

/-- Adds the lookahead of `source` to that of `target`, and says whether that made it grow. An item,
even one that is not there, adds nothing to itself. -/
def absorb (a : Arena) (target source : ItemId) : Except Fault (Bool × Arena) :=
  if target = source then .ok (false, a)
  else match a[target]?, a[source]? with
    | some old, some item =>
      let lookahead := item.lookahead
      if lookahead ⊆ old.lookahead then .ok (false, a)
      else .ok (true, a.modify target fun item => item.extend lookahead)
    | _, _ => .error .foreignPair

/-- Drops all items from number `size` on. -/
def truncate (a : Arena) (size : Nat) : Arena :=
  match a with
  | ⟨items⟩ => ⟨items.shrink size⟩

/-! ## The view of an arena -/

@[simp] theorem getElem?_mk (items : Array Item) (id : ItemId) :
    (Arena.mk items)[id]? = items[id]? := rfl

@[simp] theorem getElem?_items (a : Arena) (id : ItemId) : a.items[id]? = a[id]? := rfl

@[ext] theorem ext {a b : Arena} (h : ∀ id : ItemId, a[id]? = b[id]?) : a = b := by
  cases a
  cases b
  exact congrArg Arena.mk (Array.ext_getElem? h)

@[simp] theorem get_eq_ok_iff {a : Arena} {id : ItemId} {item : Item} :
    a.get id = .ok item ↔ a[id]? = some item := by
  unfold get
  split <;> simp_all

theorem getElem?_eq_none_iff {a : Arena} {id : ItemId} : a[id]? = none ↔ a.size ≤ id :=
  Array.getElem?_eq_none_iff

@[simp] theorem size_empty : empty.size = 0 := rfl

@[simp] theorem size_modify (a : Arena) (id : ItemId) (f : Item → Item) :
    (a.modify id f).size = a.size := Array.size_modify

theorem getElem?_modify (a : Arena) (id other : ItemId) (f : Item → Item) :
    (a.modify id f)[other]? = if id = other then a[other]?.map f else a[other]? :=
  Array.getElem?_modify

@[simp] theorem alloc_fst (a : Arena) (core : Core) (lookahead : TerminalSet) :
    (a.alloc core lookahead).1 = a.size := rfl

@[simp] theorem size_alloc (a : Arena) (core : Core) (lookahead : TerminalSet) :
    (a.alloc core lookahead).2.size = a.size + 1 := Array.size_push _

theorem getElem?_alloc (a : Arena) (core : Core) (lookahead : TerminalSet) (id : ItemId) :
    (a.alloc core lookahead).2[id]? = if id = a.size then some ⟨core, lookahead, #[]⟩ else a[id]? :=
  Array.getElem?_push

@[simp] theorem size_truncate (a : Arena) (size : Nat) :
    (a.truncate size).size = min size a.size := by
  simp [truncate, Arena.size]

theorem getElem?_truncate (a : Arena) (size : Nat) (id : ItemId) :
    (a.truncate size)[id]? = if id < size then a[id]? else none := by
  cases a with | mk items =>
  simp only [truncate, getElem?_mk, ← Array.getElem?_toList, Array.toList_shrink,
    List.getElem?_take]

end Arena

end Lalr
