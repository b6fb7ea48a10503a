import Mathlib.Data.List.Nodup

/-!
# Linked lists with iterators

The list module keeps a singly linked list, a pointer to the `next` field of its
last node, and a chain of iterators.  Every insertion and every deletion repairs
all iterators.  Memory is followed down to the nodes: a function that reads a node
which is not allocated, or whose assertion fails, has no result.
-/

namespace SlurmSim.Common.Lists

/-- `struct listNode` -/
structure ListNode (A α : Type) where
  data : α
  next : Option A

/-- The address of a pointer to a node: `&l->head`, or `&p->next` of a node. -/
inductive Slot (A : Type) where
  | head
  | next (p : A)
deriving DecidableEq

/-- `struct listIterator` at its own address. -/
structure ListIterator (A I : Type) where
  self : I
  pos : Option A
  prev : Slot A

/-- `struct xlist` with the nodes in memory and the iterators of its chain. -/
structure XList (A I α : Type) where
  memory : A → Option (ListNode A α)
  head : Option A
  tail : Slot A
  iNext : List (ListIterator A I)
  count : Int32

variable {A I α : Type}

namespace XList

/-- The pointer at an address. -/
def load (l : XList A I α) : Slot A → Option (Option A)
  | .head => some l.head
  | .next p => (l.memory p).map (·.next)

variable [DecidableEq A]

/-- Write the pointer at an address. -/
def store (l : XList A I α) (pp : Slot A) (value : Option A) : Option (XList A I α) :=
  match pp with
  | .head => some { l with head := value }
  | .next p => (l.memory p).map fun node =>
    { l with memory := Function.update l.memory p (some { node with next := value }) }

/-- A block from `list_node_alloc` with its fields. -/
def place (l : XList A I α) (p : A) (node : ListNode A α) : XList A I α :=
  { l with memory := Function.update l.memory p (some node) }

/-- `list_node_free` -/
def listNodeFree (l : XList A I α) (p : A) : XList A I α :=
  { l with memory := Function.update l.memory p none }

/-- The assertion that both functions below make of every iterator: `pos` is
`*prev` or `(*prev)->next`. -/
def asserted (l : XList A I α) (i : ListIterator A I) : Option (ListIterator A I) := do
  let here ← l.load i.prev
  if i.pos = here then some i
  else do
    let p ← here
    let next ← l.load (.next p)
    if i.pos = next then some i else none

end XList

/-- `list_create` -/
def listCreate : XList A I α :=
  ⟨fun _ => none, none, .head, [], 0⟩

variable [DecidableEq A]

/-- What an insertion of `p` at `pp` does to an iterator. -/
def repairCreate (pp : Slot A) (p : A) (next : Option A) (i : ListIterator A I) :
    ListIterator A I :=
  if i.prev = pp then { i with prev := .next p }
  else if i.pos = next then { i with pos := some p }
  else i

/-- `list_node_create`, with the block that it allocates. -/
def listNodeCreate (l : XList A I α) (pp : Slot A) (x : α) (p : A) : Option (XList A I α) := do
  let next ← l.load pp
  let l := l.place p ⟨x, next⟩
  let l := if next = none then { l with tail := .next p } else l
  let l ← l.store pp (some p)
  let l := { l with count := l.count + 1 }
  let iNext ← l.iNext.mapM fun i => l.asserted (repairCreate pp p next i)
  some { l with iNext := iNext }

/-- What the deletion of `p` at `pp` does to an iterator. -/
def repairDestroy (pp : Slot A) (p : A) (next : Option A) (i : ListIterator A I) :
    ListIterator A I :=
  if i.pos = some p then { i with pos := next, prev := pp }
  else if i.prev = .next p then { i with prev := pp }
  else i

/-- `list_node_destroy` and the data that it returns. -/
def listNodeDestroy (l : XList A I α) (pp : Slot A) : Option (XList A I α × Option α) := do
  match ← l.load pp with
  | none => some (l, none)
  | some p =>
    let node ← l.memory p
    let l ← l.store pp node.next
    let l := if node.next = none then { l with tail := pp } else l
    let l := { l with count := l.count - 1 }
    let iNext ← l.iNext.mapM fun i => l.asserted (repairDestroy pp p node.next i)
    some (({ l with iNext := iNext }).listNodeFree p, some node.data)

def listAppend (l : XList A I α) (x : α) (p : A) : Option (XList A I α) :=
  listNodeCreate l l.tail x p

def listPrepend (l : XList A I α) (x : α) (p : A) : Option (XList A I α) :=
  listNodeCreate l .head x p

def listPush (l : XList A I α) (x : α) (p : A) : Option (XList A I α) :=
  listNodeCreate l .head x p

def listPop (l : XList A I α) : Option (XList A I α × Option α) :=
  listNodeDestroy l .head

/-- The loop of `list_delete_all`, with a bound on its turns and the number of
nodes deleted so far. -/
def deleteLoop (f : α → Bool) : Nat → XList A I α → Slot A → Nat → Option (XList A I α × Nat)
  | 0, _, _, _ => none
  | turns + 1, l, pp, n => do
      match ← l.load pp with
      | none => some (l, n)
      | some p =>
        let node ← l.memory p
        if f node.data then do
          let (l, v) ← listNodeDestroy l pp
          deleteLoop f turns l pp (if v.isSome then n + 1 else n)
        else deleteLoop f turns l (.next p) n

def listDeleteAll (turns : Nat) (l : XList A I α) (f : α → Bool) : Option (XList A I α × Nat) :=
  deleteLoop f turns l .head 0

/-- The loop of `list_flush`. -/
def flushLoop : Nat → XList A I α → Nat → Option (XList A I α × Nat)
  | 0, _, _ => none
  | turns + 1, l, n => do
      match ← l.load .head with
      | none => some (l, n)
      | some _ =>
        let (l, v) ← listNodeDestroy l .head
        flushLoop turns l (if v.isSome then n + 1 else n)

def listFlush (turns : Nat) (l : XList A I α) : Option (XList A I α × Nat) :=
  flushLoop turns l 0

/-! ## Iterators -/

def listIteratorCreate (l : XList A I α) (i : I) : XList A I α :=
  { l with iNext := ⟨i, l.head, .head⟩ :: l.iNext }

variable [DecidableEq I]

/-- The loop takes the first iterator with the address out of the chain. -/
def listIteratorDestroy (l : XList A I α) (i : I) : XList A I α :=
  { l with iNext := l.iNext.eraseP (·.self = i) }

def XList.iterator (l : XList A I α) (i : I) : Option (ListIterator A I) :=
  l.iNext.find? (·.self = i)

/-- Write the fields of an iterator. -/
def XList.setIterator (l : XList A I α) (i : ListIterator A I) : XList A I α :=
  { l with iNext := l.iNext.map fun other => if other.self = i.self then i else other }

/-- The node behind the one that an iterator comes to. -/
def XList.posAfter (l : XList A I α) (i : ListIterator A I) : Option (Option A) :=
  match i.pos with
  | some p => l.load (.next p)
  | none => some none

/-- The pointer to the node that an iterator comes to, if it is not there yet. -/
def XList.prevAfter (l : XList A I α) (i : ListIterator A I) : Option (Slot A) :=
  (l.load i.prev).bind fun here =>
    if here ≠ i.pos then here.map .next else some i.prev

/-- `list_next` and the node whose data it returns. -/
def listNext (l : XList A I α) (i : ListIterator A I) : Option (XList A I α × Option A) := do
  let pos ← l.posAfter i
  let prev ← l.prevAfter i
  some (l.setIterator ⟨i.self, pos, prev⟩, i.pos)

def listInsert (l : XList A I α) (i : ListIterator A I) (x : α) (p : A) : Option (XList A I α) :=
  listNodeCreate l i.prev x p

def listRemove (l : XList A I α) (i : ListIterator A I) : Option (XList A I α × Option α) := do
  let here ← l.load i.prev
  if here ≠ i.pos then listNodeDestroy l i.prev else some (l, none)

end SlurmSim.Common.Lists
