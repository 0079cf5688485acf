/-
Cobalt.Container.LinkedList — the doubly linked list.

The nodes live on a heap; a list has its first node, its last node and the
number of its nodes. Most operations go forward from the first node. Two of
them use the back pointers: popping the last node, and reading an element of
the second half. Sorting is done on the nodes behind the list's back: the
client takes the first node, has the nodes merge sorted, and tells the list
which nodes are the first and the last one now.

The loops that end at the null pointer have as much fuel as there are
addresses: a loop that uses it up has met a node twice and would not end.
-/
import Cobalt.Lib.Heap

namespace Cobalt.Container.LinkedList

structure Node where
  data : Addr
  next : Addr
  prev : Addr
  deriving DecidableEq, Repr

namespace Node

def setNext (a : Addr) (n : Node) : Node := ⟨n.data, a, n.prev⟩

def setPrev (a : Addr) (n : Node) : Node := ⟨n.data, n.next, a⟩

end Node

structure State where
  heap : Heap Node
  head : Addr
  tail : Addr
  size : Nat

def create : State := ⟨Heap.empty, 0, 0, 0⟩

/-! ## Linking -/

/-- `next` gets `prev` before it; where there is no `next`, `prev` is the last node. -/
def setPrevOr (h : Heap Node) (tail next prev : Addr) : Except Fault (Heap Node × Addr) :=
  if next ≠ 0 then do
    let h ← h.modify next (Node.setPrev prev)
    .ok (h, tail)
  else .ok (h, prev)

/-- `prev` gets `next` behind it; where there is no `prev`, `next` is the first node. -/
def setNextOr (h : Heap Node) (head prev next : Addr) : Except Fault (Heap Node × Addr) :=
  if prev ≠ 0 then do
    let h ← h.modify prev (Node.setNext next)
    .ok (h, head)
  else .ok (h, next)

def pushFront (l : State) (item : Addr) : Except Fault (Int × State) := do
  let (node, h) := l.heap.alloc ⟨item, l.head, 0⟩
  -- an empty list has its tail set, which is what `setPrevOr` does with `node`
  let (h, tail) ← setPrevOr h l.tail l.head node
  .ok (0, ⟨h, node, tail, l.size + 1⟩)

def pushBack (l : State) (item : Addr) : Except Fault (Int × State) := do
  let (node, h) := l.heap.alloc ⟨item, 0, l.tail⟩
  let (h, head) ← setNextOr h l.head l.tail node
  .ok (0, ⟨h, head, node, l.size + 1⟩)

def popFront (l : State) : Except Fault (Addr × State) :=
  if l.head = 0 then .ok (0, l)
  else do
    let n ← l.heap.load l.head
    let (h, tail) ← setPrevOr l.heap l.tail n.next 0
    let old ← h.load l.head
    let h ← h.free l.head
    .ok (old.data, ⟨h, n.next, tail, l.size - 1⟩)

def popBack (l : State) : Except Fault (Addr × State) :=
  if l.tail = 0 then .ok (0, l)
  else do
    let n ← l.heap.load l.tail
    let (h, head) ← setNextOr l.heap l.head n.prev 0
    let old ← h.load l.tail
    let h ← h.free l.tail
    .ok (old.data, ⟨h, head, n.prev, l.size - 1⟩)

/-! ## Reading -/

/-- So many steps along `next`, with no test for the end. -/
def forward (h : Heap Node) : Nat → Addr → Except Fault Addr
  | 0, node => .ok node
  | k + 1, node => do
    let n ← h.load node
    forward h k n.next

/-- So many steps along `prev`. -/
def backward (h : Heap Node) : Nat → Addr → Except Fault Addr
  | 0, node => .ok node
  | k + 1, node => do
    let n ← h.load node
    backward h k n.prev

/-- The nearer end is where the walk starts. -/
def nodeAt (l : State) (index : Nat) : Except Fault Addr :=
  if index < l.size / 2 then forward l.heap index l.head
  else backward l.heap (l.size - 1 - index) l.tail

def get (l : State) (index : Nat) : Except Fault Addr :=
  if l.size ≤ index then .ok 0
  else do
    let node ← nodeAt l index
    let n ← l.heap.load node
    .ok n.data

/-! ## Removing -/

/-- The first node whose data passes the test, with the node before it. -/
def findFirst (test : Addr → Bool) (h : Heap Node) :
    Nat → Addr → Addr → Except Fault (Option (Addr × Addr))
  | 0, _, _ => .error .fuel
  | fuel + 1, prev, node =>
    if node = 0 then .ok none
    else do
      let n ← h.load node
      if test n.data then .ok (some (prev, node))
      else findFirst test h fuel node n.next

/-- At most so many steps from `node`, with the node before. -/
def seek (h : Heap Node) : Nat → Addr → Addr → Except Fault (Addr × Addr)
  | 0, prev, node => .ok (prev, node)
  | k + 1, prev, node =>
    if node = 0 then .ok (prev, node)
    else do
      let n ← h.load node
      seek h k node n.next

/-- The node is taken out of the list and freed. -/
def unlink (l : State) (prev node : Addr) : Except Fault State := do
  let n ← l.heap.load node
  let (h, head) ← setNextOr l.heap l.head prev n.next
  let n ← h.load node
  let (h, tail) ← setPrevOr h l.tail n.next prev
  let h ← h.free node
  .ok ⟨h, head, tail, l.size - 1⟩

/-- The loop of `remove` and of `removeIf`. -/
def removeFirst (test : Addr → Bool) (l : State) : Except Fault (Int × State) := do
  match ← findFirst test l.heap l.heap.next 0 l.head with
  | none => .ok (-1, l)
  | some (prev, node) =>
    let l ← unlink l prev node
    .ok (0, l)

def remove (l : State) (item : Addr) : Except Fault (Int × State) :=
  if item = 0 then .ok (-1, l) else removeFirst (fun data => data == item) l

def removeIf (l : State) (predicate : Option (Addr → Addr → Int)) (userData : Addr) :
    Except Fault (Int × State) :=
  match predicate with
  | none => .ok (-1, l)
  | some predicate => removeFirst (fun data => predicate data userData != 0) l

def removeAt (l : State) (index : Nat) : Except Fault (Int × State) := do
  let (prev, node) ← seek l.heap index 0 l.head
  if node = 0 then .ok (-1, l)
  else do
    let l ← unlink l prev node
    .ok (0, l)

/-! ## Sorting -/

/-- `slow` goes one step where `fast` goes two. -/
def splitLoop (h : Heap Node) : Nat → Addr → Addr → Except Fault Addr
  | 0, _, _ => .error .fuel
  | fuel + 1, slow, fast =>
    if fast = 0 then .ok slow
    else do
      let n ← h.load fast
      if n.next = 0 then splitLoop h fuel slow 0
      else do
        let s ← h.load slow
        let f ← h.load n.next
        splitLoop h fuel s.next f.next

/-- The two halves of the nodes from `head` on. -/
def listSplit (fuel : Nat) (h : Heap Node) (head : Addr) :
    Except Fault (Addr × Addr × Heap Node) :=
  if head = 0 then .ok (0, 0, h)
  else do
    let n ← h.load head
    let slow ← splitLoop h fuel head n.next
    let s ← h.load slow
    let h ← h.modify slow (Node.setNext 0)
    .ok (head, s.next, h)

/-- The nodes of `a` and `b` are hung behind `tail`, the lesser one first. -/
def mergeLoop (compar : Addr → Addr → Int) :
    Nat → Heap Node → Addr → Addr → Addr → Except Fault (Heap Node)
  | 0, _, _, _, _ => .error .fuel
  | fuel + 1, h, tail, a, b =>
    if a ≠ 0 ∧ b ≠ 0 then do
      let na ← h.load a
      let nb ← h.load b
      if compar na.data nb.data ≤ 0 then do
        let h ← h.modify tail (Node.setNext a)
        let na ← h.load a
        mergeLoop compar fuel h a na.next b
      else do
        let h ← h.modify tail (Node.setNext b)
        let nb ← h.load b
        mergeLoop compar fuel h b a nb.next
    else h.modify tail (Node.setNext (if a ≠ 0 then a else b))

/-- The node `dummy` of the stack frame is a node of its own, gone when the call returns. -/
def listMerge (compar : Addr → Addr → Int) (fuel : Nat) (h : Heap Node) (a b : Addr) :
    Except Fault (Addr × Heap Node) := do
  let (dummy, h) := h.alloc ⟨0, 0, 0⟩
  let h ← mergeLoop compar fuel h dummy a b
  let d ← h.load dummy
  let h ← h.free dummy
  .ok (d.next, h)

def listMergesort (compar : Addr → Addr → Int) :
    Nat → Heap Node → Addr → Except Fault (Addr × Heap Node)
  | 0, _, _ => .error .fuel
  | fuel + 1, h, head =>
    if head = 0 then .ok (head, h)
    else do
      let n ← h.load head
      if n.next = 0 then .ok (head, h)
      else do
        let (a, b, h) ← listSplit (fuel + 1) h head
        let (a, h) ← listMergesort compar fuel h a
        let (b, h) ← listMergesort compar fuel h b
        listMerge compar (fuel + 1) h a b

/-- Without a comparator nothing happens. -/
def listSort (compar : Option (Addr → Addr → Int)) (h : Heap Node) (head : Addr) :
    Except Fault (Addr × Heap Node) :=
  match compar with
  | none => .ok (head, h)
  | some compar => listMergesort compar h.next h head

def getHead (l : State) : Addr := l.head

def setHead (l : State) (head tail : Addr) : State := ⟨l.heap, head, tail, l.size⟩

/-- The last of the nodes from `node` on; the client finds it with this walk. -/
def lastNode (h : Heap Node) : Nat → Addr → Addr → Except Fault Addr
  | 0, _, _ => .error .fuel
  | fuel + 1, last, node =>
    if node = 0 then .ok last
    else do
      let n ← h.load node
      lastNode h fuel node n.next

/-- The nodes are sorted, and the list is told the first and the last of them. -/
def sort (l : State) (compar : Option (Addr → Addr → Int)) : Except Fault State := do
  let (first, h) ← listSort compar l.heap (getHead l)
  let last ← lastNode h h.next 0 first
  .ok (setHead ⟨h, l.head, l.tail, l.size⟩ first last)

/-! ## The calls -/

inductive Op where
  | pushFront (item : Addr)
  | pushBack (item : Addr)
  | popFront
  | popBack
  | get (index : Nat)
  | remove (item : Addr)
  | removeIf (predicate : Option (Addr → Addr → Int)) (userData : Addr)
  | removeAt (index : Nat)
  | sort (compar : Option (Addr → Addr → Int))

/-- What a call returns: a code, an element, or nothing. -/
inductive Out where
  | code (r : Int)
  | item (data : Addr)
  | done
  deriving DecidableEq, Repr

def step (l : State) : Op → Except Fault (Out × State)
  | .pushFront item => (pushFront l item).map fun r => (.code r.1, r.2)
  | .pushBack item => (pushBack l item).map fun r => (.code r.1, r.2)
  | .popFront => (popFront l).map fun r => (.item r.1, r.2)
  | .popBack => (popBack l).map fun r => (.item r.1, r.2)
  | .get index => (get l index).map fun r => (.item r, l)
  | .remove item => (remove l item).map fun r => (.code r.1, r.2)
  | .removeIf predicate userData => (removeIf l predicate userData).map fun r => (.code r.1, r.2)
  | .removeAt index => (removeAt l index).map fun r => (.code r.1, r.2)
  | .sort compar => (sort l compar).map fun l => (.done, l)

end Cobalt.Container.LinkedList
