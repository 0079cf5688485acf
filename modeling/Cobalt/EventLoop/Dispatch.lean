/-
Cobalt.EventLoop.Dispatch — watched descriptors and the dispatch of a batch of events.

The registrations are a singly linked list of heap cells with a pointer to its
last cell. The kernel's side is the data pointer that `epoll` keeps for each
descriptor. `epoll_wait` returns a batch: some watched descriptors in some order,
each with the data pointer it had at that time; the loop then reads the entries
through these pointers, one after the other, and calls their callbacks. A
callback may add, modify and remove descriptors. The calls that the client makes
in a callback are actions of their own, so that a callback can do anything.

Reading a freed entry is a fault, after which nothing more happens. `removed` and
`stray` are for the statements: the descriptors removed since the batch was
returned, and whether the callback of one of them was invoked after that.
-/
import Cobalt.Lib.Heap
import Cobalt.Lib.Machine

namespace Cobalt.EventLoop.Dispatch

/-- `fd_entry_t`; the callback and its argument are addresses of the user's. -/
structure FdEntry where
  fd : Int
  events : Int
  callback : Addr
  userData : Addr
  next : Addr
  deriving DecidableEq, Repr

def FdEntry.setNext (e : FdEntry) (next : Addr) : FdEntry := { e with next := next }

/-- The data pointer of a descriptor in the kernel: null between the two calls of
`epoll_ctl` that add it, the entry in the loop itself for the wakeup descriptor, or a cell. -/
inductive Data where
  | null
  | wakeup
  | entry (a : Addr)
  deriving DecidableEq, Repr

/-- The part of `struct cobalt_eventloop` that has to do with descriptors. -/
structure Loop where
  heap : Heap FdEntry
  fdHead : Addr
  fdTail : Addr
  interest : Int → Option Data
  removed : List Int

namespace Loop

def setInterest (l : Loop) (fd : Int) (x : Option Data) : Loop :=
  ⟨l.heap, l.fdHead, l.fdTail, Function.update l.interest fd x, l.removed⟩

def setHead (l : Loop) (a : Addr) : Loop := ⟨l.heap, a, l.fdTail, l.interest, l.removed⟩

def setTail (l : Loop) (a : Addr) : Loop := ⟨l.heap, l.fdHead, a, l.interest, l.removed⟩

def setHeap (l : Loop) (h : Heap FdEntry) : Loop := ⟨h, l.fdHead, l.fdTail, l.interest, l.removed⟩

def remove (l : Loop) (fd : Int) : Loop :=
  ⟨l.heap, l.fdHead, l.fdTail, l.interest, fd :: l.removed⟩

/-- More than the list can have cells. -/
def fuel (l : Loop) : Nat := l.heap.next + 1

end Loop

/-! ## The interface -/

/-- The search of `cobalt_eventloop_add_fd` for the descriptor. -/
def watched (h : Heap FdEntry) (fd : Int) : Nat → Addr → Except Fault Bool
  | 0, _ => .error .fuel
  | fuel + 1, entry =>
    if entry = 0 then .ok false
    else do
      let e ← h.load entry
      if e.fd = fd then .ok true else watched h fd fuel e.next

/-- The end of `cobalt_eventloop_add_fd`, where the new entry is linked in. -/
def append (l : Loop) (a : Addr) : Except Fault (Int × Loop) :=
  if l.fdHead = 0 then .ok (0, (l.setHead a).setTail a)
  else do
    let h ← l.heap.modify l.fdTail fun e => e.setNext a
    .ok (0, (l.setHeap h).setTail a)

/-- `cobalt_eventloop_add_fd`. The kernel takes a descriptor that it knows not yet, if it is one it
accepts; the entry is allocated, or not. -/
def addFd (l : Loop) (fd events : Int) (callback userData : Addr) (accepted allocated : Bool) :
    Except Fault (Int × Loop) :=
  if fd < 0 ∨ callback = 0 then .ok (-1, l)
  else do
    let found ← watched l.heap fd l.fuel l.fdHead
    if found then .ok (-1, l)
    else if accepted = false ∨ l.interest fd ≠ none then .ok (-1, l)
    else if allocated = false then .ok (-1, l.setInterest fd (some .null))
    else
      let new := l.heap.alloc ⟨fd, events, callback, userData, 0⟩
      append ((l.setHeap new.2).setInterest fd (some (.entry new.1))) new.1

/-- `*prev = next`, where `prev` is the head of the list, or the next field of the entry `last`. -/
def setPrev (l : Loop) (last next : Addr) : Except Fault Loop :=
  if last = 0 then .ok (l.setHead next)
  else (l.heap.modify last fun p => p.setNext next).map l.setHeap

/-- The loop of `cobalt_eventloop_del_fd`. -/
def unlink (fd : Int) : Nat → Loop → Addr → Addr → Except Fault (Int × Loop)
  | 0, _, _, _ => .error .fuel
  | fuel + 1, l, last, curr =>
    if curr = 0 then .ok (-1, l)
    else do
      let e ← l.heap.load curr
      if e.fd = fd then do
        let l ← setPrev l last e.next
        let l := if l.fdTail = curr then l.setTail last else l
        let h ← l.heap.free curr
        .ok (0, (l.setHeap h).remove fd)
      else unlink fd fuel l curr e.next

/-- `cobalt_eventloop_del_fd`. -/
def delFd (l : Loop) (fd : Int) : Except Fault (Int × Loop) :=
  if fd < 0 then .ok (-1, l)
  else
    let l := l.setInterest fd none
    unlink fd l.fuel l 0 l.fdHead

/-- `cobalt_eventloop_mod_fd`. -/
def modFd (l : Loop) (fd events : Int) (callback userData : Addr) (accepted allocated : Bool) :
    Except Fault (Int × Loop) :=
  if fd < 0 then .ok (-1, l)
  else do
    let r ← delFd l fd
    addFd r.2 fd events callback userData accepted allocated

/-! ## The loop -/

/-- `struct epoll_event`. -/
structure Event where
  events : Int
  data : Data
  deriving DecidableEq, Repr

/-- Where the loop is: outside the dispatch, before the next event of the batch, or in the callback
of the event before. -/
inductive Phase where
  | outside
  | batch (rest : List Event)
  | callback (rest : List Event)
  deriving DecidableEq, Repr

/-- The events that are still to be dispatched. -/
def Phase.rest : Phase → List Event
  | .outside => []
  | .batch rest => rest
  | .callback rest => rest

/-- The client has control. -/
def Phase.client : Phase → Bool
  | .batch _ => false
  | _ => true

structure State where
  loop : Loop
  phase : Phase
  stray : Bool
  fault : Option Fault

inductive Act where
  | add (fd events : Int) (callback userData : Addr) (accepted allocated : Bool)
  | mod (fd events : Int) (callback userData : Addr) (accepted allocated : Bool)
  | del (fd : Int)
  /-- the client closes the descriptor, and the kernel forgets it -/
  | close (fd : Int)
  /-- `platform_wait` returns these descriptors, each with its events -/
  | wait (ready : List (Int × Int))
  /-- the next round of the loop over the batch -/
  | next
  /-- the callback returns -/
  | ret
  deriving DecidableEq, Repr

/-- The state after a call of the client's. -/
def State.call (s : State) (r : Except Fault (Int × Loop)) : State :=
  match r with
  | .ok (_, l) => ⟨l, s.phase, s.stray, s.fault⟩
  | .error e => ⟨s.loop, s.phase, s.stray, some e⟩

/-- The batch for the descriptors that are ready. -/
def batchOf (l : Loop) : List (Int × Int) → Option (List Event)
  | [] => some []
  | (fd, events) :: ready => do
    let data ← l.interest fd
    let rest ← batchOf l ready
    some (⟨events, data⟩ :: rest)

/-- One round of the loop over the batch. -/
def dispatch (s : State) (ev : Event) (rest : List Event) : State :=
  match ev.data with
  | .null => ⟨s.loop, .batch rest, s.stray, s.fault⟩
  | .wakeup => ⟨s.loop, .callback rest, s.stray, s.fault⟩
  | .entry a =>
    match s.loop.heap.load a with
    | .error e => ⟨s.loop, .batch rest, s.stray, some e⟩
    | .ok e =>
      if e.callback = 0 then ⟨s.loop, .batch rest, s.stray, s.fault⟩
      else ⟨s.loop, .callback rest, s.stray || s.loop.removed.contains e.fd, s.fault⟩

def step (s : State) (act : Act) : Option State :=
  if s.fault ≠ none then none
  else
    match act with
    | .add fd events callback userData accepted allocated =>
      if s.phase.client then some (s.call (addFd s.loop fd events callback userData accepted allocated))
      else none
    | .mod fd events callback userData accepted allocated =>
      if s.phase.client then some (s.call (modFd s.loop fd events callback userData accepted allocated))
      else none
    | .del fd => if s.phase.client then some (s.call (delFd s.loop fd)) else none
    | .close fd =>
      if s.phase.client then some ⟨s.loop.setInterest fd none, s.phase, s.stray, s.fault⟩ else none
    | .wait ready =>
      if s.phase = .outside ∧ (ready.map Prod.fst).Nodup then
        (batchOf s.loop ready).map fun evs =>
          ⟨⟨s.loop.heap, s.loop.fdHead, s.loop.fdTail, s.loop.interest, []⟩, .batch evs, s.stray,
            s.fault⟩
      else none
    | .next =>
      match s.phase with
      | .batch [] => some ⟨s.loop, .outside, s.stray, s.fault⟩
      | .batch (ev :: rest) => some (dispatch s ev rest)
      | _ => none
    | .ret =>
      match s.phase with
      | .callback rest => some ⟨s.loop, .batch rest, s.stray, s.fault⟩
      | _ => none

/-- A new loop with its wakeup descriptor. -/
def start (wakeupFd : Int) : State :=
  ⟨⟨.empty, 0, 0, Function.update (fun _ => none) wakeupFd (some .wakeup), []⟩, .outside, false, none⟩

def machine : Machine State Act := ⟨fun s => ∃ wakeupFd, s = start wakeupFd, step⟩

end Cobalt.EventLoop.Dispatch
