/-
Cobalt.Container.Unlinking — reclamation under the lock-free containers when
allocations fail.

Every operation of `lfskiplist.c` and `lfhashmap.c` asks `get_tls_ebr_handle`
for a handle, enters, works on the shared list and exits; a guard and an
iterator do the same over a longer time. Two failed allocations do not end
an operation. When register has no memory for a handle, the handle is NULL:
enter, exit and retire then do nothing, and the operation goes on. When
retire has no memory for its node, it frees the pointer at once.

The machine runs on the machine of `ebr.c`. An operation runs from the store
of enter to the call of exit, and in between its thread may link nodes,
unlink them and retire them; which, is up to the container. Operations are
numbered as they start, and an unlinked node has the number of operations
that had started when it was unlinked.
-/
import Cobalt.Memory.EbrTheorems

namespace Cobalt.Container.Unlinking

open Memory Ebr

/-- A node of the shared list. -/
abbrev Node := Nat

/-- An operation, guard or iterator that is running; the handle `none` is NULL. -/
structure Op where
  id : Nat
  handle : Option Hid
  deriving DecidableEq, Repr

structure State where
  ebr : Ebr.State
  running : Tid → List Op
  started : Nat
  unlinked : Node → Option Nat
  /-- `ptr` of a `cobalt_ebr_node_t`. -/
  pointer : Nid → Node
  retired : List Node
  /-- What retire freed at once, and the thread that did. -/
  freedNow : List (Tid × Node)

inductive Act where
  /-- An operation with a handle the thread has. -/
  | begin (h : Hid)
  | register
  /-- Register has no memory for a handle. -/
  | registerFails
  | advance
  | leave (op : Op)
  | link (n : Node)
  | unlink (n : Node)
  /-- Retire, with or without memory for its node. -/
  | retire (op : Op) (n : Node) (granted : Bool)
  /-- The next access in a call of `ebr.c`. -/
  | go
  deriving DecidableEq, Repr

namespace State

/-- A call of `ebr.c`. -/
def call (s : State) (t : Tid) (a : Ebr.Act) : Option State :=
  (Ebr.step s.ebr (t, a)).map fun ebr => { s with ebr := ebr }

/-- An operation starts. -/
def enter (s : State) (t : Tid) (handle : Option Hid) : State :=
  { s with
    running := Function.update s.running t (⟨s.started, handle⟩ :: s.running t)
    started := s.started + 1 }

/-- The thread is in an operation and in no call of `ebr.c`. -/
def Working (s : State) (t : Tid) : Prop := s.ebr.pc t = .idle ∧ s.running t ≠ []

instance (s : State) (t : Tid) : Decidable (s.Working t) := inferInstanceAs (Decidable (_ ∧ _))

end State

def step (s : State) : Tid × Act → Option State
  | (t, .begin h) => s.call t (.enter h)
  | (t, .register) => s.call t .register
  | (t, .registerFails) =>
      if s.ebr.pc t = .registerNew then
        some (({ s with ebr := s.ebr.move t .idle } : State).enter t none)
      else none
  | (t, .advance) => s.call t .advance
  | (t, .leave op) =>
      if s.ebr.pc t = .idle ∧ op ∈ s.running t then
        let s' := { s with running := Function.update s.running t ((s.running t).erase op) }
        match op.handle with
        | none => some s'
        | some h => s'.call t (.exit h)
      else none
  | (t, .link n) =>
      if s.Working t then some { s with unlinked := Function.update s.unlinked n none } else none
  | (t, .unlink n) =>
      if s.Working t then
        some { s with
          unlinked := Function.update s.unlinked n (some ((s.unlinked n).getD s.started)) }
      else none
  | (t, .retire op n granted) =>
      if s.ebr.pc t = .idle ∧ op ∈ s.running t then
        match op.handle with
        | none => some s
        | some h =>
            if granted then
              ({ s with
                pointer := Function.update s.pointer s.ebr.nodeCount n
                retired := n :: s.retired } : State).call t (.retire h)
            else some { s with retired := n :: s.retired, freedNow := (t, n) :: s.freedNow }
      else none
  | (t, .go) =>
      (Ebr.go s.ebr t).map fun ebr =>
        match s.ebr.pc t with
        | .enterStore h _ => ({ s with ebr := ebr } : State).enter t (some h)
        | _ => { s with ebr := ebr }

/-- Nothing is registered and no operation runs; some nodes may be linked. -/
def start : State where
  ebr := Ebr.start
  running _ := []
  started := 0
  unlinked _ := none
  pointer _ := 0
  retired := []
  freedNow := []

def machine : Machine State (Tid × Act) := ⟨(· = start), step⟩

/-- The node had been unlinked when the operation started. -/
def State.After (s : State) (op : Op) (n : Node) : Prop := ∃ m ∈ s.unlinked n, m ≤ op.id

/-- Every running operation has an active handle, and no node is freed that was
unlinked after the start of an operation that is still running. What retire
frees at once may have been in use by the thread itself. -/
structure Safe (s : State) : Prop where
  active : ∀ t, ∀ op ∈ s.running t, ∃ h, op.handle = some h ∧ s.ebr.Active h
  freed : ∀ k ∈ s.ebr.freed, ∀ t, ∀ op ∈ s.running t, s.After op (s.pointer k)
  freedNow : ∀ p ∈ s.freedNow, ∀ t ≠ p.1, ∀ op ∈ s.running t, s.After op p.2

/-- Register gets its memory; retire gets it too, or no other thread is in an
operation from before the node was unlinked. A retired node is unlinked and
is not linked again. No operation is begun with a handle that an operation
already has, and the epoch stays below `2 ^ 64 - 1`. -/
def Fine (s : State) : Tid × Act → Prop
  | (t, .begin h) => ∀ op ∈ s.running t, op.handle ≠ some h
  | (_, .registerFails) => False
  | (_, .link n) => n ∉ s.retired
  | (t, .retire _ n granted) => s.unlinked n ≠ none ∧
      (granted = true ∨ ∀ u ≠ t, ∀ op ∈ s.running u, s.After op n)
  | (t, .go) => Bounded s.ebr (t, .go)
  | _ => True

end Cobalt.Container.Unlinking
