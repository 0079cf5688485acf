/-
Cobalt.Container.Guards — guards and iterators of the lock-free containers.

`lfskiplist.c` and `lfhashmap.c` protect a guard, an iterator and every point
operation by a critical section of one handle: `get_tls_ebr_handle` gives a
thread the same handle in each call. Enter sets the epoch of the handle and
exit clears it, whatever has been entered before.

The machine runs the calls of one thread `t` with handle `h` on top of the
machine of `ebr.c`, whose other threads go on in between. A point operation
enters, may retire nodes, and exits; what else it does is not modelled here.
`opened` has the guards and iterators that are open, the newest first, with
the epoch that was published for each.
-/
import Cobalt.Memory.EbrOwners

namespace Cobalt.Container.Guards

open Memory

inductive Kind where
  | guard
  | iterator
  deriving DecidableEq, Repr

inductive PointOp where
  | insert
  | put
  | get
  | remove
  deriving DecidableEq, Repr

/-- Where thread `t` is in a call of the container. -/
inductive Phase where
  | idle
  /-- In the enter of pin or iter_create. -/
  | opening (kind : Kind)
  /-- In the exit of unpin or iter_destroy. -/
  | closing
  /-- In the enter of a point operation. -/
  | entering (op : PointOp)
  /-- In a point operation, in no call of `ebr.c`. -/
  | body (op : PointOp)
  /-- In a retire of a point operation. -/
  | retiring (op : PointOp)
  /-- In the exit of a point operation. -/
  | leaving
  deriving DecidableEq, Repr

structure State where
  ebr : Ebr.State
  phase : Phase
  opened : List (Kind × Nat)

inductive Act where
  | pin
  | unpin
  | iterCreate
  | iterDestroy
  | point (op : PointOp)
  /-- The point operation retires a node. -/
  | retire
  /-- The point operation is done. -/
  | leave
  /-- The next access of thread `t`. -/
  | go
  /-- A step of another thread. -/
  | other (u : Ebr.Tid) (a : Ebr.Act)
  deriving DecidableEq, Repr

variable (t : Ebr.Tid) (h : Ebr.Hid)

/-- A call of `ebr.c` by the thread. -/
def call (s : State) (a : Ebr.Act) (phase : Phase) : Option State :=
  (Ebr.step s.ebr (t, a)).map fun ebr => { s with ebr := ebr, phase := phase }

/-- A guard or an iterator is closed; the newest one is. -/
def close (s : State) (kind : Kind) : Option State :=
  match s.phase, s.opened with
  | .idle, (k, _) :: rest => if k = kind then call t { s with opened := rest } (.exit h) .closing else none
  | _, _ => none

/-- What follows a call of `ebr.c` that has returned. -/
def resume (s : State) : State :=
  match s.phase with
  | .idle => s
  | .opening kind => { s with phase := .idle, opened := (kind, s.ebr.activeEpoch h) :: s.opened }
  | .closing => { s with phase := .idle }
  | .entering op => { s with phase := .body op }
  | .body op => { s with phase := .body op }
  | .retiring op => { s with phase := .body op }
  | .leaving => { s with phase := .idle }

def step (s : State) : Act → Option State
  | .pin => if s.phase = .idle then call t s (.enter h) (.opening .guard) else none
  | .iterCreate => if s.phase = .idle then call t s (.enter h) (.opening .iterator) else none
  | .unpin => close t h s .guard
  | .iterDestroy => close t h s .iterator
  | .point op => if s.phase = .idle then call t s (.enter h) (.entering op) else none
  | .retire =>
      match s.phase with
      | .body op => call t s (.retire h) (.retiring op)
      | _ => none
  | .leave =>
      match s.phase with
      | .body _ => call t s (.exit h) .leaving
      | _ => none
  | .go =>
      (Ebr.step s.ebr (t, .go)).map fun ebr =>
        if ebr.pc t = .idle then resume h { s with ebr := ebr } else { s with ebr := ebr }
  | .other u a =>
      if u = t then none else (Ebr.step s.ebr (u, a)).map fun ebr => { s with ebr := ebr }

/-- The thread has its handle and is in no call. -/
def Start (s : State) : Prop :=
  Ebr.machine.Reach s.ebr ∧ s.ebr.owner h = some t ∧ s.ebr.pc t = .idle ∧ s.phase = .idle ∧
    s.opened = []

def machine : Machine State Act := ⟨Start t h, step t h⟩

/-- As long as a guard or an iterator is open, the handle is active, in an epoch
that is not newer than the one published for the oldest of them. -/
def Guarded (s : State) : Prop :=
  ∀ oldest ∈ s.opened.getLast?, s.ebr.Active h ∧ s.ebr.activeEpoch h >>> 1 ≤ oldest.2 >>> 1

end Cobalt.Container.Guards
