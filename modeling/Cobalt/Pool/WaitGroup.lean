/-
Cobalt.Pool.WaitGroup — the wait group of `threadpool.c` as a machine.

One step is one access of the counter or one mutex or condition variable
call. `cobalt_waitgroup_done` is a CAS loop while the counter is above one
and `waitgroup_done_final`, under the mutex, for the last decrement;
`cobalt_waitgroup_add` is one `fetch_add` outside the mutex. A thread that
waits is an external one, which blocks on the condition variable, or a
worker, which runs tasks until the counter is zero. The tasks a helping
worker runs are calls of other threads of the machine, which may interleave
with it in more ways than on the worker itself.

Next to the fields of `cobalt_waitgroup_t` the state counts the calls: the
adds, the calls of `done` that have begun and those that have taken effect. The
counter is an integer without bounds here.
-/
import Cobalt.Lib.Machine

namespace Cobalt.Pool

abbrev Tid := Nat

namespace WaitGroup

/-- Where a thread is. Each phase but `idle` and `blocked` is named after
the access it makes next. -/
inductive Pc where
  | idle
  -- `cobalt_waitgroup_done`
  | doneLoad
  | doneCas (cur : Int)
  -- `waitgroup_done_final`
  | finalLock
  | finalLoad
  | finalStore
  | finalSub
  | finalBroadcast
  | finalUnlock
  -- `cobalt_waitgroup_wait`, external thread
  | waitLock
  | waitCheck
  | waitSleep
  | blocked
  | woken
  | waitUnlock
  -- `cobalt_waitgroup_wait`, worker
  | helpCheck
  | helpLock
  | helpUnlock
  deriving DecidableEq, Repr

structure State where
  counter : Int
  mutex : Option Tid
  pc : Tid → Pc
  adds : Nat
  started : Nat
  effects : Nat
  waitCalled : Bool
  waitReturned : Bool

/-- What a thread does next. A thread outside the wait group picks a call;
inside one, `go` is the next access, and `fail` is the spurious failure of a
weak CAS or the spurious wake-up of a blocked thread. -/
inductive Act where
  | add
  | done
  | wait
  | help
  | go
  | fail
  deriving DecidableEq, Repr

/-- `cobalt_waitgroup_create`. -/
def start : State := ⟨0, none, fun _ => .idle, 0, 0, 0, false, false⟩

namespace State

abbrev move (s : State) (t : Tid) (pc : Pc) : State := { s with pc := Function.update s.pc t pc }

/-- `cobalt_mutex_lock`, which is not enabled while another thread holds it. -/
abbrev lock (s : State) (t : Tid) (pc : Pc) : Option State :=
  if s.mutex = none then some { s.move t pc with mutex := some t } else none

abbrev unlock (s : State) (t : Tid) (pc : Pc) : State := { s.move t pc with mutex := none }

/-- `cobalt_cond_broadcast`: every blocked thread goes for the mutex again. -/
abbrev broadcast (s : State) (t : Tid) (pc : Pc) : State :=
  { s with pc := Function.update (fun u => if s.pc u = .blocked then .woken else s.pc u) t pc }

end State

/-- One access of one thread. The contract of the calls is that a `done` has
its `add` before it and that no `add` comes after a `wait`. -/
def step (s : State) : Tid × Act → Option State
  | (t, a) =>
    match s.pc t, a with
    | .idle, .add =>
        if s.waitCalled then none else some { s with counter := s.counter + 1, adds := s.adds + 1 }
    | .idle, .done =>
        if s.started < s.adds then some { s.move t .doneLoad with started := s.started + 1 } else none
    | .idle, .wait => some { s.move t .waitLock with waitCalled := true }
    | .idle, .help => some { s.move t .helpCheck with waitCalled := true }
    | .doneLoad, .go =>
        if s.counter > 1 then some (s.move t (.doneCas s.counter))
        else if s.counter ≤ 0 then some (s.move t .idle)
        else some (s.move t .finalLock)
    | .doneCas cur, .go =>
        if s.counter = cur then
          some { s.move t .idle with counter := cur - 1, effects := s.effects + 1 }
        else some (s.move t .doneLoad)
    | .doneCas _, .fail => some (s.move t .doneLoad)
    | .finalLock, .go => s.lock t .finalLoad
    | .finalLoad, .go =>
        if s.counter = 1 then some (s.move t .finalStore)
        else if s.counter > 1 then some (s.move t .finalSub)
        else some (s.move t .finalUnlock)
    | .finalStore, .go =>
        some { s.move t .finalBroadcast with counter := 0, effects := s.effects + 1 }
    | .finalSub, .go =>
        let pc := if s.counter = 1 then .finalBroadcast else .finalUnlock
        some { s.move t pc with counter := s.counter - 1, effects := s.effects + 1 }
    | .finalBroadcast, .go => some (s.broadcast t .finalUnlock)
    | .finalUnlock, .go => some (s.unlock t .idle)
    | .waitLock, .go => s.lock t .waitCheck
    | .waitCheck, .go => some (s.move t (if s.counter > 0 then .waitSleep else .waitUnlock))
    | .waitSleep, .go => some (s.unlock t .blocked)
    | .blocked, .fail => some (s.move t .woken)
    | .woken, .go => s.lock t .waitCheck
    | .waitUnlock, .go => some { s.unlock t .idle with waitReturned := true }
    | .helpCheck, .go => some (s.move t (if s.counter > 0 then .helpCheck else .helpLock))
    | .helpLock, .go => s.lock t .helpUnlock
    | .helpUnlock, .go => some { s.unlock t .idle with waitReturned := true }
    | _, _ => none

/-- The wait group under any number of threads. -/
def machine : Machine State (Tid × Act) := ⟨(· = start), step⟩

namespace Pc

/-- Inside `cobalt_waitgroup_done`, the decrement still to come. -/
@[grind =]
def pending : Pc → Bool
  | doneLoad | doneCas _ | finalLock | finalLoad | finalStore | finalSub => true
  | _ => false

/-- Inside `cobalt_waitgroup_done`, with an access of the wait group to come. -/
@[grind =]
def inDone : Pc → Bool
  | finalBroadcast | finalUnlock => true
  | pc => pc.pending

/-- Holding the mutex. -/
@[grind =]
def holds : Pc → Bool
  | finalLoad | finalStore | finalSub | finalBroadcast | finalUnlock => true
  | waitCheck | waitSleep | waitUnlock | helpUnlock => true
  | _ => false

/-- Blocked on the condition variable, or about to. -/
@[grind =]
def asleep : Pc → Bool
  | waitSleep | blocked => true
  | _ => false

/-- Inside `cobalt_waitgroup_wait`. -/
@[grind =]
def inWait : Pc → Bool
  | waitLock | waitCheck | waitSleep | blocked | woken | waitUnlock => true
  | helpCheck | helpLock | helpUnlock => true
  | _ => false

end Pc

end WaitGroup

end Cobalt.Pool
