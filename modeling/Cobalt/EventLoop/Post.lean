/-
Cobalt.EventLoop.Post — tasks posted to an event loop that may be asleep.

Any number of threads run `cobalt_eventloop_post` while the loop thread goes
round in `cobalt_eventloop_iteration`. A queue operation, an access of
`is_sleeping`, the write to the wakeup descriptor and the drain of it are one
step each. The wakeup descriptor is readable or it is not; a write makes it
readable. `platform_wait` returns at any time, after a timeout or for other
descriptors, and reports the wakeup descriptor only if that is readable. What
the loop does besides (timers, signals, other callbacks) has no part in this; a
task or callback that posts counts as one more thread.
-/
import Cobalt.Lib.Machine

namespace Cobalt.EventLoop.Post

/-- Where the loop thread is in `cobalt_eventloop_iteration`. -/
inductive LoopPc where
  /-- the `drain_post_queue` before the sleep -/
  | drainFirst
  /-- `is_sleeping = true` -/
  | sleep
  /-- `cobalt_lfqueue_is_empty` -/
  | check
  /-- `is_sleeping = false`, tasks having arrived -/
  | clear
  /-- the `drain_post_queue` after that -/
  | drainAgain
  /-- in `platform_wait` -/
  | wait
  /-- `is_sleeping = false` after the wait -/
  | awake (ready : Bool)
  /-- `drain_wakeup_fd` in `on_wakeup_event` -/
  | drainFd
  /-- `drain_post_queue` in `on_wakeup_event` -/
  | drainEvent
  /-- the `drain_post_queue` after the callbacks -/
  | drainLast
  deriving DecidableEq, Repr

/-- Where a thread is in `cobalt_eventloop_post`. -/
inductive PostPc where
  | idle
  /-- `cobalt_lfqueue_enqueue`, after `retry` failed attempts -/
  | enqueue (task retry : Nat)
  /-- the exchange of `is_sleeping` -/
  | exchange
  /-- `wakeup_loop` -/
  | write
  deriving DecidableEq, Repr

structure State where
  queue : List Nat
  isSleeping : Bool
  readable : Bool
  loop : LoopPc
  pc : Nat → PostPc

inductive Act where
  /-- a thread calls `cobalt_eventloop_post`; the task is allocated, or not -/
  | post (t task : Nat) (allocated : Bool)
  /-- the next step of a thread in `cobalt_eventloop_post` -/
  | poster (t : Nat)
  /-- the next step of the loop thread -/
  | loop
  /-- `platform_wait` returns, with an event for the wakeup descriptor or without -/
  | wake (ready : Bool)
  deriving DecidableEq, Repr

/-- `COBALT_EVENTLOOP_DEFAULT_POST_CAPACITY`. -/
def postCapacity : Nat := 65536

/-- The bound of the loop around `cobalt_lfqueue_enqueue`. -/
def maxRetries : Nat := 1000

namespace State

def setPc (s : State) (t : Nat) (x : PostPc) : State := { s with pc := Function.update s.pc t x }

def setLoop (s : State) (x : LoopPc) : State := { s with loop := x }

/-- One call of `cobalt_lfqueue_dequeue` in `drain_post_queue`; an empty queue ends the loop. -/
def drainPostQueue (s : State) (next : LoopPc) : State :=
  match s.queue with
  | [] => s.setLoop next
  | _ :: queue => { s with queue := queue }

end State

/-- The next step of a thread in `cobalt_eventloop_post`. -/
def postStep (s : State) (t : Nat) : Option State :=
  match s.pc t with
  | .idle => none
  | .enqueue task retry =>
    if s.queue.length < postCapacity then
      some ({ s with queue := s.queue ++ [task] }.setPc t .exchange)
    else if retry + 1 < maxRetries then
      some (s.setPc t (.enqueue task (retry + 1)))
    else
      some (s.setPc t .idle)
  | .exchange =>
    some ({ s with isSleeping := false }.setPc t (if s.isSleeping then .write else .idle))
  | .write => some ({ s with readable := true }.setPc t .idle)

/-- The next step of the loop thread, outside `platform_wait`. -/
def loopStep (s : State) : Option State :=
  match s.loop with
  | .drainFirst => some (s.drainPostQueue .sleep)
  | .sleep => some ({ s with isSleeping := true }.setLoop .check)
  | .check => some (s.setLoop (if s.queue = [] then .wait else .clear))
  | .clear => some ({ s with isSleeping := false }.setLoop .drainAgain)
  | .drainAgain => some (s.drainPostQueue .wait)
  | .wait => none
  | .awake ready =>
    some ({ s with isSleeping := false }.setLoop (if ready then .drainFd else .drainLast))
  | .drainFd => some ({ s with readable := false }.setLoop .drainEvent)
  | .drainEvent => some (s.drainPostQueue .drainLast)
  | .drainLast => some (s.drainPostQueue .drainFirst)

def step (s : State) : Act → Option State
  | .post t task allocated =>
    if s.pc t = .idle then some (s.setPc t (if allocated then .enqueue task 0 else .idle)) else none
  | .poster t => postStep s t
  | .loop => loopStep s
  | .wake ready =>
    if s.loop = .wait ∧ (ready = true → s.readable = true) then some (s.setLoop (.awake ready))
    else none

/-- A new loop: nothing posted, and no thread in a call. -/
def start : State := ⟨[], false, false, .drainFirst, fun _ => .idle⟩

def machine : Machine State Act := ⟨(· = start), step⟩

end Cobalt.EventLoop.Post
