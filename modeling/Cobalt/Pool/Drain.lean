/-
Cobalt.Pool.Drain — submitting, executing and waiting for an idle pool.

The part of `threadpool.c` around `active_tasks`: a submit counts its task
before it is queued and takes the count back when an allocation fails or
the queue is full; a worker takes the count back after it has run a task
and, when that was the last one, broadcasts `drain_cond`; an external
thread in `cobalt_threadpool_wait_idle` sleeps on `drain_cond` while the
count is not zero. One step is one access of `active_tasks`, one operation
of a queue, one allocation, or one mutex or condition variable call. The
sleep of idle workers on `idle_cond` is not in the model: workers may look
for a task at any time.
-/
import Cobalt.Lib.Machine
import Cobalt.Lib.Monitor
import Cobalt.Pool.WaitGroup

namespace Cobalt.Pool.Drain

/-- Which threads are workers of the pool, and the capacities of the local
deques and of the global queue. -/
structure Config where
  worker : Tid → Bool
  localCap : Nat
  globalCap : Nat

/-- Where a thread is in the functions of the pool. Each phase but `idle`
and `blocked` is named after the access it makes next. -/
inductive Pc where
  | idle
  -- `cobalt_threadpool_submit`, after the count
  | submitPush (task : Nat)
  | submitAlloc (task : Nat)
  | submitEnqueue (task : Nat)
  | giveBack
  -- `worker_find_and_execute_task`
  | seekLocal
  | seekGlobal
  | seekSteal
  | finish
  | drainLock
  | drainBroadcast
  | drainUnlock
  -- `cobalt_threadpool_wait_idle`, external thread
  | waitLock
  | waitCheck
  | waitSleep
  | blocked
  | woken
  | waitUnlock
  deriving DecidableEq, Repr

structure State where
  activeTasks : UInt64
  globalQueue : List Nat
  localDeque : Tid → List Nat
  drainMutex : Option Tid
  /-- How many functions of tasks the thread is inside: a task that waits
  runs other tasks meanwhile. -/
  depth : Tid → Nat
  pc : Tid → Pc

def start : State := ⟨0, [], fun _ => [], none, fun _ => 0, fun _ => .idle⟩

/-- What a thread does next: a call, the end of the task it runs, the next
access inside a call, or, for `fail`, the failure of an allocation, a queue
that reports to be full or empty because of a concurrent access, the end of
the search for a task, or a spurious wake-up. -/
inductive Act where
  | submit (task : Nat)
  | seek
  | steal (victim : Tid)
  | ret
  | wait
  | go
  | fail
  deriving DecidableEq, Repr

namespace State

abbrev move (s : State) (t : Tid) (pc : Pc) : State := { s with pc := Function.update s.pc t pc }

abbrev lock (s : State) (t : Tid) (pc : Pc) : Option State :=
  if s.drainMutex = none then some { s.move t pc with drainMutex := some t } else none

abbrev unlock (s : State) (t : Tid) (pc : Pc) : State := { s.move t pc with drainMutex := none }

/-- The worker has found a task and runs it. -/
abbrev execute (s : State) (t : Tid) : State :=
  { s.move t .idle with depth := Function.update s.depth t (s.depth t + 1) }

/-- `atomic_fetch_sub(&pool->active_tasks, 1)`. -/
abbrev uncount (s : State) (t : Tid) (pc : Pc) : State :=
  { s.move t pc with activeTasks := s.activeTasks - 1 }

end State

variable (cfg : Config)

/-- A call from outside the functions of the pool. A worker submits from
inside a task; it looks for a task from its own loop or from inside one. -/
def call (s : State) (t : Tid) : Act → Option State
  | .submit task =>
      if cfg.worker t && s.depth t == 0 then none
      else
        let pc := if cfg.worker t then .submitPush task else .submitAlloc task
        some { s.move t pc with activeTasks := s.activeTasks + 1 }
  | .seek => if cfg.worker t then some (s.move t .seekLocal) else none
  | .ret =>
      if s.depth t > 0 then
        some { s.move t .finish with depth := Function.update s.depth t (s.depth t - 1) }
      else none
  | .wait => if cfg.worker t then none else some (s.move t .waitLock)
  | _ => none

/-- One access of one thread. -/
def step (s : State) : Tid × Act → Option State
  | (t, a) =>
    match s.pc t, a with
    | .idle, a => call cfg s t a
    | .submitPush task, .go =>
        if (s.localDeque t).length < cfg.localCap then
          some { s.move t .idle with
            localDeque := Function.update s.localDeque t (s.localDeque t ++ [task]) }
        else some (s.move t (.submitAlloc task))
    | .submitPush task, .fail => some (s.move t (.submitAlloc task))
    | .submitAlloc task, .go => some (s.move t (.submitEnqueue task))
    | .submitAlloc _, .fail => some (s.move t .giveBack)
    | .submitEnqueue task, .go =>
        if s.globalQueue.length < cfg.globalCap then
          some { s.move t .idle with globalQueue := s.globalQueue ++ [task] }
        else some (s.move t .giveBack)
    | .submitEnqueue _, .fail => some (s.move t .giveBack)
    | .giveBack, .go => some (s.uncount t .idle)
    | .seekLocal, .go =>
        -- `chase_lev_pop` takes from the bottom
        match (s.localDeque t).getLast? with
        | some _ =>
            some { s.execute t with
              localDeque := Function.update s.localDeque t (s.localDeque t).dropLast }
        | none => some (s.move t .seekGlobal)
    | .seekLocal, .fail => some (s.move t .seekGlobal)
    | .seekGlobal, .go =>
        match s.globalQueue with
        | _ :: rest => some { s.execute t with globalQueue := rest }
        | [] => some (s.move t .seekSteal)
    | .seekGlobal, .fail => some (s.move t .seekSteal)
    | .seekSteal, .steal victim =>
        match s.localDeque victim with
        | _ :: rest =>
            some { s.execute t with localDeque := Function.update s.localDeque victim rest }
        | [] => some s
    | .seekSteal, .fail => some (s.move t .idle)
    | .finish, .go => some (s.uncount t (if s.activeTasks = 1 then .drainLock else .idle))
    | .drainLock, .go => s.lock t .drainBroadcast
    | .drainBroadcast, .go =>
        some { s with pc := Function.update (wakeAll .blocked .woken s.pc) t .drainUnlock }
    | .drainUnlock, .go => some (s.unlock t .idle)
    | .waitLock, .go => s.lock t .waitCheck
    | .waitCheck, .go =>
        if s.activeTasks > 0 then some (s.move t .waitSleep) else some (s.move t .waitUnlock)
    | .waitSleep, .go => some (s.unlock t .blocked)
    | .blocked, .fail => some (s.move t .woken)
    | .woken, .go => s.lock t .waitCheck
    | .waitUnlock, .go => some (s.unlock t .idle)
    | _, _ => none

/-- The pool under any number of threads. -/
def machine : Machine State (Tid × Act) := ⟨(· = start), step cfg⟩

namespace Pc

/-- Holding `drain_mutex`. -/
@[grind =]
def holds : Pc → Bool
  | drainBroadcast | drainUnlock | waitCheck | waitSleep | waitUnlock => true
  | _ => false

/-- Blocked on `drain_cond`, or about to. -/
@[grind =]
def asleep : Pc → Bool
  | waitSleep | blocked => true
  | _ => false

/-- With a broadcast of `drain_cond` to make. -/
@[grind =]
def caller : Pc → Bool
  | drainLock | drainBroadcast => true
  | _ => false

end Pc

end Cobalt.Pool.Drain
