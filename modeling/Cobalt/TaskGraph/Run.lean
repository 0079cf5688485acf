/-
Cobalt.TaskGraph.Run — running a compiled task graph.

`cobalt_taskgraph_run` resets the counters, sets the wait group to the
number of nodes and submits the roots. A worker calls its node, takes one
from the counter of each successor, submits the successors whose counter it
took to zero, and signals the wait group. A submit that fails runs the
successor at once, inside the worker that released it, so a thread is a
stack of calls. A thread moves by one call, one decrement, one submit or one
signal at a time; the pool hands its tasks to idle threads in any order.
The log is what the statements are about; no step reads it.
-/
import Cobalt.Lib.Machine
import Cobalt.TaskGraph.Graph

namespace Cobalt.TaskGraph.Run

/-- What one call is about to do. -/
inductive Frame where
  /-- `cobalt_taskgraph_run`, with the roots it has not submitted -/
  | roots (rest : List Nat)
  /-- `taskgraph_node_worker`: the callback is the next step -/
  | call (v : Nat)
  /-- inside the callback -/
  | inside (v : Nat)
  /-- the loop over the successors, with those that are left -/
  | loop (v : Nat) (rest : List Nat)
  /-- the counter of `w` went from 1 to 0: `w` is to be submitted -/
  | submit (v w : Nat) (rest : List Nat)
  deriving DecidableEq, Repr

/-- What has happened in the current run. -/
inductive Event where
  | submitted (v : Nat)
  | taken (v : Nat)
  | started (v : Nat)
  | returned (v : Nat)
  | decremented (v w : Nat)
  | signalled (v : Nat)
  | left
  deriving DecidableEq, Repr

structure State where
  /-- `remaining_in_degree` of each node -/
  remaining : Nat → Nat
  /-- the count of the wait group, if there is one -/
  wg : Option Int
  /-- the tasks that the pool holds -/
  pool : List Nat
  /-- the calls of each thread, the innermost first -/
  frames : Nat → List Frame
  /-- the thread that is inside `cobalt_taskgraph_run` -/
  caller : Option Nat
  log : List Event

inductive Act where
  /-- a thread calls `cobalt_taskgraph_run`; `ok` is the outcome of `cobalt_waitgroup_create` -/
  | run (t : Nat) (ok : Bool)
  /-- an idle thread takes a task of the pool -/
  | take (t v : Nat)
  /-- a thread submits a task; `ok` says whether the pool accepts it -/
  | submit (t : Nat) (ok : Bool)
  /-- any other step of a thread -/
  | go (t : Nat)
  deriving DecidableEq, Repr

def Act.isRun : Act → Bool
  | .run _ _ => true
  | _ => false

namespace State

abbrev setStack (s : State) (t : Nat) (fs : List Frame) (e : Event) : State :=
  { s with frames := Function.update s.frames t fs, log := s.log ++ [e] }

/-- The last run is over: the call has returned and the count is zero. -/
def complete (s : State) : Bool := s.caller = none ∧ (s.wg = none ∨ s.wg = some 0)

end State

/-- `cobalt_taskgraph_run`, up to the loop over the roots. -/
def begin (g : Graph) (s : State) (t : Nat) (ok : Bool) : State :=
  if g.compiled = false ∨ g.nodes.length = 0 then s
  else if ok then
    { remaining := inDegreeOf g.nodes, wg := some g.nodes.length, pool := s.pool
      frames := Function.update s.frames t [.roots g.roots], caller := some t, log := [] }
  else { s with remaining := inDegreeOf g.nodes, wg := none, log := [] }

/-- A step of the innermost call that is not a submit. -/
def go (g : Graph) (s : State) (t : Nat) : Frame → List Frame → Option State
  | .roots [], below => some (({ s with caller := none } : State).setStack t below .left)
  | .call v, below => some (s.setStack t (.inside v :: below) (.started v))
  | .inside v, below => some (s.setStack t (.loop v (succs g.nodes v) :: below) (.returned v))
  | .loop v (w :: rest), below =>
    let top := if s.remaining w = 1 then Frame.submit v w rest else Frame.loop v rest
    let remaining := Function.update s.remaining w (decr (s.remaining w))
    some (({ s with remaining } : State).setStack t (top :: below) (.decremented v w))
  | .loop v [], below =>
    let wg := s.wg.map fun count => count - 1
    some (({ s with wg } : State).setStack t below (.signalled v))
  | _, _ => none

/-- `cobalt_threadpool_submit`, and the call that replaces it when it fails. -/
def submit (s : State) (t v : Nat) (ok : Bool) (rest : List Frame) : State :=
  if ok then ({ s with pool := s.pool ++ [v] } : State).setStack t rest (.submitted v)
  else s.setStack t (.call v :: rest) (.submitted v)

def step (g : Graph) (s : State) : Act → Option State
  | .run t ok => if s.frames t = [] ∧ s.complete then some (begin g s t ok) else none
  | .take t v =>
    if s.frames t = [] ∧ v ∈ s.pool then
      some (({ s with pool := s.pool.erase v } : State).setStack t [.call v] (.taken v))
    else none
  | .submit t ok =>
    match s.frames t with
    | .roots (v :: rest) :: below => some (submit s t v ok (.roots rest :: below))
    | .submit v w rest :: below => some (submit s t w ok (.loop v rest :: below))
    | _ => none
  | .go t =>
    match s.frames t with
    | top :: below => go g s t top below
    | [] => none

/-- A graph that has never been run. -/
def start : State :=
  { remaining := fun _ => 0, wg := none, pool := [], frames := fun _ => [], caller := none
    log := [] }

/-- A compiled graph under any number of threads. -/
def machine (g : Graph) : Machine State Act where
  init s := s = start
  step := step g

end Cobalt.TaskGraph.Run
