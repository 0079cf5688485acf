/-
Cobalt.Pool.Deque — the work-stealing deque of `threadpool.c` as a machine.

The owner pushes and pops at the bottom, thieves steal at the top. A step is
one load, store or compare-and-swap of `top`, `bottom` or of one of the two
fields of a slot. The owner lowers `bottom` before it looks at `top`; for
the last task it competes with the thieves by a compare-and-swap of `top`.
The indices do not wrap and are naturals.

Next to the fields of `chase_lev_deque_t` the state keeps the history. A
push that succeeds gets the next ticket when it stores `bottom`, and its
index remembers the ticket; `popped` and `stolen` are what has been handed
out, with the ticket of the index it was taken from.
-/
import Cobalt.Lib.Machine

namespace Cobalt.Pool.Deque

abbrev Tid := Nat

/-- `cobalt_task_t`: a function pointer and its argument. -/
structure Task where
  fn : Nat
  arg : Nat
  deriving DecidableEq, Repr

/-- Where the owner is; each phase but `idle` is named after the access it
makes next. -/
inductive OwnerPc where
  | idle
  -- `chase_lev_push`
  | pushTop (b : Nat) (task : Task)
  | pushFn (b : Nat) (task : Task)
  | pushArg (b : Nat) (task : Task)
  | pushBottom (b : Nat) (task : Task)
  -- `chase_lev_pop`
  | popLower (b : Nat)
  | popTop (b : Nat)
  | popFn (b t : Nat)
  | popArg (b t fn : Nat)
  | popCas (b t : Nat) (task : Task)
  | popRaise (b : Nat)
  | popReset (t : Nat)
  deriving DecidableEq, Repr

/-- Where a thief is, in `chase_lev_steal`. -/
inductive ThiefPc where
  | idle
  | stealBottom (t : Nat)
  | stealFn (t : Nat)
  | stealArg (t fn : Nat)
  | stealCas (t : Nat) (task : Task)
  deriving DecidableEq, Repr

structure State where
  top : Nat
  bottom : Nat
  buffer : Nat → Task
  owner : OwnerPc
  thief : Tid → ThiefPc
  tasks : List Task
  ticket : Nat → Nat
  popped : List (Nat × Task)
  stolen : List (Nat × Task)

inductive Act where
  | push (task : Task)
  | pop
  | owner
  | steal (u : Tid)
  | thief (u : Tid)
  /-- The spurious failure of the weak compare-and-swap. -/
  | fail (u : Tid)
  deriving DecidableEq, Repr

/-- The slot of an index: `index & mask`. -/
def slotOf (k index : Nat) : Nat := index &&& (2 ^ k - 1)

namespace State

abbrev setFn (s : State) (i fn : Nat) : State :=
  { s with buffer := Function.update s.buffer i { s.buffer i with fn := fn } }

abbrev setArg (s : State) (i arg : Nat) : State :=
  { s with buffer := Function.update s.buffer i { s.buffer i with arg := arg } }

abbrev moveThief (s : State) (u : Tid) (pc : ThiefPc) : State :=
  { s with thief := Function.update s.thief u pc }

end State

/-- The next access of the owner inside a call. -/
def ownerStep (k : Nat) (s : State) : Option State :=
  match s.owner with
  | .idle => none
  | .pushTop b task =>
      if b - s.top ≥ 2 ^ k then some { s with owner := .idle }
      else some { s with owner := .pushFn b task }
  | .pushFn b task => some { s.setFn (slotOf k b) task.fn with owner := .pushArg b task }
  | .pushArg b task => some { s.setArg (slotOf k b) task.arg with owner := .pushBottom b task }
  | .pushBottom b task =>
      some { s with
        bottom := b + 1, owner := .idle, tasks := s.tasks ++ [task],
        ticket := Function.update s.ticket b s.tasks.length }
  | .popLower b => some { s with bottom := b, owner := .popTop b }
  | .popTop b =>
      if s.top ≤ b then some { s with owner := .popFn b s.top }
      else some { s with owner := .popReset s.top }
  | .popFn b t => some { s with owner := .popArg b t (s.buffer (slotOf k b)).fn }
  | .popArg b t fn =>
      let task := ⟨fn, (s.buffer (slotOf k b)).arg⟩
      if t = b then some { s with owner := .popCas b t task }
      else some { s with owner := .idle, popped := s.popped ++ [(s.ticket b, task)] }
  | .popCas b t task =>
      if s.top = t then
        some { s with
          top := t + 1, owner := .popRaise b, popped := s.popped ++ [(s.ticket b, task)] }
      else some { s with owner := .popRaise b }
  | .popRaise b => some { s with bottom := b + 1, owner := .idle }
  | .popReset t => some { s with bottom := t, owner := .idle }

/-- The next access of a thief inside a call. -/
def thiefStep (k : Nat) (s : State) (u : Tid) : Option State :=
  match s.thief u with
  | .idle => none
  | .stealBottom t => some (s.moveThief u (if t < s.bottom then .stealFn t else .idle))
  | .stealFn t => some (s.moveThief u (.stealArg t (s.buffer (slotOf k t)).fn))
  | .stealArg t fn => some (s.moveThief u (.stealCas t ⟨fn, (s.buffer (slotOf k t)).arg⟩))
  | .stealCas t task =>
      if s.top = t then
        some { s.moveThief u .idle with
          top := t + 1, stolen := s.stolen ++ [(s.ticket t, task)] }
      else some (s.moveThief u .idle)

def step (k : Nat) (s : State) : Act → Option State
  | .push task => if s.owner = .idle then some { s with owner := .pushTop s.bottom task } else none
  | .pop =>
      if s.owner = .idle then
        if s.bottom = 0 then some s else some { s with owner := .popLower (s.bottom - 1) }
      else none
  | .owner => ownerStep k s
  | .steal u => if s.thief u = .idle then some (s.moveThief u (.stealBottom s.top)) else none
  | .thief u => thiefStep k s u
  | .fail u =>
      match s.thief u with
      | .stealCas _ _ => some (s.moveThief u .idle)
      | _ => none

/-- `chase_lev_init`; the slots are not initialised. -/
def Start (s : State) : Prop :=
  ∃ buffer, s = ⟨0, 0, buffer, .idle, fun _ => .idle, [], fun _ => 0, [], []⟩

/-- A deque of capacity `2 ^ k` under its owner and any number of thieves. -/
def machine (k : Nat) : Machine State Act := ⟨Start, step k⟩

/-! ## What is in the deque -/

/-- Inside `chase_lev_pop`, with `bottom` lowered by one. -/
def OwnerPc.lowered : OwnerPc → Bool
  | popTop _ | popFn _ _ | popArg _ _ _ | popCas _ _ _ | popRaise _ | popReset _ => true
  | _ => false

/-- The end of the tasks that have not been handed out. -/
def State.limit (s : State) : Nat := if s.owner.lowered then s.bottom + 1 else s.bottom

/-- The tickets of the tasks in the deque, from the top. -/
def State.contents (s : State) : List Nat := (List.range' s.top (s.limit - s.top)).map s.ticket

end Cobalt.Pool.Deque
