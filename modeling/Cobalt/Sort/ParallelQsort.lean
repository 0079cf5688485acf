/-
Cobalt.Sort.ParallelQsort — the parallel quicksort.

A thread that sorts a range of the array is in one of three places: at the head
of the loop of `parallel_qsort_impl`, in `cobalt_partition`, or in the call of
`cobalt_qsort`. A range that cannot be given to another thread is sorted by a
recursive call, and the loop goes on with the other half afterwards: a thread
has a stack of such places, of which the first is where it is.

Threads interleave between any two rounds of the partition's loop. Which
allocations and submits succeed is chosen by the action. A submitted task may be
run at any time, whatever the number of workers is, and every interleaving of a
pool with so many workers is one of these. What `cobalt_qsort` does to a range
is a parameter.

The pivot is copied to a buffer. Where there is no memory for the buffer, the
partition gets a pointer into the array instead.
-/
import Cobalt.Lib.Machine
import Cobalt.Lib.Slice

namespace Cobalt.Sort.ParallelQsort

/-- What the call is given, and `cobalt_qsort`. -/
structure Env (size : Nat) where
  compar : Elem size → Elem size → Int
  cutoff : Nat
  qsort : List (Elem size) → List (Elem size)

/-- `pivot_val`: a copy of the pivot, or a pointer to an element. -/
inductive Pivot (α : Type) where
  | copy (x : α)
  | place (i : Nat)

def Pivot.value {α : Type} (arr : Nat → α) : Pivot α → α
  | copy x => x
  | place i => arr i

/-- Where a thread is with the `nmemb` elements from `base` on. -/
inductive Job (α : Type) where
  | loop (base nmemb : Nat)
  | partition (base nmemb left right : Nat) (pivot : Pivot α)
  | qsort (base nmemb : Nat)

/-- The thread that moves, and what `malloc` and the submit do for it. -/
structure Action where
  thread : Nat
  pivotMalloc : Bool
  taskMalloc : Bool
  submit : Bool

structure State (α : Type) where
  arr : Nat → α
  threads : List (List (Job α))

section

variable {size : Nat} (env : Env size)

/-- The median of the first, the middle and the last element. -/
def pivotIndex (arr : Nat → Elem size) (base nmemb : Nat) : Nat :=
  let first := base
  let mid := base + nmemb / 2
  let last := base + (nmemb - 1)
  if env.compar (arr first) (arr mid) < 0 then
    if env.compar (arr mid) (arr last) < 0 then mid
    else if env.compar (arr first) (arr last) < 0 then last
    else first
  else
    if env.compar (arr first) (arr last) < 0 then first
    else if env.compar (arr mid) (arr last) < 0 then last
    else mid

/-- `sizeof(pivot_buf)` -/
def pivotBuf : Nat := 256

def pivotVal (arr : Nat → Elem size) (base nmemb : Nat) (a : Action) : Pivot (Elem size) :=
  let pivot := pivotIndex env arr base nmemb
  if size ≤ pivotBuf then .copy (arr pivot)
  else if a.pivotMalloc then .copy (arr pivot)
  else .place pivot

/-- What a move does: the array, the places of the thread after it, and the task submitted. -/
structure Move (α : Type) where
  arr : Nat → α
  jobs : List (Job α)
  task : Option (Job α)

/-- The ranges left and right of `split`: the smaller one is the loop's, the other one is given
away or sorted first. -/
def afterSplit (arr : Nat → Elem size) (base nmemb split : Nat) (a : Action) : Move (Elem size) :=
  let left := (base, split)
  let right := (base + split, nmemb - split)
  let (spawn, loop) := if split < nmemb - split then (right, left) else (left, right)
  if spawn.2 > env.cutoff then
    if a.taskMalloc ∧ a.submit then
      ⟨arr, [.loop loop.1 loop.2], some (.loop spawn.1 spawn.2)⟩
    else ⟨arr, [.loop spawn.1 spawn.2, .loop loop.1 loop.2], none⟩
  else ⟨arr, [.qsort spawn.1 spawn.2, .loop loop.1 loop.2], none⟩

def partitionStep (arr : Nat → Elem size) (base nmemb left right : Nat) (pivot : Pivot (Elem size)) :
    Move (Elem size) :=
  if env.compar (arr (base + left)) (pivot.value arr) < 0 then
    ⟨arr, [.partition base nmemb (left + 1) right pivot], none⟩
  else
    let right := right - 1
    let arr := if left ≠ right then swap arr (base + left) (base + right) else arr
    ⟨arr, [.partition base nmemb left right pivot], none⟩

def move (arr : Nat → Elem size) (a : Action) : Job (Elem size) → Move (Elem size)
  | .loop base nmemb =>
    if nmemb > env.cutoff then
      ⟨arr, [.partition base nmemb 0 nmemb (pivotVal env arr base nmemb a)], none⟩
    else if nmemb > 1 then ⟨arr, [.qsort base nmemb], none⟩
    else ⟨arr, [], none⟩
  | .partition base nmemb left right pivot =>
    if left < right then partitionStep env arr base nmemb left right pivot
    else if left = 0 ∨ left = nmemb then ⟨arr, [.qsort base nmemb], none⟩
    else afterSplit env arr base nmemb left a
  | .qsort base nmemb => ⟨overwrite arr base (env.qsort (slice arr base nmemb)), [], none⟩

/-- The thread goes on with the places of the move; a task is a thread of its own. -/
def step (s : State (Elem size)) (a : Action) : Option (State (Elem size)) :=
  match s.threads[a.thread]? with
  | none => none
  | some [] => none
  | some (job :: rest) =>
    let m := move env s.arr a job
    some ⟨m.arr, s.threads.set a.thread (m.jobs ++ rest) ++ m.task.toList.map fun job => [job]⟩

/-- The call, with so many workers and with or without a wait group. -/
def start (arr : Nat → Elem size) (nmemb numThreads : Nat) (waitgroup : Bool) : State (Elem size) :=
  if nmemb ≤ 1 ∨ size = 0 then ⟨arr, [[]]⟩
  else if numThreads ≤ 1 ∨ nmemb ≤ env.cutoff then ⟨arr, [[.qsort 0 nmemb]]⟩
  else if waitgroup then ⟨arr, [[.loop 0 nmemb]]⟩
  else ⟨arr, [[.qsort 0 nmemb]]⟩

def machine (arr : Nat → Elem size) (nmemb : Nat) : Machine (State (Elem size)) Action where
  init s := ∃ numThreads waitgroup, s = start env arr nmemb numThreads waitgroup
  step := step env

end

end Cobalt.Sort.ParallelQsort
