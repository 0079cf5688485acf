/-
Cobalt.Sort.ParallelStableSort — the parallel stable sort.

The array is cut into a power of two of chunks, the chunks are sorted by a
parallel loop, and then pairs of neighbouring runs are merged, level by level,
into the scratch buffer and back. The calling thread goes through the pairs of
a level: a merge is submitted, or, when the submit fails, done by the calling
thread itself. When the task cannot be allocated the pair is left as it is, and
when the wait group of a level cannot be allocated the merging ends. Without a
wait group of its own the parallel loop runs nothing, which goes unnoticed: the
chunks are merged as they are.

The parallel loop and the wait for a level end when all their tasks have
finished. Until then the tasks and the calling thread interleave between any two
elements of a merge. What `cobalt_stable_sort` does to a range is a parameter.
An array has fewer than `2 ^ 58` elements, so the products below do not wrap.
-/
import Cobalt.Lib.Machine
import Cobalt.Lib.StableSort

namespace Cobalt.Sort.ParallelStableSort

/-- What the call is given, and `cobalt_stable_sort`. -/
structure Env (size : Nat) where
  compar : Elem size → Elem size → Int
  stableSort : List (Elem size) → List (Elem size)
  nmemb : Nat
  numThreads : Nat

/-! ## The number of chunks -/

/-- `K` is doubled as long as the test holds; it is below 64 then, so six turns are enough. -/
def grow (test : Nat → Bool) : Nat → Nat → Nat
  | 0, k => k
  | turns + 1, k => if test k && k < 64 then grow test turns (k * 2) else k

def numChunks (nmemb numThreads : Nat) : Nat :=
  let k := grow (fun k => k < numThreads * 2) 6 1
  let k := if k < 2 then 2 else k
  if nmemb / k < 1024 then grow (fun k => k * 2 ≤ nmemb / 1024) 6 1 else k

/-! ## The tasks -/

/-- A chunk to be sorted, a merge with the numbers of elements taken from the two runs, or a merge
that has only to be copied back. -/
inductive Task where
  | chunk (start len : Nat)
  | merge (start1 mid end2 idxA idxB : Nat)
  | copyBack (start1 mid end2 : Nat)
  deriving DecidableEq, Repr

/-- The array and the scratch buffer. -/
structure Memory (α : Type) where
  arr : Nat → α
  scratch : Nat → α

section

variable {size : Nat} (env : Env size)

/-- The step after the loop of a merge: what is left of either run is copied. -/
def copyRest (m : Memory (Elem size)) (start1 mid end2 idxA idxB : Nat) : Memory (Elem size) :=
  let lenA := mid - start1
  let lenB := end2 - mid
  let out := idxA + idxB
  let scratch :=
    if idxA < lenA then overwrite m.scratch (start1 + out) (slice m.arr (start1 + idxA) (lenA - idxA))
    else m.scratch
  let scratch :=
    if idxB < lenB then overwrite scratch (start1 + out) (slice m.arr (mid + idxB) (lenB - idxB))
    else scratch
  ⟨m.arr, scratch⟩

/-- One step of a task, and the task after it. -/
def taskStep (m : Memory (Elem size)) : Task → Memory (Elem size) × Option Task
  | .chunk start len =>
    if len > 1 then (⟨overwrite m.arr start (env.stableSort (slice m.arr start len)), m.scratch⟩, none)
    else (m, none)
  | .merge start1 mid end2 idxA idxB =>
    if idxA < mid - start1 ∧ idxB < end2 - mid then
      let a := m.arr (start1 + idxA)
      let b := m.arr (mid + idxB)
      let out := start1 + (idxA + idxB)
      if env.compar a b ≤ 0 then
        (⟨m.arr, overwrite m.scratch out [a]⟩, some (.merge start1 mid end2 (idxA + 1) idxB))
      else (⟨m.arr, overwrite m.scratch out [b]⟩, some (.merge start1 mid end2 idxA (idxB + 1)))
    else (copyRest m start1 mid end2 idxA idxB, some (.copyBack start1 mid end2))
  | .copyBack start1 mid end2 =>
    (⟨overwrite m.arr start1 (slice m.scratch start1 ((mid - start1) + (end2 - mid))), m.scratch⟩, none)

/-! ## The calling thread -/

/-- Where the calling thread is: in front of the parallel loop, in it, at the head of the loop over
the levels, at the head of the loop over the pairs, in the wait, or behind the loops. -/
inductive Pc where
  | launch
  | sorting
  | level (step : Nat)
  | pair (step i : Nat)
  | wait (step : Nat)
  | done
  deriving DecidableEq, Repr

/-- `own` is what the calling thread sorts or merges itself before it goes on. -/
structure State (α : Type) where
  mem : Memory α
  tasks : List Task
  own : Option Task
  pc : Pc

/-- The moves of the calling thread, with the outcomes of its calls, and those of the tasks. -/
inductive Action where
  | caller (waitgroup alloc submit : Bool)
  | own
  | task (t : Nat)

/-- The end of chunk `k - 1` and start of chunk `k`, of so many chunks. -/
def bound (chunks k : Nat) : Nat := k * env.nmemb / chunks

/-- The merge of the runs that start with the chunks `i` and `i + step`. -/
def mergeTask (chunks step i : Nat) : Task :=
  .merge (bound env chunks i) (bound env chunks (i + step))
    (if i + 2 * step < chunks then bound env chunks (i + 2 * step) else env.nmemb) 0 0

/-- The chunks of the parallel loop. -/
def chunkTasks (chunks : Nat) : List Task :=
  (List.range chunks).map fun k =>
    .chunk (bound env chunks k) (bound env chunks (k + 1) - bound env chunks k)

def callerStep (chunks : Nat) (s : State (Elem size)) (waitgroup alloc submit : Bool) :
    Option (State (Elem size)) :=
  match s.pc with
  | .launch =>
    if waitgroup then some ⟨s.mem, chunkTasks env chunks ++ s.tasks, none, .sorting⟩
    else some ⟨s.mem, s.tasks, none, .level 1⟩
  | .sorting => if s.tasks = [] then some ⟨s.mem, s.tasks, none, .level 1⟩ else none
  | .level step =>
    if step < chunks then
      if waitgroup then some ⟨s.mem, s.tasks, none, .pair step 0⟩
      else some ⟨s.mem, s.tasks, none, .done⟩
    else some ⟨s.mem, s.tasks, none, .done⟩
  | .pair step i =>
    if i < chunks then
      if i + step < chunks then
        if alloc then
          if submit then
            some ⟨s.mem, mergeTask env chunks step i :: s.tasks, none, .pair step (i + 2 * step)⟩
          else some ⟨s.mem, s.tasks, some (mergeTask env chunks step i), .pair step (i + 2 * step)⟩
        else some ⟨s.mem, s.tasks, none, .pair step (i + 2 * step)⟩
      else some ⟨s.mem, s.tasks, none, .pair step (i + 2 * step)⟩
    else some ⟨s.mem, s.tasks, none, .wait step⟩
  | .wait step => if s.tasks = [] then some ⟨s.mem, s.tasks, none, .level (step * 2)⟩ else none
  | .done => none

def step (chunks : Nat) (s : State (Elem size)) : Action → Option (State (Elem size))
  | .caller waitgroup alloc submit =>
    match s.own with
    | none => callerStep env chunks s waitgroup alloc submit
    | some _ => none
  | .own =>
    match s.own with
    | none => none
    | some t =>
      let r := taskStep env s.mem t
      some ⟨r.1, s.tasks, r.2, s.pc⟩
  | .task t =>
    match s.tasks[t]? with
    | none => none
    | some task =>
      let r := taskStep env s.mem task
      some ⟨r.1, s.tasks.take t ++ r.2.toList ++ s.tasks.drop (t + 1), s.own, s.pc⟩

/-- The call, with or without a scratch buffer. -/
def start (m : Memory (Elem size)) (hasScratch : Bool) : State (Elem size) :=
  let chunks := numChunks env.nmemb env.numThreads
  if env.nmemb ≤ 1 ∨ size = 0 then ⟨m, [], none, .done⟩
  else if env.numThreads ≤ 1 ∨ env.nmemb ≤ 4096 ∨ chunks ≤ 1 then
    ⟨m, [], some (.chunk 0 env.nmemb), .done⟩
  else if hasScratch then ⟨m, [], none, .launch⟩
  else ⟨m, [], some (.chunk 0 env.nmemb), .done⟩

def machine (m : Memory (Elem size)) : Machine (State (Elem size)) Action where
  init s := ∃ hasScratch, s = start env m hasScratch
  step := step env (numChunks env.nmemb env.numThreads)

end

end Cobalt.Sort.ParallelStableSort
