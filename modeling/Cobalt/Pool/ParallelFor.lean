/-
Cobalt.Pool.ParallelFor — `cobalt_threadpool_parallel_for`.

The range is cut into chunks of `chunk_size` indices. A chunk is queued,
or, when the submit fails, run at once; when the allocation of a chunk
fails the rest of the range is run at once and the loop ends. The wait
group returns after every queued chunk has been run, so the calls of `fn`
are those of the calling thread and those of the queued chunks. Indices
are machine words, and `curr + chunk_size` wraps.
-/
import Mathlib

namespace Cobalt.Pool.ParallelFor

/-- The pool as far as the loop sees it: the number of workers, whether the
wait group can be created, and, for each turn of the loop, whether the chunk
can be allocated and submitted. -/
structure Env where
  numWorkers : UInt64
  waitgroup : Bool
  alloc : Nat → Bool
  submit : Nat → Bool

/-- The indices `start` and `end` of a `parallel_chunk_t`. -/
structure Chunk where
  start : UInt64
  stop : UInt64
  deriving DecidableEq, Repr

/-- `for (size_t i = start; i < end; i++) fn(i, arg)`: the indices called. -/
def callRange (i stop : UInt64) : List UInt64 :=
  if i < stop then i :: callRange (i + 1) stop else []
termination_by stop.toNat - i.toNat
decreasing_by
  rename_i h
  have := UInt64.lt_iff_toNat_lt.mp h
  have := stop.toNat_lt
  rw [UInt64.toNat_add, UInt64.toNat_one, Nat.mod_eq_of_lt (by omega)]
  omega

def parallelChunkWorker (c : Chunk) : List UInt64 := callRange c.start c.stop

/-- The variables of the loop: where the next chunk starts, the calls made by
this thread, and the chunks in the queue. -/
structure Progress where
  curr : UInt64
  calls : List UInt64
  queued : List Chunk

/-- The calls that have been made when the wait group returns. -/
def Progress.all (p : Progress) : List UInt64 := p.calls ++ p.queued.flatMap parallelChunkWorker

/-- The loop from its `k`-th turn; `none` when `fuel` turns are not enough. -/
def loop (pool : Env) (stop chunkSize : UInt64) : Nat → Nat → Progress → Option Progress
  | 0, _, _ => none
  | fuel + 1, k, p =>
      if p.curr < stop then
        let next := p.curr + chunkSize
        let next := if next > stop then stop else next
        if pool.alloc k then
          let chunk := ⟨p.curr, next⟩
          if pool.submit k then
            loop pool stop chunkSize fuel (k + 1)
              { p with curr := next, queued := p.queued ++ [chunk] }
          else
            loop pool stop chunkSize fuel (k + 1)
              { p with curr := next, calls := p.calls ++ parallelChunkWorker chunk }
        else
          some { p with calls := p.calls ++ callRange p.curr stop }
      else some p

/-- The chunk size in use; `none` is the trap of a division by zero. -/
def effectiveChunkSize (pool : Env) (total chunkSize : UInt64) : Option UInt64 :=
  if chunkSize = 0 then
    let n := if pool.numWorkers > 0 then pool.numWorkers else 1
    if n * 4 = 0 then none
    else
      let chunkSize := total / (n * 4)
      some (if chunkSize = 0 then 1 else chunkSize)
  else some chunkSize

/-- How a call ends: with its result and the calls of `fn`, or in a trap. -/
inductive Outcome where
  | returned (code : Int) (calls : List UInt64)
  | divisionByZero
  deriving DecidableEq, Repr

/-- `cobalt_threadpool_parallel_for`; `none` for a pool is `NULL`, and
`hasFn` says that `fn` is not. -/
def cobaltThreadpoolParallelFor (fuel : Nat) (pool : Option Env) (start stop chunkSize : UInt64)
    (hasFn : Bool) : Option Outcome :=
  match pool with
  | none => some (.returned (-1) [])
  | some pool =>
      if !hasFn then some (.returned (-1) [])
      else if start ≥ stop then some (.returned 0 [])
      else
        match effectiveChunkSize pool (stop - start) chunkSize with
        | none => some .divisionByZero
        | some chunkSize =>
            if !pool.waitgroup then some (.returned (-1) [])
            else
              (loop pool stop chunkSize fuel 0 ⟨start, [], []⟩).map fun p => .returned 0 p.all

end Cobalt.Pool.ParallelFor
