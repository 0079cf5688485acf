/-
Cobalt.Sort.StableSort — the adaptive merge sort of `sort.c`.

`cobalt_stable_sort` finds the runs that are in the array already, keeps them
on a stack of 64 and merges neighbours. The stack is a value that is handed on;
an index into it that is not below 64 is a fault, as is an access outside of
the scratch buffer. With less than 25 elements, or without a scratch buffer,
the insertion sort does all of the work.
-/
import Cobalt.Sort.Qsort

namespace Cobalt.Sort

variable {σ α : Type} (env : Env σ α)

/-- `run_t`. -/
structure Run where
  start : Nat
  len : Nat
  deriving DecidableEq, Repr

/-! ## Reversing and merging -/

/-- The loop of `reverse_run`. -/
def reverseLoop (base : Nat) : Nat → Nat → Nat → M σ α Unit
  | 0, _, _ => Prog.fault .fuel
  | fuel + 1, left, right =>
      if left < right then do
        swapAt env (base + left) (base + right)
        reverseLoop base fuel (left + 1) (right - 1)
      else pure ()

/-- `reverse_run`. -/
def reverseRun (base len : Nat) : M σ α Unit :=
  if len ≤ 1 then pure () else reverseLoop env base len 0 (len - 1)

/-- The forward merge of the run in the scratch buffer and the one behind `a + aLen`. -/
def mergeForward (a aLen bLen : Nat) : Nat → Nat → Nat → Nat → M σ α Unit
  | 0, _, _, _ => Prog.fault .fuel
  | fuel + 1, i, j, dest =>
      if i < aLen ∧ j < bLen then do
        let x ← readScratch i
        let y ← read env (a + aLen + j)
        let r ← compare env x y
        if r ≤ 0 then do
          write env (a + dest) x
          mergeForward a aLen bLen fuel (i + 1) j (dest + 1)
        else do
          write env (a + dest) y
          mergeForward a aLen bLen fuel i (j + 1) (dest + 1)
      else if i < aLen then copyIn env (a + dest) i (aLen - i)
      else pure ()

/-- The backward merge of the run at `a` and the one in the scratch buffer. -/
def mergeBackward (a : Nat) : Nat → Nat → Nat → Nat → M σ α Unit
  | 0, _, _, _ => Prog.fault .fuel
  | fuel + 1, i, j, dest =>
      if 0 < i ∧ 0 < j then do
        let x ← read env (a + (i - 1))
        let y ← readScratch (j - 1)
        let r ← compare env x y
        if r > 0 then do
          write env (a + (dest - 1)) x
          mergeBackward a fuel (i - 1) j (dest - 1)
        else do
          write env (a + (dest - 1)) y
          mergeBackward a fuel i (j - 1) (dest - 1)
      else if 0 < j then copyIn env a 0 j
      else pure ()

/-- `merge_runs`: the shorter one of two neighbouring runs goes to the scratch buffer. -/
def mergeRuns (a aLen bLen : Nat) : M σ α Unit :=
  if aLen ≤ bLen then do
    copyOut env a aLen
    mergeForward env a aLen bLen (aLen + bLen + 1) 0 0 0
  else do
    copyOut env (a + aLen) bLen
    mergeBackward env a (aLen + bLen + 1) aLen bLen (aLen + bLen)

/-! ## Finding a run -/

/-- The run from `curr` on is made longer as long as the comparison of the neighbours goes on
like that. -/
def runLoop (goesOn : Int → Bool) (curr : Nat) : Nat → Nat → M σ α Nat
  | 0, _ => Prog.fault .fuel
  | fuel + 1, runLen =>
      if curr + runLen < env.nmemb then do
        let r ← compareAt env (curr + runLen - 1) (curr + runLen)
        if goesOn r then runLoop goesOn curr fuel (runLen + 1) else pure runLen
      else pure runLen

/-- The natural run at `curr`, reversed if it descends. -/
def naturalRun (curr : Nat) : M σ α Nat :=
  if curr + 1 < env.nmemb then do
    let r ← compareAt env curr (curr + 1)
    if r > 0 then do
      let runLen ← runLoop env (fun r => decide (r > 0)) curr env.nmemb 2
      reverseRun env curr runLen
      pure runLen
    else runLoop env (fun r => decide (r ≤ 0)) curr env.nmemb 2
  else pure 1

/-- `minrun`. -/
def minRun : Nat := 16

/-- A short run is extended. -/
def extendRun (curr runLen : Nat) : M σ α Nat :=
  if runLen < minRun ∧ curr + runLen < env.nmemb then do
    let forceLen := if env.nmemb - curr > minRun then minRun else env.nmemb - curr
    insertionSortImpl env curr forceLen
    pure forceLen
  else pure runLen

/-! ## The run stack -/

/-- `run_t stack[64]` and `stack_size`. -/
structure Stack where
  run : Nat → Run
  size : Nat

def stackMax : Nat := 64

def getRun (st : Stack) (i : Nat) : M σ α Run :=
  if i < stackMax then pure (st.run i) else Prog.fault .outside

def setRun (st : Stack) (i : Nat) (r : Run) : M σ α Stack :=
  if i < stackMax then pure { st with run := Function.update st.run i r } else Prog.fault .outside

/-- The two runs on top are merged. -/
def mergeTop (st : Stack) : M σ α Stack := do
  let n := st.size - 1
  let x ← getRun st (n - 1)
  let y ← getRun st n
  mergeRuns env x.start x.len y.len
  let st ← setRun st (n - 1) { x with len := x.len + y.len }
  pure { st with size := st.size - 1 }

/-- The two runs below the top are merged. -/
def mergeBelow (st : Stack) : M σ α Stack := do
  let n := st.size - 1
  let x ← getRun st (n - 2)
  let y ← getRun st (n - 1)
  mergeRuns env x.start x.len y.len
  let st ← setRun st (n - 2) { x with len := x.len + y.len }
  let z ← getRun st n
  let st ← setRun st (n - 1) z
  pure { st with size := st.size - 1 }

/-- A full stack makes room. -/
def makeRoom : Nat → Stack → M σ α Stack
  | 0, _ => Prog.fault .fuel
  | fuel + 1, st =>
      if st.size ≥ stackMax then do
        let st ← mergeTop env st
        makeRoom fuel st
      else pure st

def pushRun (st : Stack) (r : Run) : M σ α Stack :=
  if st.size < stackMax then do
    let st ← setRun st st.size r
    pure { st with size := st.size + 1 }
  else pure st

/-- What the balance of the stack asks for: nothing, or merging the runs on top or below it. -/
inductive Balance where
  | done
  | top
  | below
  deriving DecidableEq, Repr

/-- Are there three runs of which the lowest is not longer than the others together? Then it, or
the top run if this one is not longer, is merged with the middle one. -/
def balanceThree (st : Stack) : M σ α (Option Balance) :=
  if st.size ≥ 3 then do
    let x ← getRun st (st.size - 1 - 2)
    let y ← getRun st (st.size - 1 - 1)
    let z ← getRun st (st.size - 1)
    pure (if x.len ≤ y.len + z.len then some (if x.len < z.len then .below else .top) else none)
  else pure none

/-- Otherwise the two on top are compared. -/
def balanceTwo (st : Stack) : M σ α Balance := do
  let y ← getRun st (st.size - 1 - 1)
  let z ← getRun st (st.size - 1)
  pure (if y.len ≤ z.len then .top else .done)

def balanceOf (st : Stack) : M σ α Balance := do
  let three ← balanceThree st
  match three with
  | some balance => pure balance
  | none => balanceTwo st

/-- The merge balance. -/
def balance : Nat → Stack → M σ α Stack
  | 0, _ => Prog.fault .fuel
  | fuel + 1, st =>
      if st.size ≥ 2 then do
        let todo ← balanceOf st
        match todo with
        | .done => pure st
        | .top => do
            let st ← mergeTop env st
            balance fuel st
        | .below => do
            let st ← mergeBelow env st
            balance fuel st
      else pure st

/-- Is the run below the two on top shorter than the top one? -/
def mergesBelow (st : Stack) : M σ α Bool :=
  if st.size ≥ 3 then do
    let x ← getRun st (st.size - 1 - 2)
    let z ← getRun st (st.size - 1)
    pure (decide (x.len < z.len))
  else pure false

/-- All remaining runs are merged. -/
def unwind : Nat → Stack → M σ α Stack
  | 0, _ => Prog.fault .fuel
  | fuel + 1, st =>
      if st.size > 1 then do
        let below ← mergesBelow st
        if below then do
          let st ← mergeBelow env st
          unwind fuel st
        else do
          let st ← mergeTop env st
          unwind fuel st
      else pure st

/-! ## The sort -/

/-- One turn of the main loop: the stack and `curr` afterwards. -/
def nextRun (st : Stack) (curr : Nat) : M σ α (Stack × Nat) := do
  let natural ← naturalRun env curr
  let runLen ← extendRun env curr natural
  let st ← makeRoom env (stackMax + 1) st
  let st ← pushRun st ⟨curr, runLen⟩
  let st ← balance env (stackMax + 1) st
  pure (st, curr + runLen)

/-- The main loop. -/
def collectRuns : Nat → Stack → Nat → M σ α Stack
  | 0, _, _ => Prog.fault .fuel
  | fuel + 1, st, curr =>
      if curr < env.nmemb then do
        let (st, curr) ← nextRun env st curr
        collectRuns fuel st curr
      else pure st

/-- `max_run_len`. -/
def maxRunLen (nmemb : Nat) : Nat := nmemb / 2 + nmemb % 2

def setRoom (room : Nat) : M σ α Unit := fun s => .ok ((), { s with room := room })

/-- The runs are found and merged; the scratch buffer is there. The stack is empty at first, and
its entries are not initialised. -/
def sortRuns (entries : Nat → Run) : M σ α Unit := do
  setRoom (maxRunLen env.nmemb)
  let st ← collectRuns env (env.nmemb + 1) ⟨entries, 0⟩ 0
  let _ ← unwind env (stackMax + 1) st
  setRoom 0

/-- `adaptive_merge_sort` with the system's allocator. -/
def adaptiveMergeSort (entries : Nat → Run) : M σ α Unit :=
  if env.nmemb ≤ 24 then insertionSortImpl env 0 env.nmemb
  else do
    let granted ← malloc env
    if granted then sortRuns env entries else insertionSortImpl env 0 env.nmemb

/-- `cobalt_stable_sort`. -/
def stableSort (entries : Nat → Run) : M σ α Unit :=
  if env.nmemb ≤ 1 ∨ env.size = 0 then pure () else adaptiveMergeSort env entries

end Cobalt.Sort
