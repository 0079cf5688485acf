/-
Cobalt.Sort.Qsort — the pattern-defeating quicksort of `sort.c`.

`cobalt_qsort`, `cobalt_heapsort` and the insertion sort. The functions of the
source get a pointer to the first element of a part of the array; here this is
the index `base`, and the other indices count from there. The loop of
`pdqsort_loop` is a call of the function with the part that is left.
-/
import Cobalt.Sort.Memory

namespace Cobalt.Sort

variable {σ α : Type} (env : Env σ α)

/-! ## Heapsort -/

/-- The larger one of the children of `root`. -/
def largerChild (base root count : Nat) : M σ α Nat :=
  let child := root * 2 + 1
  if child + 1 < count then do
    let r ← compareAt env (base + (child + 1)) (base + child)
    pure (if r > 0 then child + 1 else child)
  else pure child

/-- `heapsort_sift_down`. -/
def siftDown (base count : Nat) : Nat → Nat → M σ α Unit
  | 0, _ => Prog.fault .fuel
  | fuel + 1, root =>
      if root < count / 2 then do
        let child ← largerChild env base root count
        let r ← compareAt env (base + child) (base + root)
        if r > 0 then do
          swapAt env (base + root) (base + child)
          siftDown base count fuel child
        else pure ()
      else pure ()

/-- The first loop of `cobalt_heapsort_impl`, over the roots below `i`. -/
def heapify (base nmemb : Nat) : Nat → M σ α Unit
  | 0 => pure ()
  | i + 1 => do
      siftDown env base nmemb (nmemb + 1) i
      heapify base nmemb i

/-- The second loop of `cobalt_heapsort_impl`, from `i` down to 1. -/
def extract (base : Nat) : Nat → M σ α Unit
  | 0 => pure ()
  | i + 1 => do
      swapAt env base (base + (i + 1))
      siftDown env base (i + 1) (i + 2) 0
      extract base i

/-- `cobalt_heapsort_impl`. -/
def heapsortImpl (base nmemb : Nat) : M σ α Unit :=
  if nmemb ≤ 1 then pure ()
  else do
    heapify env base nmemb (nmemb / 2)
    extract env base (nmemb - 1)

/-- `cobalt_heapsort`. -/
def heapsort : M σ α Unit :=
  if env.nmemb ≤ 1 ∨ env.size = 0 then pure () else heapsortImpl env 0 env.nmemb

/-! ## Insertion sort -/

/-- `sizeof(stack_buf)`. -/
def stackBuf : Nat := 128

/-- Is there a buffer for a copy of one element? -/
def keyBuffer : M σ α Bool := if env.size ≤ stackBuf then pure true else malloc env

/-- The inner loop: greater elements are moved up by one. The result is the place that is free
then. -/
def shift (base : Nat) (key : α) : Nat → M σ α Nat
  | 0 => pure 0
  | j + 1 => do
      let x ← read env (base + j)
      let r ← compare env x key
      if r > 0 then do
        write env (base + (j + 1)) x
        shift base key j
      else pure (j + 1)

/-- One turn of the outer loop. -/
def insertOne (base i : Nat) : M σ α Unit := do
  let key ← read env (base + i)
  let j ← shift env base key i
  if j ≠ i then write env (base + j) key else pure ()

/-- The outer loop, with `k` turns to go. -/
def insertFrom (base : Nat) : Nat → Nat → M σ α Unit
  | 0, _ => pure ()
  | k + 1, i => do
      insertOne env base i
      insertFrom base k (i + 1)

/-- `insertion_sort_impl` with the system's allocator. -/
def insertionSortImpl (base nmemb : Nat) : M σ α Unit :=
  if nmemb ≤ 1 ∨ env.size = 0 then pure ()
  else do
    let key ← keyBuffer env
    if key then insertFrom env base (nmemb - 1) 1 else pure ()

/-! ## Quicksort -/

def pdqLog2Loop : Nat → Nat → Nat → Nat
  | 0, _, log => log
  | fuel + 1, n, log => if n >>> 1 ≠ 0 then pdqLog2Loop fuel (n >>> 1) (log + 1) else log

/-- `pdq_log2` of a 64 bit word. -/
def pdqLog2 (n : Nat) : Nat := pdqLog2Loop 64 n 0

/-- `pdq_median3`; the indices count from `base`. -/
def pdqMedian3 (base a b c : Nat) : M σ α Nat := do
  let ab ← compareAt env (base + a) (base + b)
  if ab < 0 then do
    let bc ← compareAt env (base + b) (base + c)
    if bc < 0 then pure b
    else do
      let ac ← compareAt env (base + a) (base + c)
      pure (if ac < 0 then c else a)
  else do
    let ac ← compareAt env (base + a) (base + c)
    if ac < 0 then pure a
    else do
      let bc ← compareAt env (base + b) (base + c)
      pure (if bc < 0 then c else b)

/-- `pdq_ninther`. -/
def pdqNinther (base nmemb : Nat) : M σ α Nat := do
  let s := nmemb / 8
  let mid := nmemb / 2
  let m1 ← pdqMedian3 env base 0 s (2 * s)
  let m2 ← pdqMedian3 env base (mid - s) mid (mid + s)
  let m3 ← pdqMedian3 env base (nmemb - 1 - 2 * s) (nmemb - 1 - s) (nmemb - 1)
  pdqMedian3 env base m1 m2 m3

/-- The choice of the pivot. -/
def pivotIndex (base nmemb : Nat) : M σ α Nat :=
  if nmemb > 128 then pdqNinther env base nmemb
  else pdqMedian3 env base 0 (nmemb / 2) (nmemb - 1)

/-- The pivot is brought to the front. -/
def pivotToFront (base nmemb : Nat) : M σ α Unit := do
  let pivot ← pivotIndex env base nmemb
  if pivot ≠ 0 then swapAt env base (base + pivot) else pure ()

/-- The partition: smaller elements before `lt`, greater ones behind `gt`, and the pivot's equals
between them. The result is `lt` and `gt`. -/
def partitionLoop (base : Nat) : Nat → Nat → Nat → Nat → M σ α (Nat × Nat)
  | 0, _, _, _ => Prog.fault .fuel
  | fuel + 1, lt, i, gt =>
      if i ≤ gt then do
        let cmp ← compareAt env (base + i) (base + lt)
        if cmp < 0 then do
          swapAt env (base + lt) (base + i)
          partitionLoop base fuel (lt + 1) (i + 1) gt
        else if cmp > 0 then do
          swapAt env (base + i) (base + gt)
          partitionLoop base fuel lt i (gt - 1)
        else partitionLoop base fuel lt (i + 1) gt
      else pure (lt, gt)

/-- A part with less than two elements is not sorted. -/
def sortIf (nmemb : Nat) (sort : M σ α Unit) : M σ α Unit := if nmemb > 1 then sort else pure ()

/-- `pdqsort_loop`. -/
def pdqsortLoop : Nat → Nat → Nat → Int → M σ α Unit
  | 0, _, _, _ => Prog.fault .fuel
  | fuel + 1, base, nmemb, badAllowed =>
      if nmemb ≤ 24 then insertionSortImpl env base nmemb
      else if badAllowed ≤ 0 then heapsortImpl env base nmemb
      else do
        pivotToFront env base nmemb
        let (lt, gt) ← partitionLoop env base nmemb 0 1 (nmemb - 1)
        let leftSize := lt
        let rightSize := nmemb - (gt + 1)
        let bad := if leftSize < nmemb / 8 ∨ rightSize < nmemb / 8 then badAllowed - 1 else badAllowed
        if leftSize < rightSize then do
          sortIf leftSize (pdqsortLoop fuel base leftSize bad)
          pdqsortLoop fuel (base + (gt + 1)) rightSize bad
        else do
          sortIf rightSize (pdqsortLoop fuel (base + (gt + 1)) rightSize bad)
          pdqsortLoop fuel base leftSize bad

/-- `cobalt_qsort`. -/
def qsort : M σ α Unit :=
  if env.nmemb ≤ 1 ∨ env.size = 0 then pure ()
  else pdqsortLoop env (env.nmemb + 1) 0 env.nmemb (2 * pdqLog2 env.nmemb)

end Cobalt.Sort
