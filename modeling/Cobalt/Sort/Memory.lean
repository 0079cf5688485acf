/-
Cobalt.Sort.Memory — what the sorts of `sort.c` work on.

The array and the scratch buffer are accessed element by element or by
copying a range; an access outside of them is a fault, and so is a loop that
has used up its fuel. Elements are values: how many bytes one has only decides
whether its copy fits into a buffer on the stack.

The comparator and the allocator are the caller's. They have a state of their
own, so that a comparator may answer the same question differently each time,
and any allocation may fail.
-/
import Cobalt.Lib.Checked
import Cobalt.Lib.Slice

namespace Cobalt.Sort

inductive Fault where
  /-- An access outside of the array, of the scratch buffer or of the run stack. -/
  | outside
  | fuel
  deriving DecidableEq, Repr

/-- What a call is given: `nmemb` elements of `size` bytes, the comparator and `malloc`. -/
structure Env (σ α : Type) where
  nmemb : Nat
  size : Nat
  compar : σ → α → α → Int × σ
  malloc : σ → Bool × σ

/-- The array, the scratch buffer of `room` elements, and the state of the caller's functions. -/
structure Mem (σ α : Type) where
  arr : Nat → α
  scratch : Nat → α
  room : Nat
  user : σ

abbrev M (σ α β : Type) : Type := Prog Fault (Mem σ α) β

section

variable {σ α : Type} (env : Env σ α)

def read (i : Nat) : M σ α α := fun s =>
  if i < env.nmemb then .ok (s.arr i, s) else .error .outside

def write (i : Nat) (x : α) : M σ α Unit := fun s =>
  if i < env.nmemb then .ok ((), { s with arr := overwrite s.arr i [x] }) else .error .outside

/-- `cobalt_swap_bytes` on two elements. -/
def swapAt (i j : Nat) : M σ α Unit := fun s =>
  if i < env.nmemb ∧ j < env.nmemb then .ok ((), { s with arr := swap s.arr i j })
  else .error .outside

def compare (x y : α) : M σ α Int := fun s =>
  let (r, user) := env.compar s.user x y
  .ok (r, { s with user := user })

def malloc : M σ α Bool := fun s =>
  let (granted, user) := env.malloc s.user
  .ok (granted, { s with user := user })

/-- The comparison of two elements of the array. -/
def compareAt (i j : Nat) : M σ α Int := do
  let x ← read env i
  let y ← read env j
  compare env x y

/-- `memcpy` of the `n` elements from `b` on to the beginning of the scratch buffer. -/
def copyOut (b n : Nat) : M σ α Unit := fun s =>
  if b + n ≤ env.nmemb ∧ n ≤ s.room then
    .ok ((), { s with scratch := overwrite s.scratch 0 (slice s.arr b n) })
  else .error .outside

def readScratch (i : Nat) : M σ α α := fun s =>
  if i < s.room then .ok (s.scratch i, s) else .error .outside

/-- `memcpy` of `n` elements of the scratch buffer, from `i` on, to the array from `b` on. -/
def copyIn (b i n : Nat) : M σ α Unit := fun s =>
  if b + n ≤ env.nmemb ∧ i + n ≤ s.room then
    .ok ((), { s with arr := overwrite s.arr b (slice s.scratch i n) })
  else .error .outside

end

end Cobalt.Sort
