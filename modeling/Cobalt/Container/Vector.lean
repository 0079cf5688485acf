/-
Cobalt.Container.Vector — the dynamic array of vector.c.

`items` is the pointer to the storage, null or a block of cells. The outcome
of every allocation is an argument of the call that makes it. Accesses to the
storage that C leaves undefined end a call with a fault.
-/
import Cobalt.Lib.Block

namespace Cobalt.Container.Vector

open Block (Fault)

variable {α : Type}

/-- `SIZE_MAX / sizeof(void *)`. -/
def maxCap : Nat := (2 ^ 64 - 1) / 8

/-- `cobalt_vector_impl_t`, without the method table and the allocator. -/
structure Vec (α : Type) where
  items : Option (Block α)
  capacity : Nat
  size : Nat
  deriving DecidableEq, Repr

/-- The storage behind `items`. -/
def Vec.storage (v : Vec α) : Block α := v.items.getD []

/-- The storage, for an access through `items`. -/
def Vec.deref (v : Vec α) : Except Fault (Block α) :=
  match v.items with
  | some b => .ok b
  | none => .error .null

/-- A call, with the outcome of the allocation it may make. -/
inductive Call (α : Type) where
  | push (item : α) (grown : Bool)
  | set (index : Nat) (item : α)
  | get (index : Nat)
  | removeAt (index : Nat)
  | reserve (n : Nat) (grown : Bool)
  | shrinkToFit (allocated : Bool)
  deriving DecidableEq, Repr

inductive Answer (α : Type) where
  /-- an `int` -/
  | code (c : Int)
  /-- the null pointer that get returns for an index outside the vector -/
  | null
  /-- the cell that get has read -/
  | item (cell : Option α)
  | void
  deriving DecidableEq, Repr

/-- `cobalt_vector_create_with_allocator`; the allocation of the array is not
checked. -/
def create (initialCapacity : Nat) (structOk itemsOk : Bool) : Option (Vec α) :=
  if structOk then
    if initialCapacity > maxCap then none
    else
      let items := if initialCapacity > 0 ∧ itemsOk then some (Block.fresh initialCapacity)
        else none
      some ⟨items, initialCapacity, 0⟩
  else none

/-- The capacity that `vector_push_internal` asks for when the vector is full. -/
def newCap (capacity : Nat) : Nat :=
  if capacity = 0 then 1
  else if capacity > maxCap / 2 then maxCap
  else capacity * 2

/-- `realloc` of the array succeeds. -/
def Vec.realloc (v : Vec α) (n : Nat) : Vec α :=
  { v with items := some (v.storage.resize n), capacity := n }

/-- `vec->items[index] = item`. -/
def Vec.store (v : Vec α) (index : Nat) (item : α) : Except Fault (Vec α) := do
  let b ← v.deref
  let b' ← b.write index [some item]
  .ok { v with items := some b' }

/-- `vec->items[vec->size++] = item`. -/
def Vec.append (v : Vec α) (item : α) : Except Fault (Vec α) := do
  let v' ← v.store v.size item
  .ok { v' with size := v.size + 1 }

/-- `vector_push_internal`. -/
def push (v : Vec α) (item : α) (grown : Bool) : Except Fault (Vec α × Answer α) :=
  if v.size ≥ v.capacity then
    if grown then do
      let v' ← (v.realloc (newCap v.capacity)).append item
      .ok (v', .code 0)
    else .ok (v, .code (-1))
  else do
    let v' ← v.append item
    .ok (v', .code 0)

/-- `cobalt_vector_set`. -/
def set (v : Vec α) (index : Nat) (item : α) : Except Fault (Vec α × Answer α) :=
  if index ≥ v.size then .ok (v, .code (-1))
  else do
    let v' ← v.store index item
    .ok (v', .code 0)

/-- `cobalt_vector_get`. -/
def get (v : Vec α) (index : Nat) : Except Fault (Vec α × Answer α) :=
  if index ≥ v.size then .ok (v, .null)
  else do
    let b ← v.deref
    let cells ← b.read index 1
    .ok (v, .item cells.head?.join)

/-- `cobalt_vector_remove_at`. -/
def removeAt (v : Vec α) (index : Nat) : Except Fault (Vec α × Answer α) :=
  if index ≥ v.size then .ok (v, .void)
  else do
    let b ← v.deref
    let b' ← b.move index (index + 1) (v.size - index - 1)
    .ok ({ v with items := some b', size := v.size - 1 }, .void)

/-- `cobalt_vector_reserve`. -/
def reserve (v : Vec α) (n : Nat) (grown : Bool) : Vec α × Answer α :=
  if v.capacity ≥ n then (v, .code 0)
  else if n > maxCap then (v, .code (-1))
  else if grown then (v.realloc n, .code 0)
  else (v, .code (-1))

/-- `cobalt_vector_shrink_to_fit`. -/
def shrinkToFit (v : Vec α) (allocated : Bool) : Except Fault (Vec α × Answer α) :=
  if v.capacity ≤ v.size then .ok (v, .code 0)
  else if v.size = 0 then .ok ({ v with items := none, capacity := 0 }, .code 0)
  else if allocated then
    match v.items with
    | some b => do
      let cells ← b.read 0 v.size
      let b' ← (Block.fresh v.size).write 0 cells
      .ok ({ v with items := some b', capacity := v.size }, .code 0)
    | none => .ok ({ v with items := some (Block.fresh v.size), capacity := v.size }, .code 0)
  else .ok (v, .code (-1))

def step (v : Vec α) : Call α → Except Fault (Vec α × Answer α)
  | .push item grown => push v item grown
  | .set index item => set v index item
  | .get index => get v index
  | .removeAt index => removeAt v index
  | .reserve n grown => .ok (reserve v n grown)
  | .shrinkToFit allocated => shrinkToFit v allocated

end Cobalt.Container.Vector
