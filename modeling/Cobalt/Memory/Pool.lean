/-
Cobalt.Memory.Pool — the fixed-block pool of pool.c.

A pool is a region of blocks of one size. The free blocks are chained through
their own first bytes, so the list of free blocks lives in the memory that the
pool hands out. A slab keeps several such regions, and a class of a slab has the
fields of a pool; `Blocks` is both of them. `live` lists the blocks that are
handed out, for the statements; no operation reads it. A client may write to
the blocks that it holds.
-/
import Cobalt.Lib.ByteMem

namespace Cobalt.Memory

/-- The fields that `struct cobalt_pool` and `cobalt_slab_class_t` have. -/
structure Blocks where
  blockSize : Nat
  blockCount : Nat
  freeCount : Nat
  memory : Nat
  freeList : Nat
  live : List Nat
  deriving DecidableEq, Repr

/-- `sizeof(void *)`. -/
def ptrSize : Nat := 8

namespace Blocks

/-- The address of block `i`. -/
def addr (c : Blocks) (i : Nat) : Nat := c.memory + i * c.blockSize

/-- The addresses of all blocks. -/
def addrs (c : Blocks) : List Nat := (List.range c.blockCount).map c.addr

/-- The memory of the blocks. -/
def region (c : Blocks) : Region := ⟨c.memory, c.blockSize * c.blockCount⟩

/-- The block at an address. -/
def block (c : Blocks) (a : Nat) : Region := ⟨a, c.blockSize⟩

/-- The size that blocks are made of: a free block has to hold a pointer. -/
def sizeFor (size : Nat) : Nat := if size < ptrSize then ptrSize else size

/-- Blocks at `memory`, all of them free. -/
def unused (size count memory : Nat) : Blocks := ⟨size, count, count, memory, memory, []⟩

/-- Chains the blocks: each one points to the next, the last one to null. -/
def link (c : Blocks) (m : ByteMem) : ByteMem :=
  let m := (List.range (c.blockCount - 1)).foldl (fun m i => m.storePtr (c.addr i) (c.addr (i + 1))) m
  m.storePtr (c.addr (c.blockCount - 1)) 0

/-- The blocks without the first free one, which is handed out. -/
def pop (c : Blocks) (m : ByteMem) : Blocks :=
  ⟨c.blockSize, c.blockCount, c.freeCount - 1, c.memory, m.loadPtr c.freeList, c.freeList :: c.live⟩

/-- The blocks with `ptr` as the first free one. -/
def push (c : Blocks) (ptr : Nat) : Blocks :=
  ⟨c.blockSize, c.blockCount, c.freeCount + 1, c.memory, ptr, c.live.erase ptr⟩

/-- `(uintptr_t)ptr - (uintptr_t)base`. -/
def offset (c : Blocks) (ptr : Nat) : Nat := (ptr + (2 ^ 64 - c.memory)) % 2 ^ 64

/-- The two tests that a pointer has to pass to be freed. -/
def owns (c : Blocks) (ptr : Nat) : Bool :=
  decide (c.offset ptr < c.blockSize * c.blockCount % 2 ^ 64) && c.offset ptr % c.blockSize == 0

end Blocks

namespace Pool

/-- A pool and the memory. -/
structure State where
  mem : ByteMem
  pool : Blocks

/-- `cobalt_pool_create_with_allocator`, where the allocator returns `memory`. -/
def create (mem : ByteMem) (blockSize blockCount memory : Nat) : Option State :=
  if blockSize = 0 ∨ blockCount = 0 then
    none
  else
    let pool := Blocks.unused (Blocks.sizeFor blockSize) blockCount memory
    some ⟨pool.link mem, pool⟩

/-- `cobalt_pool_alloc`; the null pointer is 0. -/
def alloc (s : State) : Nat × State :=
  if s.pool.freeCount = 0 then
    (0, s)
  else
    (s.pool.freeList, ⟨s.mem.clear s.pool.freeList s.pool.blockSize, s.pool.pop s.mem⟩)

/-- `cobalt_pool_free`. -/
def free (s : State) (ptr : Nat) : State :=
  if ptr = 0 then
    s
  else if s.pool.owns ptr then
    ⟨s.mem.storePtr ptr s.pool.freeList, s.pool.push ptr⟩
  else
    s

/-- What a client does: it calls the pool, or it writes to a byte. -/
inductive Call where
  | alloc
  | free (ptr : Nat)
  | write (a : Nat) (x : UInt8)
  deriving DecidableEq, Repr

/-- The state after a call. -/
def step (s : State) : Call → State
  | .alloc => (alloc s).2
  | .free ptr => free s ptr
  | .write a x => ⟨Function.update s.mem a x, s.pool⟩

end Pool

end Cobalt.Memory
