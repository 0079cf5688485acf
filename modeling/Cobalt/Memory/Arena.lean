/-
Cobalt.Memory.Arena — the chunked bump allocator of arena.c.

The chain of chunks is kept as the chunks in front of the current one, the
current one and the chunks behind it; an arena has at least one chunk, so
`current` is never null. A chunk is a header and its data; `bytes` is the size
that the backing allocator was asked for. The outcome of a chunk allocation,
the address or a failure, is an argument of the call. `live` lists the blocks
returned since the last reset, for the statements; no operation reads it.
-/
import Cobalt.Lib.Region

namespace Cobalt.Memory.Arena

/-- `alignof(max_align_t)`. -/
def align : Nat := 16

/-- `sizeof(arena_chunk_t)`: three words, padded to the alignment of the data. -/
def headerSize : Nat := 32

/-- `COBALT_ARENA_MIN_CHUNK_SIZE`. -/
def minChunkSize : Nat := 4096

/-- `(n + alignof(max_align_t) - 1) & ~(alignof(max_align_t) - 1)`, in 64 bits. -/
def roundUp (n : Nat) : Nat := (n + (align - 1)) % 2 ^ 64 / align * align

/-- `arena_chunk_t`, with its address and the size it was allocated with. -/
structure Chunk where
  base : Nat
  bytes : Nat
  capacity : Nat
  used : Nat
  deriving DecidableEq, Repr

namespace Chunk

/-- The address of `chunk->data`. -/
def data (c : Chunk) : Nat := c.base + headerSize

/-- The memory that the allocator has handed out for the chunk. -/
def memory (c : Chunk) : Region := ⟨c.base, c.bytes⟩

/-- The chunk with `n` more bytes in use. -/
def take (c : Chunk) (n : Nat) : Chunk := { c with used := c.used + n }

/-- The chunk with nothing in use. -/
def clear (c : Chunk) : Chunk := { c with used := 0 }

/-- The payload that the chunk claims to have. -/
def payload (c : Chunk) : Region := ⟨c.data, c.capacity⟩

end Chunk

/-- A block that `cobalt_arena_alloc` has returned, and the chunk it is from. -/
structure Blk where
  chunk : Nat
  addr : Nat
  size : Nat
  deriving DecidableEq, Repr

def Blk.region (b : Blk) : Region := ⟨b.addr, b.size⟩

/-- `struct cobalt_arena`. -/
structure State where
  /-- the chunks in front of the current one, the nearest first -/
  before : List Chunk
  current : Chunk
  after : List Chunk
  defaultChunkSize : Nat
  totalAllocated : Nat
  live : List Blk
  deriving DecidableEq, Repr

/-- The chunks, from the head of the chain on. -/
def State.chunks (a : State) : List Chunk := a.before.reverse ++ a.current :: a.after

/-- What is asked of the backing allocator for a chunk of this capacity. -/
def chunkBytes (capacity : Nat) : Nat := (headerSize + capacity) % 2 ^ 64

/-- The capacity of the first chunk. -/
def firstCap (initialSize : Nat) : Nat :=
  roundUp (if initialSize > 0 then initialSize else minChunkSize)

/-- `cobalt_arena_create_with_allocator`. -/
def create (initialSize : Nat) (structOk : Bool) (chunkAt : Option Nat) : Option State :=
  if structOk then
    match chunkAt with
    | some addr =>
      let cap := firstCap initialSize
      some ⟨[], ⟨addr, chunkBytes cap, cap, 0⟩, [], cap, cap, []⟩
    | none => none
  else none

/-- The next block of a chunk. -/
def carve (a : State) (c : Chunk) (size n : Nat) : State × Option Nat :=
  let ptr := c.data + c.used
  ({ a with
    current := c.take n
    live := ⟨c.base, ptr, size⟩ :: a.live }, some ptr)

/-- The capacity of a new chunk. -/
def newCap (a : State) (n : Nat) : Nat :=
  roundUp (if n > a.defaultChunkSize then n else a.defaultChunkSize)

/-- The slow path of `cobalt_arena_alloc`: a new chunk behind the current one. -/
def allocChunk (a : State) (size n : Nat) : Option Nat → State × Option Nat
  | none => (a, none)
  | some addr =>
    let cap := newCap a n
    carve { a with
      before := a.current :: a.before
      totalAllocated := (a.totalAllocated + cap) % 2 ^ 64 } ⟨addr, chunkBytes cap, cap, 0⟩ size n

/-- `cobalt_arena_alloc`; `chunkAt` is the outcome of the chunk allocation, if
there is one. -/
def alloc (a : State) (size : Nat) (chunkAt : Option Nat) : State × Option Nat :=
  if size = 0 then (a, none)
  else
    let n := roundUp size
    if a.current.capacity - a.current.used ≥ n then carve a a.current size n
    else match a.after with
      | next :: rest =>
        -- whether something of the next chunk is used is not looked at
        if next.capacity ≥ n then
          carve { a with before := a.current :: a.before, after := rest } next size n
        else allocChunk a size n chunkAt
      | [] => allocChunk a size n chunkAt

/-- `cobalt_arena_reset`. -/
def reset (a : State) : State :=
  match a.before.reverse with
  | [] => { a with current := a.current.clear, after := a.after.map Chunk.clear, live := [] }
  | c :: cs =>
    { a with
      before := []
      current := c.clear
      after := (cs ++ a.current :: a.after).map Chunk.clear
      live := [] }

inductive Call where
  | alloc (size : Nat) (chunkAt : Option Nat)
  | reset
  deriving DecidableEq, Repr

def step (a : State) : Call → State
  | .alloc size chunkAt => (alloc a size chunkAt).1
  | .reset => reset a

end Cobalt.Memory.Arena
