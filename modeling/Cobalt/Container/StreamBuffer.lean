/-
Cobalt.Container.StreamBuffer — the contiguous stream buffer of buffer.c.

The readable bytes are the ones between `readPos` and `writePos`; the space in
front of `readPos` is for `prepend`. Positions and lengths are `size_t`; their
sums wrap where the source does not guard them. The outcome of an allocation
is an argument of the call that makes it.
-/
import Cobalt.Lib.Block

namespace Cobalt.Container.StreamBuffer

open Block (Fault)

/-- `SIZE_MAX`. -/
def sizeMax : Nat := 2 ^ 64 - 1

/-- `COBALT_BUFFER_DEFAULT_INITIAL_CAPACITY`. -/
def defaultInitialCapacity : Nat := 1024

/-- `COBALT_BUFFER_DEFAULT_PREPEND_SIZE`. -/
def defaultPrependSize : Nat := 8

/-- `struct cobalt_buffer`; the allocator is there as whether it has a `realloc`. -/
structure Buf where
  data : Block UInt8
  capacity : Nat
  readPos : Nat
  writePos : Nat
  prependSize : Nat
  hasRealloc : Bool
  deriving DecidableEq, Repr

inductive Call where
  | append (data : List UInt8) (grown : Bool)
  | prepend (data : List UInt8)
  | read (len : Nat)
  | retrieve (len : Nat)
  | retrieveAll
  | ensureWritable (len : Nat) (grown : Bool)
  deriving DecidableEq, Repr

inductive Answer where
  | code (c : Int)
  /-- read has copied these bytes and returned 0 -/
  | bytes (cells : List (Option UInt8))
  | void
  deriving DecidableEq, Repr

/-- `initial_capacity` and `prepend_size` with their defaults. -/
def orDefault (n default : Nat) : Nat := if n = 0 then default else n

/-- `cobalt_buffer_create_with_alloc`. -/
def create (initialCapacity prependSize : Nat) (hasRealloc structOk dataOk : Bool) : Option Buf :=
  let initialCapacity := orDefault initialCapacity defaultInitialCapacity
  let prependSize := orDefault prependSize defaultPrependSize
  if structOk ∧ dataOk then
    let totalCap := (initialCapacity + prependSize) % 2 ^ 64
    some ⟨Block.fresh totalCap, totalCap, prependSize, prependSize, prependSize, hasRealloc⟩
  else none

namespace Buf

/-- `cobalt_buffer_readable_bytes`. -/
def readable (b : Buf) : Nat := b.writePos - b.readPos

/-- `cobalt_buffer_writable_bytes`. -/
def writable (b : Buf) : Nat := b.capacity - b.writePos

end Buf

/-- `cobalt_buffer_retrieve_all`. -/
def retrieveAll (b : Buf) : Buf := { b with readPos := b.prependSize, writePos := b.prependSize }

/-- `cobalt_buffer_retrieve`. -/
def retrieve (b : Buf) (len : Nat) : Buf × Int :=
  if len > b.readable then (b, -1)
  else if len < b.readable then ({ b with readPos := b.readPos + len }, 0)
  else (retrieveAll b, 0)

/-- `cobalt_buffer_read`. -/
def read (b : Buf) (len : Nat) : Except Fault (Buf × Answer) :=
  if len > b.readable then .ok (b, .code (-1))
  else do
    let cells ← b.data.read b.readPos len
    .ok ((retrieve b len).1, .bytes cells)

/-- Twice the capacity, or `SIZE_MAX`. -/
def doubled (capacity : Nat) : Nat :=
  if capacity > sizeMax / 2 then sizeMax else capacity * 2

/-- The capacity that `cobalt_buffer_ensure_writable` asks for. -/
def newCap (b : Buf) (len : Nat) : Nat :=
  -- this sum is not guarded
  let needed := (b.writePos + len) % 2 ^ 64
  if doubled b.capacity < needed then
    if needed > sizeMax - b.capacity then sizeMax else needed + b.capacity
  else doubled b.capacity

/-- The new data block: `realloc`, or `alloc` and `memcpy` where there is none. -/
def grow (b : Buf) (newCap : Nat) : Except Fault (Block UInt8) :=
  if b.hasRealloc then .ok (b.data.resize newCap)
  else do
    let cells ← b.data.read 0 b.capacity
    (Block.fresh newCap).write 0 cells

/-- `cobalt_buffer_ensure_writable`. -/
def ensureWritable (b : Buf) (len : Nat) (grown : Bool) : Except Fault (Buf × Int) :=
  if b.writable ≥ len then .ok (b, 0)
  else
    let readable := b.readable
    let discardable := if b.readPos > b.prependSize then b.readPos - b.prependSize else 0
    if discardable + b.writable ≥ len then do
      let data ← b.data.move b.prependSize b.readPos readable
      .ok ({ b with
        data := data
        readPos := b.prependSize
        writePos := b.prependSize + readable }, 0)
    else if grown then do
      let data ← grow b (newCap b len)
      .ok ({ b with data := data, capacity := newCap b len }, 0)
    else .ok (b, -1)

/-- `cobalt_buffer_append`. -/
def append (b : Buf) (data : List UInt8) (grown : Bool) : Except Fault (Buf × Answer) :=
  if data.length = 0 then .ok (b, .code 0)
  else do
    let (b', c) ← ensureWritable b data.length grown
    if c ≠ 0 then .ok (b', .code (-1))
    else
      let block ← b'.data.write b'.writePos (data.map some)
      .ok ({ b' with data := block, writePos := (b'.writePos + data.length) % 2 ^ 64 }, .code 0)

/-- `cobalt_buffer_prepend`. -/
def prepend (b : Buf) (data : List UInt8) : Except Fault (Buf × Answer) :=
  if data.length = 0 then .ok (b, .code 0)
  else if data.length > b.readPos then .ok (b, .code (-1))
  else do
    let block ← b.data.write (b.readPos - data.length) (data.map some)
    .ok ({ b with data := block, readPos := b.readPos - data.length }, .code 0)

/-- `sizeof(stack_buf)` in `cobalt_buffer_read_fd`. -/
def stackSize : Nat := 65536

/-- The bytes that the `readv` of `cobalt_buffer_read_fd` asks for. -/
def iovSpace (b : Buf) : Nat :=
  if b.writable < stackSize then b.writable + stackSize else b.writable

/-- What `cobalt_buffer_read_fd` does with the bytes that `readv` has delivered: they fill the
end of the block, and those left over are in the stack buffer. -/
def scatter (b : Buf) (bytes : List UInt8) (grown : Bool) : Except Fault (Buf × Int) := do
  let data ← b.data.write b.writePos ((bytes.take b.writable).map some)
  if bytes.length ≤ b.writable then
    .ok ({ b with data := data, writePos := b.writePos + bytes.length }, bytes.length)
  else
    let (b', a) ← append { b with data := data, writePos := b.capacity }
      (bytes.drop b.writable) grown
    if a ≠ .code 0 then .ok (b', -1) else .ok (b', bytes.length)

/-- `cobalt_buffer_read_fd`. The descriptor has the bytes of `ready` to give, or `readv` fails. -/
def readFd (b : Buf) (ready : Option (List UInt8)) (grown : Bool) : Except Fault (Buf × Int) :=
  match ready with
  | none => .ok (b, -1)
  | some ready => scatter b (ready.take (iovSpace b)) grown

def step (b : Buf) : Call → Except Fault (Buf × Answer)
  | .append data grown => append b data grown
  | .prepend data => prepend b data
  | .read len => read b len
  | .retrieve len => let (b', c) := retrieve b len; .ok (b', .code c)
  | .retrieveAll => .ok (retrieveAll b, .void)
  | .ensureWritable len grown => do
    let (b', c) ← ensureWritable b len grown
    .ok (b', .code c)

end Cobalt.Container.StreamBuffer
