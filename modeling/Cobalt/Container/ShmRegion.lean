/-
Cobalt.Container.ShmRegion — reading a region that a faulty peer has written.

`cobalt_shm_spsc_attach` with `cobalt_shm_spsc_peek`, and
`cobalt_shm_mpmc_attach` with `cobalt_shm_mpmc_pop` (`shm_ring.c`), on a
region whose bytes are arbitrary. The two attach functions check the magic
number, the version, the mode and the sizes. Cursors, frame headers, slot
sequences and slot lengths are taken as they stand. Words are 64 bits wide.

The models say which bytes behind the region header are read: the frame
headers of a peek, and what a pop copies. A pop that is ahead of a slot
reads the same cursor again until someone moves it, which `spin` stands for.
-/
import Cobalt.Container.SpscTheorems

namespace Cobalt.Container.ShmRegion

open Spsc (Frame Rc Capacity frameHeader frameWrap frameSize)

/-! ## The region -/

/-- The fields of `cobalt_shm_header_t` that are read here. -/
structure Header where
  magic : UInt64
  version : UInt32
  mode : UInt32
  capacity : UInt64
  slotSize : UInt32
  writeCursor : UInt64
  readCursor : UInt64

/-- The header, and the bytes behind it. -/
structure Region where
  header : Header
  bytes : Buffer

/-- `sizeof(cobalt_shm_header_t)`: five cache lines. -/
def headerSize : Nat := 320

/-- `COBALT_SHM_MAGIC`. -/
def shmMagic : UInt64 := 0x434F425F53484D31

/-- `COBALT_SHM_VERSION`. -/
def shmVersion : UInt32 := 1

/-- `COBALT_SHM_MODE_SPSC`. -/
def modeSpsc : UInt32 := 1

/-- `COBALT_SHM_MODE_MPMC`. -/
def modeMpmc : UInt32 := 2

/-- `(capacity & (capacity - 1)) != 0`, negated. -/
def isPowerOfTwo (capacity : UInt64) : Bool := capacity &&& (capacity - 1) == 0

/-- The checks that both attach functions make first. -/
def headerOk (shmAddr totalSize : UInt64) (hdr : Header) (mode : UInt32) : Bool :=
  shmAddr != 0 && decide (headerSize ≤ totalSize.toNat) && shmAddr % 64 == 0 &&
    hdr.magic == shmMagic && hdr.version == shmVersion && hdr.mode == mode

/-! ## One producer, one consumer -/

/-- The fields of `cobalt_shm_spsc` that peek uses. -/
structure ShmSpsc where
  capacity : UInt64
  mask : UInt64

/-- `cobalt_shm_spsc_attach`; `none` is `COBALT_ERROR_INVALID_ARGUMENT`. -/
def spscAttach (shmAddr totalSize : UInt64) (hdr : Header) : Option ShmSpsc :=
  if !headerOk shmAddr totalSize hdr modeSpsc then none
  else if hdr.capacity == 0 || !isPowerOfTwo hdr.capacity then none
  else if totalSize < UInt64.ofNat headerSize + hdr.capacity then none
  else some ⟨hdr.capacity, hdr.capacity - 1⟩

/-- What a peek hands out: the type, the place and the length of a payload. -/
structure Slice where
  type : UInt16
  ptr : Nat
  len : Nat
  deriving DecidableEq, Repr

/-- The outcome of a peek, with the offsets of the headers it has read and the
read cursor it leaves. -/
structure Peek where
  rc : Rc
  slice : Option Slice
  headers : List Nat
  readCursor : UInt64
  deriving DecidableEq, Repr

/-- The outcome that follows the read of one more header. -/
def Peek.reading (offset : Nat) (p : Peek) : Peek := { p with headers := offset :: p.headers }

/-- The loop of `cobalt_shm_spsc_peek`, with the wrap markers it may still
skip. -/
def peekLoop (spsc : ShmSpsc) (b : Buffer) (writePos : UInt64) : Nat → UInt64 → Peek
  | wraps, readPos =>
      if readPos = writePos then ⟨.empty, none, [], readPos⟩
      else if readPos > writePos then ⟨.general, none, [], readPos⟩
      else
        let offset := (readPos &&& spsc.mask).toNat
        let frame := Frame.at b offset
        if frame.flags &&& frameWrap ≠ 0 then
          match wraps with
          | 0 => ⟨.general, none, [offset], readPos⟩
          | wraps + 1 =>
              if offset = 0 then ⟨.general, none, [offset], readPos⟩
              else
                let tailSpace := spsc.capacity - UInt64.ofNat offset
                (peekLoop spsc b writePos wraps (readPos + tailSpace)).reading offset
        else
          let unread := writePos - readPos
          let size := frameSize frame.length.toNat
          if size > unread.toNat ∨ offset + size > spsc.capacity.toNat then
            ⟨.general, none, [offset], readPos⟩
          else
            ⟨.success, some ⟨frame.type, offset + frameHeader, frame.length.toNat⟩, [offset], readPos⟩

/-- `cobalt_shm_spsc_peek`: one marker is skipped at most. -/
def spscPeek (spsc : ShmSpsc) (r : Region) : Peek :=
  peekLoop spsc r.bytes r.header.writeCursor 1 r.header.readCursor

/-! ## Many producers, many consumers -/

/-- `sizeof(cobalt_shm_mpmc_slot_t)`. -/
def slotHeader : Nat := 16

/-- `ALIGN_UP(sizeof(cobalt_shm_mpmc_slot_t) + slot_size, 64)`. -/
def strideOf (slotSize : Nat) : Nat := (slotHeader + slotSize + 63) / 64 * 64

/-- The fields of `cobalt_shm_mpmc` that pop uses. -/
structure ShmMpmc where
  capacity : UInt64
  mask : UInt64
  slotStride : Nat

/-- `cobalt_shm_mpmc_attach`; `none` is `COBALT_ERROR_INVALID_ARGUMENT`. -/
def mpmcAttach (shmAddr totalSize : UInt64) (hdr : Header) : Option ShmMpmc :=
  if !headerOk shmAddr totalSize hdr modeMpmc then none
  else if decide (hdr.capacity < 2) || !isPowerOfTwo hdr.capacity || hdr.slotSize == 0 then none
  else
    let slotStride := strideOf hdr.slotSize.toNat
    if slotStride = 0 ∨ hdr.capacity.toNat > (2 ^ 64 - 1 - headerSize) / slotStride then none
    else if totalSize.toNat < headerSize + hdr.capacity.toNat * slotStride then none
    else some ⟨hdr.capacity, hdr.capacity - 1, slotStride⟩

/-- The 64 bit word at an offset. -/
def word64 (b : Buffer) (off : Nat) : UInt64 :=
  UInt64.ofNat (((List.range 8).map fun i => (b (off + i)).toNat * 256 ^ i).sum)

/-- The 32 bit word at an offset. -/
def word32 (b : Buffer) (off : Nat) : UInt32 :=
  UInt32.ofNat (((List.range 4).map fun i => (b (off + i)).toNat * 256 ^ i).sum)

/-- What a pop comes to: nothing to take, a cursor behind its slot, or a slot
claimed and `count` bytes copied from `source`. -/
inductive Pop where
  | empty
  | spin
  | copied (slot source count : Nat)
  deriving DecidableEq, Repr

/-- The slot at a position. -/
def ShmMpmc.slot (mpmc : ShmMpmc) (pos : UInt64) : Nat := (pos &&& mpmc.mask).toNat * mpmc.slotStride

/-- `cobalt_shm_mpmc_pop` into a buffer of `bufSize` bytes. -/
def mpmcPop (mpmc : ShmMpmc) (r : Region) (bufSize : Nat) : Pop :=
  let pos := r.header.readCursor
  let slot := mpmc.slot pos
  let seq := word64 r.bytes slot
  if seq = pos + 1 then
    let actual := (word32 r.bytes (slot + 8)).toNat
    .copied slot (slot + slotHeader) (if actual < bufSize then actual else bufSize)
  else if (seq - (pos + 1)).toInt64 < 0 then .empty
  else .spin

end Cobalt.Container.ShmRegion
