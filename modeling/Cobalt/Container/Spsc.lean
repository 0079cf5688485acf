/-
Cobalt.Container.Spsc — the ring of one producer and one consumer.

`cobalt_shm_spsc` of `shm_ring.c`. Messages are frames of a header and a
payload, aligned to 8 bytes, in a buffer of a power of two bytes. A frame
that does not fit before the end of the buffer starts at its beginning, and
a wrap marker is left in its place. The cursors count bytes since the
beginning. Producer and consumer run side by side; one step is one load or
store of a cursor, or the access to one header or payload byte.
-/
import Cobalt.Lib.Buffer
import Cobalt.Lib.Machine

namespace Cobalt.Container.Spsc

/-! ## Frames -/

/-- `cobalt_shm_frame_t`. -/
structure Frame where
  length : UInt32
  type : UInt16
  flags : UInt16
  deriving DecidableEq, Repr

/-- `sizeof(cobalt_shm_frame_t)`. -/
def frameHeader : Nat := 8

def frameNormal : UInt16 := 0x0000

def frameWrap : UInt16 := 0x0001

/-- `ALIGN_UP(x, COBALT_SHM_ALIGN)`: the last three bits are cleared. -/
def alignUp (x : Nat) : Nat := (x + 7) / 8 * 8

/-- The size of the frame of a payload of `len` bytes. -/
def frameSize (len : Nat) : Nat := alignUp (frameHeader + len)

/-- Byte `i` of a word, the lowest one first. -/
def byteOf (n i : Nat) : UInt8 := UInt8.ofNat (n / 256 ^ i)

/-- A header in memory. -/
def Frame.bytes (f : Frame) : List UInt8 :=
  [byteOf f.length.toNat 0, byteOf f.length.toNat 1, byteOf f.length.toNat 2,
    byteOf f.length.toNat 3, byteOf f.type.toNat 0, byteOf f.type.toNat 1,
    byteOf f.flags.toNat 0, byteOf f.flags.toNat 1]

/-- The header at an offset. -/
def Frame.at (b : Buffer) (off : Nat) : Frame where
  length := UInt32.ofNat ((b off).toNat + 256 * (b (off + 1)).toNat
    + 65536 * (b (off + 2)).toNat + 16777216 * (b (off + 3)).toNat)
  type := UInt16.ofNat ((b (off + 4)).toNat + 256 * (b (off + 5)).toNat)
  flags := UInt16.ofNat ((b (off + 6)).toNat + 256 * (b (off + 7)).toNat)

/-! ## The producer's arithmetic -/

/-- `capacity - sizeof(cobalt_shm_frame_t)`, a difference of 64 bit words. -/
def largestFrame (capacity : Nat) : Nat := (capacity + 2 ^ 64 - frameHeader) % 2 ^ 64

/-- The argument checks of `cobalt_shm_spsc_reserve` on a length. -/
def lengthOk (capacity len : Nat) : Bool :=
  decide (len ≤ 2 ^ 32 - 1 - frameHeader) && decide (frameSize len ≤ largestFrame capacity)

/-- `pos & mask`. -/
def offsetOf (capacity pos : Nat) : Nat := pos &&& (capacity - 1)

/-- The space check: is the frame too long for what is free? -/
def tooLong (capacity pos readPos size : Nat) : Bool :=
  decide (pos - readPos > capacity) || decide (capacity - (pos - readPos) < size)

/-- Where a frame of `size` bytes is reserved, and whether a wrap marker is
written at the write position; `none` is `COBALT_ERROR_QUEUE_FULL`. -/
def reserveAt (capacity writePos readPos size : Nat) : Option (Nat × Bool) :=
  let offset := offsetOf capacity writePos
  let tailSpace := capacity - offset
  if tailSpace < size then
    let wrappedWritePos := writePos + tailSpace
    -- the source makes the same check again after it has written the marker
    if tooLong capacity wrappedWritePos readPos size then none
    else some (wrappedWritePos, decide (tailSpace ≥ frameHeader))
  else if tooLong capacity writePos readPos size then none
  else some (writePos, false)

/-! ## The machine -/

/-- A message as it was committed, or as the consumer has read it. -/
structure Msg where
  type : UInt16
  payload : List UInt8
  deriving DecidableEq, Repr

/-- What a call has returned. -/
inductive Rc where
  | none
  | success
  | full
  | empty
  | invalidArgument
  | general
  deriving DecidableEq, Repr

/-- Where the producer is; each phase but `idle` is named after its next
access. -/
inductive ProducerPc where
  | idle (rc : Rc)
  | loadWrite (len : Nat)
  | loadRead (len writePos : Nat)
  | mark (len writePos pos : Nat)
  | header (type : UInt16) (len : Nat)
  | publish (type : UInt16) (len : Nat)
  deriving DecidableEq, Repr

/-- The fields of the handle that the producer uses. -/
structure Producer where
  pc : ProducerPc
  isReserved : Bool
  reservedLen : Nat
  reservedWritePos : Nat

/-- Where the consumer is. -/
inductive ConsumerPc where
  | idle (rc : Rc)
  | loadRead (wraps : Nat)
  | loadWrite (wraps readPos : Nat)
  | frame (wraps readPos writePos : Nat)
  | skip (wraps readPos : Nat)
  | consumeLoad
  | consumeStore (readPos : Nat)
  deriving DecidableEq, Repr

/-- The fields of the handle that the consumer uses, and what `peek` has
handed out: the type, the place and the length of the payload. -/
structure Consumer where
  pc : ConsumerPc
  isPeeked : Bool
  peekedFrameLen : Nat
  outType : UInt16
  outPtr : Nat
  outLen : Nat

structure State where
  buffer : Buffer
  writeCursor : Nat
  readCursor : Nat
  producer : Producer
  consumer : Consumer
  /-- History: the messages committed so far. -/
  committed : List Msg
  /-- History: the messages consumed so far, as their bytes stood when they
  were consumed. -/
  received : List Msg

def start (buffer : Buffer) : State where
  buffer := buffer
  writeCursor := 0
  readCursor := 0
  producer := ⟨.idle .none, false, 0, 0⟩
  consumer := ⟨.idle .none, false, 0, 0, 0, 0⟩
  committed := []
  received := []

/-- The calls of the producer, a store of one byte of the reserved payload,
and its next access inside a call; the same for the consumer. -/
inductive Act where
  | reserve (len : Nat)
  | fill (i : Nat) (byte : UInt8)
  | commit (type : UInt16) (len : Nat)
  | cancel
  | produce
  | peek
  | consume
  | take
  deriving DecidableEq, Repr

variable (capacity : Nat)

namespace State

abbrev producerAt (s : State) (pc : ProducerPc) : State :=
  { s with producer := { s.producer with pc := pc } }

abbrev consumerAt (s : State) (pc : ConsumerPc) : State :=
  { s with consumer := { s.consumer with pc := pc } }

/-- The end of a successful reserve. -/
abbrev reserved (s : State) (len pos : Nat) : State :=
  { s with producer := ⟨.idle .success, true, len, pos⟩ }

end State

/-- Calls of the producer from outside. -/
def callProducer (s : State) : Act → Option State
  | .reserve len =>
      if s.producer.isReserved then some (s.producerAt (.idle .invalidArgument))
      else if lengthOk capacity len then some (s.producerAt (.loadWrite len))
      else some (s.producerAt (.idle .invalidArgument))
  | .fill i byte =>
      if s.producer.isReserved ∧ i < s.producer.reservedLen then
        let ptr := offsetOf capacity s.producer.reservedWritePos + frameHeader
        some { s with buffer := s.buffer.write (ptr + i) [byte] }
      else none
  | .commit type len =>
      if !s.producer.isReserved || decide (len > s.producer.reservedLen) then
        some (s.producerAt (.idle .invalidArgument))
      else some (s.producerAt (.header type len))
  | .cancel =>
      if !s.producer.isReserved then some (s.producerAt (.idle .invalidArgument))
      else some { s with producer := { s.producer with pc := .idle .success, isReserved := false } }
  | _ => none

/-- One access of the producer inside a call. -/
def stepProducer (s : State) : Option State :=
  match s.producer.pc with
  | .idle _ => none
  | .loadWrite len => some (s.producerAt (.loadRead len s.writeCursor))
  | .loadRead len writePos =>
      match reserveAt capacity writePos s.readCursor (frameSize len) with
      | none => some (s.producerAt (.idle .full))
      | some (pos, true) => some (s.producerAt (.mark len writePos pos))
      | some (pos, false) => some (s.reserved len pos)
  | .mark len writePos pos =>
      let offset := offsetOf capacity writePos
      let wrap : Frame := ⟨UInt32.ofNat (capacity - offset - frameHeader), 0, frameWrap⟩
      some { s.reserved len pos with buffer := s.buffer.write offset wrap.bytes }
  | .header type len =>
      let frame : Frame := ⟨UInt32.ofNat len, type, frameNormal⟩
      let offset := offsetOf capacity s.producer.reservedWritePos
      some { s.producerAt (.publish type len) with buffer := s.buffer.write offset frame.bytes }
  | .publish type len =>
      let pos := s.producer.reservedWritePos
      let payload := s.buffer.read (offsetOf capacity pos + frameHeader) len
      some { s with
        producer := { s.producer with pc := .idle .success, isReserved := false }
        writeCursor := pos + frameSize len
        committed := s.committed ++ [⟨type, payload⟩] }

/-- Calls of the consumer from outside. -/
def callConsumer (s : State) : Act → Option State
  | .peek => some (s.consumerAt (.loadRead 0))
  | .consume =>
      if s.consumer.isPeeked then some (s.consumerAt .consumeLoad)
      else some (s.consumerAt (.idle .invalidArgument))
  | _ => none

/-- The look at the frame at the read position. -/
def lookAtFrame (s : State) (wraps readPos writePos : Nat) : State :=
  let offset := offsetOf capacity readPos
  let frame := Frame.at s.buffer offset
  if frame.flags &&& frameWrap ≠ 0 then
    if offset = 0 ∨ wraps + 1 > 1 then s.consumerAt (.idle .general)
    else s.consumerAt (.skip (wraps + 1) readPos)
  else
    let size := frameSize frame.length.toNat
    if size > writePos - readPos ∨ offset + size > capacity then s.consumerAt (.idle .general)
    else
      { s with consumer :=
          ⟨.idle .success, true, size, frame.type, offset + frameHeader, frame.length.toNat⟩ }

/-- One access of the consumer inside a call. -/
def stepConsumer (s : State) : Option State :=
  match s.consumer.pc with
  | .idle _ => none
  | .loadRead wraps => some (s.consumerAt (.loadWrite wraps s.readCursor))
  | .loadWrite wraps readPos =>
      if readPos = s.writeCursor then some (s.consumerAt (.idle .empty))
      else if readPos > s.writeCursor then some (s.consumerAt (.idle .general))
      else some (s.consumerAt (.frame wraps readPos s.writeCursor))
  | .frame wraps readPos writePos => some (lookAtFrame capacity s wraps readPos writePos)
  | .skip wraps readPos =>
      some { s.consumerAt (.loadRead wraps) with
        readCursor := readPos + (capacity - offsetOf capacity readPos) }
  | .consumeLoad => some (s.consumerAt (.consumeStore s.readCursor))
  | .consumeStore readPos =>
      let c := s.consumer
      some { s with
        consumer := { c with pc := .idle .success, isPeeked := false }
        readCursor := readPos + c.peekedFrameLen
        received := s.received ++ [⟨c.outType, s.buffer.read c.outPtr c.outLen⟩] }

/-- One step of the producer or of the consumer. Calls are made one after
the other on each side. -/
def step (s : State) (a : Act) : Option State :=
  match a with
  | .produce => stepProducer capacity s
  | .take => stepConsumer capacity s
  | .peek | .consume =>
      match s.consumer.pc with
      | .idle _ => callConsumer s a
      | _ => none
  | .reserve _ | .fill _ _ | .commit _ _ | .cancel =>
      match s.producer.pc with
      | .idle _ => callProducer capacity s a
      | _ => none

/-- The capacities of a ring: powers of two that are 64 bit words. -/
structure Capacity where
  log : Nat
  log_lt : log < 64

def Capacity.size (c : Capacity) : Nat := 2 ^ c.log

/-- The ring under its producer and its consumer, with any bytes in the
buffer at the beginning. -/
def machine (c : Capacity) : Machine State Act := ⟨fun s => ∃ buffer, s = start buffer, step c.size⟩

end Cobalt.Container.Spsc
