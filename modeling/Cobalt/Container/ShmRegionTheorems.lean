/-
Cobalt.Container.ShmRegionTheorems — what a faulty peer can make the readers read.

A peek masks the read cursor and reads the eight bytes of a header there
before it checks anything: they lie inside the buffer exactly if the offset
leaves room for them, which no attach check ensures. What it hands out is
inside always. A pop copies as many bytes as the slot says, up to the size
of the caller's buffer: they are the slot's own exactly if that many bytes
lie between the slot's header and its end.
-/
import Cobalt.Container.ShmRegion

namespace Cobalt.Container.ShmRegion

open Spsc (Frame Rc Capacity frameHeader frameWrap frameSize)

variable {shmAddr totalSize : UInt64} {r : Region} {spsc : ShmSpsc} {mpmc : ShmMpmc}

/-! ## What the attach checks give -/

lemma exists_two_pow {n : Nat} (hn : n ≠ 0) (h : n &&& (n - 1) = 0) : ∃ k, n = 2 ^ k := by
  refine ⟨n.log2, ?_⟩
  have hle := Nat.log2_self_le hn
  have hlt : n < 2 ^ (n.log2 + 1) := Nat.lt_log2_self
  by_contra hne
  -- otherwise the highest bit is one of the predecessor too
  have hbit : n.testBit n.log2 = true := Nat.testBit_of_two_pow_le_and_two_pow_add_one_gt hle hlt
  have hbit' : (n - 1).testBit n.log2 = true :=
    Nat.testBit_of_two_pow_le_and_two_pow_add_one_gt (by omega) (by omega)
  have hand := Nat.testBit_and n (n - 1) n.log2
  rw [h, hbit, hbit'] at hand
  simp at hand

/-- The capacity and the mask of a handle. -/
structure Masked (capacity mask : UInt64) : Prop where
  pow : ∃ k < 64, capacity.toNat = 2 ^ k
  mask : mask.toNat = capacity.toNat - 1

variable {capacity mask : UInt64}

lemma Masked.of_check (h0 : capacity ≠ 0) (h : isPowerOfTwo capacity) :
    Masked capacity (capacity - 1) := by
  have hpos : capacity.toNat ≠ 0 := fun h => h0 (UInt64.toNat_inj.mp h)
  have hone : (1 : UInt64) ≤ capacity := UInt64.le_iff_toNat_le.mpr (by
    rw [UInt64.toNat_one]
    omega)
  have hmask : (capacity - 1).toNat = capacity.toNat - 1 := UInt64.toNat_sub_of_le _ _ hone
  refine ⟨?_, hmask⟩
  have hand : capacity &&& (capacity - 1) = 0 := by simpa [isPowerOfTwo] using h
  have hand' := congrArg UInt64.toNat hand
  rw [UInt64.toNat_and, hmask] at hand'
  obtain ⟨k, hk⟩ := exists_two_pow hpos hand'
  refine ⟨k, ?_, hk⟩
  have hlt := capacity.toNat_lt
  rw [hk] at hlt
  exact (Nat.pow_lt_pow_iff_right (by decide)).mp hlt

lemma Masked.and_eq (h : Masked capacity mask) (pos : UInt64) :
    (pos &&& mask).toNat = pos.toNat % capacity.toNat := by
  obtain ⟨k, -, hk⟩ := h.pow
  rw [UInt64.toNat_and, h.mask, hk, Nat.and_two_pow_sub_one_eq_mod]

lemma Masked.pos (h : Masked capacity mask) : 0 < capacity.toNat := by
  obtain ⟨k, -, hk⟩ := h.pow
  rw [hk]
  exact Nat.two_pow_pos k

/-- The position behind the end of the buffer has offset 0, even if the cursor
passes the end of its range there. -/
lemma Masked.wrapped (h : Masked capacity mask) (pos : UInt64) :
    ((pos + (capacity - UInt64.ofNat (pos &&& mask).toNat)) &&& mask).toNat = 0 := by
  obtain ⟨k, hk, hcap⟩ := h.pow
  have hoff := Nat.mod_lt pos.toNat h.pos
  have hle : UInt64.ofNat (pos &&& mask).toNat ≤ capacity := by
    rw [UInt64.ofNat_toNat, UInt64.le_iff_toNat_le, h.and_eq]
    omega
  rw [h.and_eq, UInt64.toNat_add, UInt64.toNat_sub_of_le _ _ hle, UInt64.ofNat_toNat, h.and_eq, hcap,
    Nat.mod_mod_of_dvd _ (Nat.pow_dvd_pow 2 hk.le)]
  exact Spsc.wrapped_mod (Nat.two_pow_pos k)

lemma masked_of_spscAttach (h : spscAttach shmAddr totalSize r.header = some spsc) :
    Masked spsc.capacity spsc.mask := by
  unfold spscAttach at h
  split at h
  · cases h
  · split at h
    · cases h
    · rename_i hcap
      split at h
      · cases h
      · cases h
        simp only [Bool.or_eq_true, beq_iff_eq, Bool.not_eq_true', not_or, Bool.not_eq_false] at hcap
        exact .of_check hcap.1 hcap.2

lemma masked_of_mpmcAttach (h : mpmcAttach shmAddr totalSize r.header = some mpmc) :
    Masked mpmc.capacity mpmc.mask ∧ slotHeader ≤ mpmc.slotStride := by
  unfold mpmcAttach at h
  split at h
  · cases h
  · split at h
    · cases h
    · rename_i hcap
      dsimp only at h
      split at h
      · cases h
      · split at h
        · cases h
        · cases h
          simp only [Bool.or_eq_true, decide_eq_true_eq, beq_iff_eq, Bool.not_eq_true', not_or,
            Bool.not_eq_false] at hcap
          have h0 : r.header.capacity ≠ 0 := by
            intro h0
            rw [h0] at hcap
            exact hcap.1.1 (by decide)
          refine ⟨.of_check h0 hcap.1.2, ?_⟩
          change 16 ≤ (16 + r.header.slotSize.toNat + 63) / 64 * 64
          omega

/-! ## Peeking -/

/-- The headers are read inside the buffer, and the result is an error or a
slice inside it. -/
structure PeekInside (spsc : ShmSpsc) (p : Peek) : Prop where
  headers : ∀ off ∈ p.headers, off + frameHeader ≤ spsc.capacity.toNat
  slice : p.rc ≠ .success ∨ ∃ s, p.slice = some s ∧ s.ptr + s.len ≤ spsc.capacity.toNat

/-- There is nothing to read, or room for a header at the read cursor. -/
def HeaderFits (spsc : ShmSpsc) (r : Region) : Prop :=
  r.header.writeCursor ≤ r.header.readCursor ∨
    (r.header.readCursor &&& spsc.mask).toNat + frameHeader ≤ spsc.capacity.toNat

lemma frame_inside {offset unread : Nat} (frame : Frame) (readPos : UInt64)
    (hfits : offset + frameHeader ≤ spsc.capacity.toNat) :
    PeekInside spsc
      (if frameSize frame.length.toNat > unread ∨
          offset + frameSize frame.length.toNat > spsc.capacity.toNat then
        ⟨.general, none, [offset], readPos⟩
      else
        ⟨.success, some ⟨frame.type, offset + frameHeader, frame.length.toNat⟩, [offset],
          readPos⟩) := by
  have hsize := Spsc.le_frameSize frame.length.toNat
  split
  · exact ⟨by simpa using hfits, .inl nofun⟩
  · rename_i hcheck
    refine ⟨by simpa using hfits, .inr ⟨_, rfl, ?_⟩⟩
    dsimp only
    omega

lemma peekLoop_inside (h : Masked spsc.capacity spsc.mask) (b : Buffer) (writePos : UInt64)
    (wraps : Nat) (readPos : UInt64)
    (hfits : (readPos &&& spsc.mask).toNat + frameHeader ≤ spsc.capacity.toNat) :
    PeekInside spsc (peekLoop spsc b writePos wraps readPos) := by
  induction wraps generalizing readPos with
  | zero =>
    unfold peekLoop
    dsimp only
    split
    · exact ⟨by simp, .inl nofun⟩
    · split
      · exact ⟨by simp, .inl nofun⟩
      · split
        · exact ⟨by simpa using hfits, .inl nofun⟩
        · exact frame_inside _ _ hfits
  | succ wraps ih =>
    unfold peekLoop
    dsimp only
    split
    · exact ⟨by simp, .inl nofun⟩
    · split
      · exact ⟨by simp, .inl nofun⟩
      · split
        · split
          · exact ⟨by simpa using hfits, .inl nofun⟩
          · -- the next header is the one at the beginning of the buffer
            obtain ⟨hheaders, hslice⟩ := ih
              (readPos + (spsc.capacity - UInt64.ofNat (readPos &&& spsc.mask).toNat))
              (by rw [h.wrapped]; omega)
            refine ⟨?_, hslice⟩
            intro off hoff
            rcases List.mem_cons.mp hoff with rfl | hoff
            · exact hfits
            · exact hheaders off hoff
        · exact frame_inside _ _ hfits

lemma mem_headers (b : Buffer) {writePos readPos : UInt64} (wraps : Nat)
    (hlt : readPos < writePos) :
    (readPos &&& spsc.mask).toNat ∈ (peekLoop spsc b writePos wraps readPos).headers := by
  have hne : readPos ≠ writePos := UInt64.ne_of_lt hlt
  have hle : ¬ readPos > writePos := UInt64.not_lt.mpr (UInt64.le_of_lt hlt)
  unfold peekLoop
  rw [if_neg hne, if_neg hle]
  cases wraps with
  | zero =>
    dsimp only
    split
    · simp
    · split <;> simp
  | succ wraps =>
    dsimp only
    split
    · split <;> simp [Peek.reading]
    · split <;> simp

lemma spscPeek_inside_iff (h : Masked spsc.capacity spsc.mask) (r : Region) :
    PeekInside spsc (spscPeek spsc r) ↔ HeaderFits spsc r := by
  constructor
  · intro hin
    by_cases hle : r.header.writeCursor ≤ r.header.readCursor
    · exact .inl hle
    · exact .inr (hin.headers _ (mem_headers r.bytes 1 (UInt64.not_le.mp hle)))
  · intro hfits
    rcases hfits with hle | hfits
    · unfold spscPeek peekLoop
      split
      · exact ⟨by simp, .inl nofun⟩
      · rename_i hne
        have hgt : r.header.readCursor > r.header.writeCursor :=
          UInt64.lt_of_le_of_ne hle (Ne.symm hne)
        rw [if_pos hgt]
        exact ⟨by simp, .inl nofun⟩
    · exact peekLoop_inside h r.bytes r.header.writeCursor 1 r.header.readCursor hfits

/-! ## Popping -/

/-- What is copied belongs to the slot that was claimed, which is one of the
slots of the ring. -/
def PopInside (mpmc : ShmMpmc) : Pop → Prop
  | .copied slot source count =>
      slot ≤ source ∧ source + count ≤ slot + mpmc.slotStride ∧
        slot + mpmc.slotStride ≤ mpmc.capacity.toNat * mpmc.slotStride
  | .empty | .spin => True

/-- No slot is claimed, or its length or the caller's buffer is no longer than
the bytes behind its header. -/
def LengthFits (mpmc : ShmMpmc) (r : Region) (bufSize : Nat) : Prop :=
  let slot := mpmc.slot r.header.readCursor
  word64 r.bytes slot ≠ r.header.readCursor + 1 ∨
    (word32 r.bytes (slot + 8)).toNat ≤ mpmc.slotStride - slotHeader ∨
    bufSize ≤ mpmc.slotStride - slotHeader

lemma slot_le (h : Masked mpmc.capacity mpmc.mask) (pos : UInt64) :
    mpmc.slot pos + mpmc.slotStride ≤ mpmc.capacity.toNat * mpmc.slotStride := by
  have hlt : (pos &&& mpmc.mask).toNat < mpmc.capacity.toNat := by
    rw [h.and_eq]
    exact Nat.mod_lt _ h.pos
  calc mpmc.slot pos + mpmc.slotStride = ((pos &&& mpmc.mask).toNat + 1) * mpmc.slotStride := by
        rw [ShmMpmc.slot, add_mul, one_mul]
    _ ≤ mpmc.capacity.toNat * mpmc.slotStride := Nat.mul_le_mul_right _ hlt

lemma mpmcPop_inside_iff (h : Masked mpmc.capacity mpmc.mask)
    (hstride : slotHeader ≤ mpmc.slotStride) (r : Region) (bufSize : Nat) :
    PopInside mpmc (mpmcPop mpmc r bufSize) ↔ LengthFits mpmc r bufSize := by
  have hslot := slot_le h r.header.readCursor
  unfold mpmcPop LengthFits
  dsimp only
  by_cases hseq : word64 r.bytes (mpmc.slot r.header.readCursor) = r.header.readCursor + 1
  · rw [if_pos hseq]
    simp only [PopInside, hseq, ne_eq, not_true_eq_false, false_or]
    split <;> omega
  · rw [if_neg hseq]
    simp only [ne_eq, hseq, not_false_eq_true, true_or, iff_true]
    split <;> trivial

/-! ## Every region -/

/-- For every region that passes the attach checks, a peek stays inside the
ring exactly if there is room for a header at the read cursor, and a pop
copies bytes of its slot only exactly if the length that stands there, or the
caller's buffer, is short enough. -/
theorem region_reads_iff (shmAddr totalSize : UInt64) (r : Region) :
    (∀ spsc, spscAttach shmAddr totalSize r.header = some spsc →
      (PeekInside spsc (spscPeek spsc r) ↔ HeaderFits spsc r)) ∧
    ∀ mpmc bufSize, mpmcAttach shmAddr totalSize r.header = some mpmc →
      (PopInside mpmc (mpmcPop mpmc r bufSize) ↔ LengthFits mpmc r bufSize) := by
  refine ⟨fun _ h => ?_, fun _ bufSize h => ?_⟩
  · exact spscPeek_inside_iff (masked_of_spscAttach h) r
  · obtain ⟨hmask, hstride⟩ := masked_of_mpmcAttach h
    exact mpmcPop_inside_iff hmask hstride r bufSize

/-- A region of one ring of 16 bytes, with these cursors, and zeros behind the
header. -/
def small (readCursor writeCursor : UInt64) : Region :=
  ⟨⟨shmMagic, shmVersion, modeSpsc, 16, 0, writeCursor, readCursor⟩, fun _ => 0⟩

/-- A region of two slots of 64 bytes, the first one of which holds a message of
`len` bytes. -/
def slots (len : UInt8) : Region :=
  ⟨⟨shmMagic, shmVersion, modeMpmc, 2, 48, 1, 0⟩,
    fun i => if i = 0 then 1 else if i = 8 then len else 0⟩

/-- Regions that no peer has damaged. -/
theorem region_reads_sound : PeekInside ⟨16, 15⟩ (spscPeek ⟨16, 15⟩ (small 0 8)) ∧
    PopInside ⟨2, 1, 64⟩ (mpmcPop ⟨2, 1, 64⟩ (slots 48) 100) :=
  ⟨((region_reads_iff 64 336 (small 0 8)).1 ⟨16, 15⟩ rfl).mpr (.inr (by decide)),
    ((region_reads_iff 64 448 (slots 48)).2 ⟨2, 1, 64⟩ 100 rfl).mpr (.inr (.inl (by decide)))⟩

/-- With the read cursor at 12 a peek reads the bytes 12 to 19 of a ring of 16.
A slot of 64 bytes that claims 100 makes a pop copy bytes of the next one. -/
theorem region_reads_astray :
    (¬ ∀ shmAddr totalSize r spsc, spscAttach shmAddr totalSize r.header = some spsc →
      PeekInside spsc (spscPeek spsc r)) ∧
    ¬ ∀ shmAddr totalSize r mpmc bufSize, mpmcAttach shmAddr totalSize r.header = some mpmc →
      PopInside mpmc (mpmcPop mpmc r bufSize) := by
  constructor
  · intro hall
    have hin := hall 64 336 (small 12 16) ⟨16, 15⟩ rfl
    have hbound : 12 + frameHeader ≤ 16 := hin.headers 12 (by decide)
    exact absurd hbound (by decide)
  · intro hall
    have hin := hall 64 448 (slots 100) ⟨2, 1, 64⟩ 100 rfl
    have hpop : mpmcPop ⟨2, 1, 64⟩ (slots 100) 100 = .copied 0 16 100 := by decide
    rw [hpop] at hin
    exact absurd hin.2.1 (by decide)

end Cobalt.Container.ShmRegion
