/-
Cobalt.Container.SpscLayout — what stands between the cursors.

The bytes from the read cursor to the write cursor are frames and wrap
markers, each marker before a frame at the beginning of the buffer.
`Layout` reads off the messages, and depends on no byte outside. The
producer writes after the write cursor and less than one capacity after
the read cursor.
-/
import Cobalt.Container.Spsc

namespace Cobalt.Container.Spsc

variable {n r w w' : Nat} {b b' : Buffer} {m : Msg} {ms ms' : List Msg}

/-! ## Headers -/

lemma byteOf_toNat (x i : Nat) : (byteOf x i).toNat = x / 256 ^ i % 256 := by
  simp [byteOf]

lemma Frame.at_write (b : Buffer) (off : Nat) (f : Frame) :
    Frame.at (b.write off f.bytes) off = f := by
  have hbyte : ∀ i < 8, b.write off f.bytes (off + i) = f.bytes[i]?.getD 0 := by
    intro i hi
    have hlen : i < f.bytes.length := hi
    simp [Buffer.write, List.getElem?_eq_getElem hlen]
  have h0 := hbyte 0 (by omega)
  have hlength := f.length.toNat_lt
  have htype := f.type.toNat_lt
  have hflags := f.flags.toNat_lt
  obtain ⟨length, type, flags⟩ := f
  rw [add_zero] at h0
  simp only [Frame.at, h0, hbyte 1 (by omega), hbyte 2 (by omega), hbyte 3 (by omega),
    hbyte 4 (by omega), hbyte 5 (by omega), hbyte 6 (by omega), hbyte 7 (by omega)]
  simp only [Frame.bytes, List.getElem?_cons_zero, List.getElem?_cons_succ, Option.getD_some,
    byteOf_toNat, Frame.mk.injEq] at *
  refine ⟨?_, ?_, ?_⟩
  · apply UInt32.toNat_inj.mp
    rw [UInt32.toNat_ofNat']
    omega
  · apply UInt16.toNat_inj.mp
    rw [UInt16.toNat_ofNat']
    omega
  · apply UInt16.toNat_inj.mp
    rw [UInt16.toNat_ofNat']
    omega

lemma Frame.at_congr {off : Nat} (h : ∀ j < 8, b' (off + j) = b (off + j)) :
    Frame.at b' off = Frame.at b off := by
  have h0 := h 0 (by omega)
  rw [add_zero] at h0
  simp only [Frame.at, h0, h 1 (by omega), h 2 (by omega), h 3 (by omega), h 4 (by omega),
    h 5 (by omega), h 6 (by omega), h 7 (by omega)]

lemma le_frameSize (len : Nat) : frameHeader + len ≤ frameSize len := by
  unfold frameSize alignUp frameHeader
  omega

lemma dvd_frameSize (len : Nat) : 8 ∣ frameSize len := Nat.dvd_mul_left 8 _

lemma frameSize_mono {len len' : Nat} (h : len ≤ len') : frameSize len ≤ frameSize len' := by
  unfold frameSize alignUp
  omega

/-! ## Frames and markers -/

/-- The frame of a message stands at position `r`. -/
structure FrameAt (n : Nat) (b : Buffer) (r : Nat) (m : Msg) : Prop where
  fits : r % n + frameSize m.payload.length ≤ n
  short : m.payload.length < 2 ^ 32
  header : Frame.at b (r % n) = ⟨UInt32.ofNat m.payload.length, m.type, frameNormal⟩
  payload : b.read (r % n + frameHeader) m.payload.length = m.payload

/-- A wrap marker stands at position `r`. -/
structure WrapAt (n : Nat) (b : Buffer) (r : Nat) : Prop where
  inside : r % n ≠ 0
  room : frameHeader ≤ n - r % n
  header : (Frame.at b (r % n)).flags = frameWrap

/-- The bytes from position `r` to position `w` are the frames of `ms`. -/
inductive Layout (n : Nat) (b : Buffer) : Nat → List Msg → Nat → Prop where
  | nil (r : Nat) : Layout n b r [] r
  | frame {r w : Nat} {m : Msg} {ms : List Msg} (h : FrameAt n b r m)
      (rest : Layout n b (r + frameSize m.payload.length) ms w) : Layout n b r (m :: ms) w
  | wrap {r w : Nat} {m : Msg} {ms : List Msg} (h : WrapAt n b r)
      (hframe : FrameAt n b (r + (n - r % n)) m)
      (rest : Layout n b (r + (n - r % n) + frameSize m.payload.length) ms w) :
      Layout n b r (m :: ms) w

lemma offset_eq {j : Nat} (size : Nat) (hj : j < size) (hfits : r % n + size ≤ n) :
    r % n + j = (r + j) % n := (add_mod_of_fits (by omega)).symm

lemma FrameAt.congr (h : FrameAt n b r m)
    (hb : ∀ p, r ≤ p → p < r + frameSize m.payload.length → b' (p % n) = b (p % n)) :
    FrameAt n b' r m := by
  have hsize := le_frameSize m.payload.length
  have hbytes : ∀ j < frameSize m.payload.length, b' (r % n + j) = b (r % n + j) := by
    intro j hj
    rw [offset_eq _ hj h.fits]
    exact hb _ (by omega) (by omega)
  unfold frameHeader at hsize
  refine ⟨h.fits, h.short, ?_, ?_⟩
  · rw [Frame.at_congr fun j hj => hbytes j (by omega), h.header]
  · have hread : b'.read (r % n + frameHeader) m.payload.length
        = b.read (r % n + frameHeader) m.payload.length := by
      refine Buffer.read_congr fun j hj => ?_
      unfold frameHeader
      rw [add_assoc]
      exact hbytes _ (by omega)
    rw [hread, h.payload]

lemma WrapAt.congr (h : WrapAt n b r)
    (hb : ∀ p, r ≤ p → p < r + frameHeader → b' (p % n) = b (p % n)) : WrapAt n b' r := by
  refine ⟨h.inside, h.room, ?_⟩
  have hroom := h.room
  rw [← h.header, Frame.at_congr fun j hj => ?_]
  unfold frameHeader at hroom hb
  rw [offset_eq 8 hj (by omega)]
  exact hb _ (by omega) (by omega)

lemma FrameAt.not_wrap (h : FrameAt n b r m) : ¬ WrapAt n b r := fun hw => by
  have := hw.header
  rw [h.header] at this
  exact absurd (show frameNormal = frameWrap from this) (by decide)

namespace Layout

lemma le (h : Layout n b r ms w) : r ≤ w := by
  induction h with
  | nil => exact le_refl _
  | frame _ _ ih => omega
  | wrap _ _ _ ih => omega

lemma congr (h : Layout n b r ms w) (hb : ∀ p, r ≤ p → p < w → b' (p % n) = b (p % n)) :
    Layout n b' r ms w := by
  induction h with
  | nil r => exact .nil r
  | frame h rest ih =>
    have := rest.le
    exact .frame (h.congr fun p h1 h2 => hb p h1 (by omega))
      (ih fun p h1 h2 => hb p (by omega) h2)
  | @wrap r w m ms h hframe rest ih =>
    have := rest.le
    have := h.room
    exact .wrap (h.congr fun p h1 h2 => hb p h1 (by omega))
      (hframe.congr fun p h1 h2 => hb p (by omega) (by omega))
      (ih fun p h1 h2 => hb p (by omega) h2)

lemma trans (h : Layout n b r ms w) (h' : Layout n b w ms' w') : Layout n b r (ms ++ ms') w' := by
  induction h with
  | nil => exact h'
  | frame h _ ih => exact .frame h (ih h')
  | wrap h hframe _ ih => exact .wrap h hframe (ih h')

lemma lt_of_cons (h : Layout n b r (m :: ms) w) : r < w := by
  have hsize := le_frameSize m.payload.length
  unfold frameHeader at hsize
  cases h with
  | frame h rest | wrap h hframe rest =>
    have := rest.le
    omega

lemma eq_of_nil (h : Layout n b r [] w) : r = w := by
  cases h
  rfl

lemma eq_nil (h : Layout n b r ms r) : ms = [] := by
  cases ms with
  | nil => rfl
  | cons m ms => exact absurd h.lt_of_cons (lt_irrefl r)

end Layout

/-! ## Writing -/

lemma write_other {a p : Nat} {bs : List UInt8} (hfits : a % n + bs.length ≤ n)
    (hout : p < a ∨ a + bs.length ≤ p) (hlo : a + bs.length ≤ p + n) (hhi : p < a + n) :
    b.write (a % n) bs (p % n) = b (p % n) := by
  rcases lt_or_ge (p % n) (a % n) with hlt | hge
  · exact Buffer.write_of_lt hlt
  · rcases lt_or_ge (p % n) (a % n + bs.length) with hin | hafter
    · -- the offset is written: it is the one of a position of the write
      exfalso
      obtain ⟨j, hj⟩ := Nat.exists_eq_add_of_le hge
      have hlt : j < bs.length := by omega
      rw [offset_eq _ hlt hfits] at hj
      rcases hout with hout | hout
      · exact mod_ne_of_window (show p < a + j by omega) (by omega) hj
      · exact mod_ne_of_window (show a + j < p by omega) (by omega) hj.symm
    · exact Buffer.write_of_le hafter

lemma frameAt_of_header {type : UInt16} {len : Nat} (hfits : r % n + frameSize len ≤ n)
    (hshort : len < 2 ^ 32) (hheader : Frame.at b (r % n) = ⟨UInt32.ofNat len, type, frameNormal⟩) :
    FrameAt n b r ⟨type, b.read (r % n + frameHeader) len⟩ :=
  ⟨by simpa using hfits, by simpa using hshort, by simpa using hheader, by simp⟩

end Cobalt.Container.Spsc
