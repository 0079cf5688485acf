/-
Cobalt.Container.SpscTheorems — the messages that were committed, in order.

Each party relies on the bytes between the cursors, which only the steps of
the two cursors change. A stale cursor is safe on both sides: the producer
sees less free space than there is, and the consumer a write position that
is still a boundary between frames.
-/
import Cobalt.Container.SpscLayout

namespace Cobalt.Container.Spsc

open List

variable {c : Capacity} {n r r' w w' : Nat} {b b' : Buffer} {m : Msg} {ms ms' : List Msg}

/-! ## Capacities -/

namespace Capacity

lemma size_pos (c : Capacity) : 0 < c.size := Nat.two_pow_pos c.log

lemma offsetOf_eq (c : Capacity) (pos : Nat) : offsetOf c.size pos = pos % c.size :=
  Nat.and_two_pow_sub_one_eq_mod pos c.log

lemma dvd_size (c : Capacity) (h : 8 ≤ c.size) : 8 ∣ c.size := by
  have hlog : 2 ^ 3 ≤ 2 ^ c.log := h
  exact Nat.pow_dvd_pow 2 ((Nat.pow_le_pow_iff_right (by omega)).mp hlog)

end Capacity

lemma wrapped_mod (hn : 0 < n) : (w + (n - w % n)) % n = 0 := by
  have hdiv := Nat.div_add_mod w n
  have hmod := Nat.mod_lt w hn
  have heq : w + (n - w % n) = n * (w / n + 1) := by
    rw [mul_add, mul_one]
    omega
  rw [heq, Nat.mul_mod_right]

/-! ## The producer -/

/-- A reservation for `len` bytes at `pos`: behind the write cursor, or
behind the marker that stands there. -/
structure Reserved (n : Nat) (b : Buffer) (r w pos len : Nat) : Prop where
  place : pos = w ∨ pos = w + (n - w % n) ∧ WrapAt n b w
  aligned : 8 ∣ pos
  fits : pos % n + frameSize len ≤ n
  room : pos + frameSize len ≤ r + n
  short : len < 2 ^ 32

/-- What the producer relies on. -/
structure ProducerOk (n : Nat) (b : Buffer) (r w : Nat) (p : Producer) : Prop where
  reserved : p.isReserved = true → Reserved n b r w p.reservedWritePos p.reservedLen
  pc : match p.pc with
    | .idle _ => True
    | .loadWrite len => len < 2 ^ 32 ∧ p.isReserved = false
    | .loadRead len writePos => len < 2 ^ 32 ∧ p.isReserved = false ∧ writePos = w
    | .mark len writePos pos =>
        len < 2 ^ 32 ∧ p.isReserved = false ∧ writePos = w ∧ pos = w + (n - w % n) ∧
          w % n ≠ 0 ∧ frameHeader ≤ n - w % n ∧ 8 ∣ pos ∧ pos % n = 0 ∧ frameSize len ≤ n ∧
          pos + frameSize len ≤ r + n
    | .header _ len => p.isReserved = true ∧ len ≤ p.reservedLen
    | .publish type len =>
        p.isReserved = true ∧ len ≤ p.reservedLen ∧
          Frame.at b (p.reservedWritePos % n) = ⟨UInt32.ofNat len, type, frameNormal⟩

variable {pos len : Nat}

lemma Reserved.mono (h : Reserved n b r w pos len) (hr : r ≤ r') : Reserved n b r' w pos len :=
  ⟨h.place, h.aligned, h.fits, by have := h.room; omega, h.short⟩

lemma ProducerOk.mono {p : Producer} (h : ProducerOk n b r w p) (hr : r ≤ r') :
    ProducerOk n b r' w p := by
  refine ⟨fun hres => (h.reserved hres).mono hr, ?_⟩
  have hpc := h.pc
  cases hp : p.pc <;> simp only [hp] at hpc ⊢
  case mark =>
    obtain ⟨h1, h2, h3, h4, h5, h6, h7, h8, h9, h10⟩ := hpc
    exact ⟨h1, h2, h3, h4, h5, h6, h7, h8, h9, by omega⟩
  all_goals exact hpc

lemma reserveAt_spec {marked : Bool} (hw : 8 ∣ w) (hrw : r ≤ w)
    (h : reserveAt c.size w r (frameSize len) = some (pos, marked)) :
    8 ∣ pos ∧ pos % c.size + frameSize len ≤ c.size ∧ pos + frameSize len ≤ r + c.size ∧
      (marked = false ∧ pos = w ∨ marked = true ∧ pos = w + (c.size - w % c.size) ∧ w % c.size ≠ 0 ∧
          frameHeader ≤ c.size - w % c.size ∧ pos % c.size = 0) := by
  have hsize := le_frameSize len
  have hoff := Nat.mod_lt w c.size_pos
  unfold frameHeader at hsize
  unfold reserveAt tooLong at h
  simp only [c.offsetOf_eq, Bool.or_eq_true, decide_eq_true_eq] at h
  by_cases htail : c.size - w % c.size < frameSize len
  · rw [if_pos htail] at h
    split at h
    · cases h
    · rename_i hroom
      cases h
      rw [not_or] at hroom
      have hdvd := c.dvd_size (by omega)
      have hzero := (Nat.dvd_mod_iff hdvd).mpr hw
      have hpos := wrapped_mod (w := w) c.size_pos
      unfold frameHeader
      exact ⟨by omega, by omega, by omega,
        Or.inr ⟨decide_eq_true (by omega), rfl, by omega, by omega, hpos⟩⟩
  · rw [if_neg htail] at h
    split at h
    · cases h
    · rename_i hroom
      cases h
      rw [not_or] at hroom
      exact ⟨hw, by omega, by omega, Or.inl ⟨rfl, rfl⟩⟩

/-! ## The consumer -/

/-- The frame at the read cursor is the one that was peeked at. -/
structure Peeked (n : Nat) (b : Buffer) (r w : Nat) (c : Consumer) (m : Msg) (ms : List Msg) :
    Prop where
  frame : FrameAt n b r m
  rest : Layout n b (r + frameSize m.payload.length) ms w
  frameLen : c.peekedFrameLen = frameSize m.payload.length
  type : c.outType = m.type
  ptr : c.outPtr = r % n + frameHeader
  len : c.outLen = m.payload.length

/-- What the consumer relies on, with the messages it has not consumed. -/
structure ConsumerOk (n : Nat) (b : Buffer) (r w : Nat) (pending : List Msg) (c : Consumer) :
    Prop where
  peeked : c.isPeeked = true → ∃ m ms, pending = m :: ms ∧ Peeked n b r w c m ms
  pc : match c.pc with
    | .idle rc => rc ≠ .general
    | .loadRead wraps => 0 < wraps → r % n = 0
    | .loadWrite wraps readPos => readPos = r ∧ (0 < wraps → r % n = 0)
    | .frame wraps readPos writePos =>
        readPos = r ∧ (0 < wraps → r % n = 0) ∧
          ∃ m ms ms', pending = m :: ms ++ ms' ∧ Layout n b r (m :: ms) writePos ∧
            Layout n b writePos ms' w
    | .skip _ readPos =>
        readPos = r ∧ WrapAt n b r ∧ ∃ m ms, pending = m :: ms ∧ FrameAt n b (r + (n - r % n)) m ∧
          Layout n b (r + (n - r % n) + frameSize m.payload.length) ms w
    | .consumeLoad => c.isPeeked = true
    | .consumeStore readPos => c.isPeeked = true ∧ readPos = r

lemma Peeked.congr {c : Consumer} (h : Peeked n b r w c m ms)
    (hb : ∀ p, r ≤ p → p < w → b' (p % n) = b (p % n)) : Peeked n b' r w c m ms := by
  have hle := h.rest.le
  exact ⟨h.frame.congr fun p h1 h2 => hb p h1 (by omega),
    h.rest.congr fun p h1 h2 => hb p (by omega) h2, h.frameLen, h.type, h.ptr, h.len⟩

lemma ConsumerOk.peeked_at {c : Consumer} (h : ConsumerOk n b r w ms c) (pc : ConsumerPc) :
    c.isPeeked = true → ∃ m rest, ms = m :: rest ∧ Peeked n b r w { c with pc := pc } m rest := by
  intro hp
  obtain ⟨m, rest, heq, hpeeked⟩ := h.peeked hp
  exact ⟨m, rest, heq, hpeeked.frame, hpeeked.rest, hpeeked.frameLen, hpeeked.type, hpeeked.ptr,
    hpeeked.len⟩

/-- The consumer looks at no byte outside the cursors. -/
lemma ConsumerOk.congr {c : Consumer} (h : ConsumerOk n b r w ms c)
    (hb : ∀ p, r ≤ p → p < w → b' (p % n) = b (p % n)) : ConsumerOk n b' r w ms c := by
  refine ⟨fun hp => ?_, ?_⟩
  · obtain ⟨m, ms', heq, hpeeked⟩ := h.peeked hp
    exact ⟨m, ms', heq, hpeeked.congr hb⟩
  · have hpc := h.pc
    cases hc : c.pc <;> simp only [hc] at hpc ⊢
    case frame =>
      obtain ⟨hr, hwraps, m, ms1, ms2, heq, h1, h2⟩ := hpc
      have := h1.le
      have := h2.le
      exact ⟨hr, hwraps, m, ms1, ms2, heq, h1.congr fun p h3 h4 => hb p h3 (by omega),
        h2.congr fun p h3 h4 => hb p (by omega) h4⟩
    case skip =>
      obtain ⟨hr, hwrap, m, ms', heq, hframe, hrest⟩ := hpc
      have := hrest.le
      have := hwrap.room
      exact ⟨hr, hwrap.congr fun p h1 h2 => hb p h1 (by omega), m, ms', heq,
        hframe.congr fun p h1 h2 => hb p (by omega) (by omega),
        hrest.congr fun p h1 h2 => hb p (by omega) h2⟩
    all_goals exact hpc

/-- The producer publishes more messages. -/
lemma ConsumerOk.extend {c : Consumer} (h : ConsumerOk n b r w ms c)
    (hmore : Layout n b w ms' w') : ConsumerOk n b r w' (ms ++ ms') c := by
  refine ⟨fun hp => ?_, ?_⟩
  · obtain ⟨m, rest, heq, hpeeked⟩ := h.peeked hp
    exact ⟨m, rest ++ ms', by rw [heq]; rfl, hpeeked.frame, hpeeked.rest.trans hmore,
      hpeeked.frameLen, hpeeked.type, hpeeked.ptr, hpeeked.len⟩
  · have hpc := h.pc
    cases hc : c.pc <;> simp only [hc] at hpc ⊢
    case frame =>
      obtain ⟨hr, hwraps, m, ms1, ms2, heq, h1, h2⟩ := hpc
      exact ⟨hr, hwraps, m, ms1, ms2 ++ ms', by rw [heq, append_assoc], h1, h2.trans hmore⟩
    case skip =>
      obtain ⟨hr, hwrap, m, rest, heq, hframe, hrest⟩ := hpc
      exact ⟨hr, hwrap, m, rest ++ ms', by rw [heq]; rfl, hframe, hrest.trans hmore⟩
    all_goals exact hpc

/-! ## The invariant -/

/-- The messages that are committed and not consumed. -/
def State.pending (s : State) : List Msg := s.committed.drop s.received.length

structure Inv (n : Nat) (s : State) : Prop where
  aligned : 8 ∣ s.writeCursor
  room : s.writeCursor ≤ s.readCursor + n
  received : s.received <+: s.committed
  layout : Layout n s.buffer s.readCursor s.pending s.writeCursor
  producer : ProducerOk n s.buffer s.readCursor s.writeCursor s.producer
  consumer : ConsumerOk n s.buffer s.readCursor s.writeCursor s.pending s.consumer

lemma inv_start (b : Buffer) : Inv n (start b) where
  aligned := Nat.dvd_zero 8
  room := Nat.zero_le _
  received := prefix_refl _
  layout := .nil 0
  producer := ⟨by simp [start], trivial⟩
  consumer := ⟨by simp [start], by simp [start]⟩

namespace Inv

variable {s s' : State}

/-! ## Steps of the producer -/

/-- A step of the producer that leaves the cursors and the bytes between them
alone. -/
lemma produce (h : Inv n s) {p : Producer}
    (hb : ∀ q, s.readCursor ≤ q → q < s.writeCursor → b' (q % n) = s.buffer (q % n))
    (hp : ProducerOk n b' s.readCursor s.writeCursor p) :
    Inv n { s with buffer := b', producer := p } where
  aligned := h.aligned
  room := h.room
  received := h.received
  layout := h.layout.congr hb
  producer := hp
  consumer := h.consumer.congr hb

lemma producerAt (h : Inv n s) {p : Producer}
    (hp : ProducerOk n s.buffer s.readCursor s.writeCursor p) : Inv n { s with producer := p } :=
  h.produce (fun _ _ _ => rfl) hp

end Inv

lemma write_free {a q : Nat} {bs : List UInt8} (ha : w ≤ a) (hroom : a + bs.length ≤ r + n)
    (hfits : a % n + bs.length ≤ n) (h1 : r ≤ q) (h2 : q < w) :
    b.write (a % n) bs (q % n) = b (q % n) :=
  write_other hfits (Or.inl (by omega)) (by omega) (by omega)

lemma Reserved.write {bs : List UInt8} (h : Reserved n b r w pos len) (off : Nat) (hrw : r ≤ w)
    (hoff : off + bs.length ≤ frameSize len) :
    Reserved n (b.write ((pos + off) % n) bs) r w pos len := by
  have hfits := h.fits
  have hroom := h.room
  refine ⟨h.place.imp_right fun ⟨hpos, hwrap⟩ => ⟨hpos, ?_⟩, h.aligned, h.fits, h.room, h.short⟩
  have hwroom := hwrap.room
  refine hwrap.congr fun p h1 h2 => ?_
  by_cases hbs : bs.length = 0
  · rw [length_eq_zero_iff.mp hbs]
    simp [Buffer.write]
  · refine write_other ?_ (Or.inl (by omega)) (by omega) (by omega)
    rw [← offset_eq (frameSize len) (by omega) hfits]
    omega

lemma Reserved.le (h : Reserved n b r w pos len) : w ≤ pos := by
  rcases h.place with hp | ⟨hp, -⟩ <;> omega

namespace Inv

variable {s s' : State}

lemma callProducer {a : Act} (h : Inv c.size s) (hpc : ∃ rc, s.producer.pc = .idle rc)
    (hs : Spsc.callProducer c.size s a = some s') : Inv c.size s' := by
  have hidle : ∀ rc, ProducerOk c.size s.buffer s.readCursor s.writeCursor
      { s.producer with pc := .idle rc } := fun rc => ⟨h.producer.reserved, trivial⟩
  cases a with
  | reserve len =>
    simp only [Spsc.callProducer] at hs
    split at hs
    · cases hs
      exact h.producerAt (hidle _)
    · rename_i hres
      split at hs
      · rename_i hlen
        cases hs
        simp only [lengthOk, Bool.and_eq_true, decide_eq_true_eq] at hlen
        refine h.producerAt ⟨h.producer.reserved, ?_, by simpa using hres⟩
        unfold frameHeader at hlen
        omega
      · cases hs
        exact h.producerAt (hidle _)
  | fill i byte =>
    simp only [Spsc.callProducer] at hs
    split at hs
    · rename_i hcond
      cases hs
      obtain ⟨hres, hi⟩ := hcond
      have hr := h.producer.reserved hres
      have hsize := le_frameSize s.producer.reservedLen
      have hle := hr.le
      have hfits := hr.fits
      have hroom := hr.room
      have hoff : offsetOf c.size s.producer.reservedWritePos + frameHeader + i
          = (s.producer.reservedWritePos + (frameHeader + i)) % c.size := by
        rw [c.offsetOf_eq, add_assoc, offset_eq (frameSize s.producer.reservedLen) (by omega) hfits]
      rw [hoff]
      refine h.produce (fun q h1 h2 => write_free (by omega) ?_ ?_ h1 h2)
        ⟨fun _ => hr.write _ h.layout.le ?_, ?_⟩
      · simp only [length_cons, length_nil]
        omega
      · rw [← offset_eq (frameSize s.producer.reservedLen) (by omega) hfits]
        simp only [length_cons, length_nil]
        omega
      · simp only [length_cons, length_nil]
        omega
      · obtain ⟨rc, hrc⟩ := hpc
        rw [hrc]
        trivial
    · cases hs
  | commit type len =>
    simp only [Spsc.callProducer] at hs
    split at hs
    · cases hs
      exact h.producerAt (hidle _)
    · rename_i hcond
      cases hs
      simp only [Bool.or_eq_true, Bool.not_eq_true', decide_eq_true_eq, not_or,
        Bool.not_eq_false, not_lt] at hcond
      exact h.producerAt ⟨h.producer.reserved, hcond⟩
  | cancel =>
    simp only [Spsc.callProducer] at hs
    split at hs
    · cases hs
      exact h.producerAt (hidle _)
    · cases hs
      exact h.producerAt ⟨nofun, trivial⟩
  | produce | peek | consume | take => simp [Spsc.callProducer] at hs

lemma stepProducer (h : Inv c.size s) (hs : Spsc.stepProducer c.size s = some s') :
    Inv c.size s' := by
  have hp := h.producer
  have hpc := hp.pc
  unfold Spsc.stepProducer at hs
  cases hcase : s.producer.pc with
  | idle rc => simp [hcase] at hs
  | loadWrite len =>
    simp only [hcase] at hs hpc
    cases hs
    exact h.producerAt ⟨hp.reserved, hpc.1, hpc.2, rfl⟩
  | loadRead len writePos =>
    simp only [hcase] at hs hpc
    obtain ⟨hshort, hres, rfl⟩ := hpc
    split at hs
    · cases hs
      exact h.producerAt ⟨hp.reserved, trivial⟩
    · rename_i pos heq
      cases hs
      obtain ⟨hdvd, hfits, hroom, ⟨hf, -⟩ | ⟨-, hpos, hin, hhead, hzero⟩⟩ :=
        reserveAt_spec h.aligned h.layout.le heq
      · cases hf
      · exact h.producerAt ⟨hp.reserved, hshort, hres, rfl, hpos, hin, hhead, hdvd, hzero,
          by omega, hroom⟩
    · rename_i pos heq
      cases hs
      obtain ⟨hdvd, hfits, hroom, ⟨-, hpos⟩ | ⟨hf, -⟩⟩ := reserveAt_spec h.aligned h.layout.le heq
      · exact h.producerAt ⟨fun _ => ⟨Or.inl hpos, hdvd, hfits, hroom, hshort⟩, trivial⟩
      · cases hf
  | mark len writePos pos =>
    simp only [hcase] at hs hpc
    obtain ⟨hshort, -, rfl, hpos, hin, hhead, hdvd, hzero, hfits, hroom⟩ := hpc
    cases hs
    have hmod := Nat.mod_lt s.writeCursor c.size_pos
    rw [c.offsetOf_eq]
    refine h.produce (fun q h1 h2 => write_free (le_refl _) ?_ ?_ h1 h2)
      ⟨fun _ => ⟨Or.inr ⟨hpos, hin, hhead, ?_⟩, hdvd, ?_, hroom, hshort⟩, trivial⟩
    · simp only [Frame.bytes, length_cons, length_nil]
      unfold frameHeader at hhead
      omega
    · simp only [Frame.bytes, length_cons, length_nil]
      unfold frameHeader at hhead
      omega
    · rw [Frame.at_write]
    · dsimp only
      omega
  | header type len =>
    simp only [hcase] at hs hpc
    obtain ⟨hres, hlen⟩ := hpc
    cases hs
    have hr := hp.reserved hres
    have hsize := le_frameSize s.producer.reservedLen
    have hroom := hr.room
    have hfits := hr.fits
    unfold frameHeader at hsize
    rw [c.offsetOf_eq]
    refine h.produce (fun q h1 h2 => write_free hr.le ?_ ?_ h1 h2)
      ⟨fun _ => ?_, hres, hlen, Frame.at_write _ _ _⟩
    · simp only [Frame.bytes, length_cons, length_nil]
      omega
    · simp only [Frame.bytes, length_cons, length_nil]
      omega
    · refine hr.write 0 h.layout.le ?_
      simp only [Frame.bytes, length_cons, length_nil]
      omega
  | publish type len =>
    simp only [hcase] at hs hpc
    obtain ⟨hres, hlen, hheader⟩ := hpc
    cases hs
    have hr := hp.reserved hres
    have hroom := hr.room
    have hfits := hr.fits
    have hshort := hr.short
    have hshrink := frameSize_mono hlen
    rw [c.offsetOf_eq]
    have hframe := frameAt_of_header (r := s.producer.reservedWritePos) (n := c.size)
      (by omega) (by omega) hheader
    -- the new message is laid out behind the others, after the marker if there is one
    have hmore : Layout c.size s.buffer s.writeCursor
        [⟨type, s.buffer.read (s.producer.reservedWritePos % c.size + frameHeader) len⟩]
        (s.producer.reservedWritePos + frameSize len) := by
      rcases hr.place with hpos | ⟨hpos, hwrap⟩
      · rw [← hpos]
        refine .frame hframe ?_
        simp only [Buffer.length_read]
        exact .nil _
      · rw [hpos] at hframe ⊢
        refine .wrap hwrap hframe ?_
        simp only [Buffer.length_read]
        exact .nil _
    have hpending : ∀ m, (s.committed ++ [m]).drop s.received.length = s.pending ++ [m] := fun m =>
      drop_append_of_le_length h.received.length_le
    constructor
    · exact Nat.dvd_add hr.aligned (dvd_frameSize len)
    · dsimp only
      omega
    · exact h.received.trans (prefix_append _ _)
    · unfold State.pending
      dsimp only
      rw [hpending]
      exact h.layout.trans hmore
    · exact ⟨by rintro ⟨⟩, trivial⟩
    · unfold State.pending
      dsimp only
      rw [hpending]
      exact h.consumer.extend hmore

/-! ## Steps of the consumer -/

lemma consumerAt (h : Inv n s) {k : Consumer}
    (hk : ConsumerOk n s.buffer s.readCursor s.writeCursor s.pending k) :
    Inv n { s with consumer := k } := ⟨h.aligned, h.room, h.received, h.layout, h.producer, hk⟩

lemma callConsumer {a : Act} (h : Inv n s) (hs : Spsc.callConsumer s a = some s') : Inv n s' := by
  cases a with
  | peek =>
    cases hs
    exact h.consumerAt ⟨h.consumer.peeked_at _, nofun⟩
  | consume =>
    simp only [Spsc.callConsumer] at hs
    split at hs
    · cases hs
      exact h.consumerAt ⟨h.consumer.peeked_at _, by assumption⟩
    · cases hs
      exact h.consumerAt ⟨h.consumer.peeked_at _, nofun⟩
  | reserve | fill | commit | cancel | produce | take => simp [Spsc.callConsumer] at hs

/-- The frame at the read position is as the layout says: a marker to skip,
or the next message. -/
lemma lookAtFrame (h : Inv c.size s) {wraps readPos writePos : Nat}
    (hpc : s.consumer.pc = .frame wraps readPos writePos) :
    Inv c.size (Spsc.lookAtFrame c.size s wraps readPos writePos) := by
  have hk := h.consumer
  have hkpc := hk.pc
  simp only [hpc] at hkpc
  obtain ⟨rfl, hwraps, m, ms, ms', heq, hlayout, hrest⟩ := hkpc
  unfold Spsc.lookAtFrame
  dsimp only
  rw [c.offsetOf_eq]
  cases hlayout with
  | frame hframe hms =>
    have hnormal : frameNormal &&& frameWrap = 0 := by decide
    have hle := hms.le
    have hfits := hframe.fits
    have hshort := hframe.short
    have hlength : (UInt32.ofNat m.payload.length).toNat = m.payload.length := by
      rw [UInt32.toNat_ofNat', Nat.mod_eq_of_lt hshort]
    rw [hframe.header]
    dsimp only
    rw [hnormal, if_neg (by simp), hlength, if_neg (by omega)]
    exact h.consumerAt ⟨fun _ => ⟨m, ms ++ ms', heq, hframe, hms.trans hrest, rfl, rfl, rfl, rfl⟩,
      nofun⟩
  | wrap hwrap hframe hms =>
    have hmark : frameWrap &&& frameWrap ≠ 0 := by decide
    rw [hwrap.header, if_pos hmark, if_neg]
    · exact h.consumerAt ⟨hk.peeked_at _, rfl, hwrap, m, ms ++ ms', heq, hframe, hms.trans hrest⟩
    · rintro (h0 | h0)
      · exact hwrap.inside h0
      · exact hwrap.inside (hwraps (by omega))

lemma stepConsumer (h : Inv c.size s) (hs : Spsc.stepConsumer c.size s = some s') :
    Inv c.size s' := by
  have hk := h.consumer
  have hpc := hk.pc
  unfold Spsc.stepConsumer at hs
  cases hcase : s.consumer.pc with
  | idle rc => simp [hcase] at hs
  | loadRead wraps =>
    simp only [hcase] at hs hpc
    cases hs
    exact h.consumerAt ⟨hk.peeked_at _, rfl, hpc⟩
  | loadWrite wraps readPos =>
    simp only [hcase] at hs hpc
    obtain ⟨rfl, hwraps⟩ := hpc
    have hle := h.layout.le
    split at hs
    · cases hs
      exact h.consumerAt ⟨hk.peeked_at _, nofun⟩
    · rename_i hne
      rw [if_neg (by omega)] at hs
      cases hs
      have hlayout := h.layout
      cases hpending : s.pending with
      | nil =>
        rw [hpending] at hlayout
        exact absurd hlayout.eq_of_nil hne
      | cons m ms =>
        rw [hpending] at hlayout
        exact h.consumerAt ⟨hk.peeked_at _, rfl, hwraps, m, ms, [],
          by rw [hpending, append_nil], hlayout, .nil _⟩
  | frame wraps readPos writePos =>
    simp only [hcase] at hs
    cases hs
    exact h.lookAtFrame hcase
  | skip wraps readPos =>
    simp only [hcase] at hs hpc
    obtain ⟨rfl, hwrap, m, ms, heq, hframe, hrest⟩ := hpc
    cases hs
    rw [c.offsetOf_eq]
    have hroom := h.room
    constructor
    · exact h.aligned
    · dsimp only
      omega
    · exact h.received
    · exact (show s.pending = m :: ms from heq) ▸ .frame hframe hrest
    · exact h.producer.mono (Nat.le_add_right _ _)
    · refine ⟨fun hp => ?_, fun _ => wrapped_mod c.size_pos⟩
      obtain ⟨_, _, _, hpeeked⟩ := hk.peeked hp
      exact absurd hwrap hpeeked.frame.not_wrap
  | consumeLoad =>
    simp only [hcase] at hs hpc
    cases hs
    exact h.consumerAt ⟨hk.peeked_at _, hpc, rfl⟩
  | consumeStore readPos =>
    simp only [hcase] at hs hpc
    obtain ⟨hp, rfl⟩ := hpc
    cases hs
    obtain ⟨m, ms, heq, hpeeked⟩ := hk.peeked hp
    have hmsg : (⟨s.consumer.outType, s.buffer.read s.consumer.outPtr s.consumer.outLen⟩ : Msg)
        = m := by
      rw [hpeeked.type, hpeeked.ptr, hpeeked.len, hpeeked.frame.payload]
    rw [hmsg, hpeeked.frameLen]
    have hroom := h.room
    have hcommitted : s.committed = s.received ++ [m] ++ ms := by
      obtain ⟨rest, hrest⟩ := h.received
      rw [← hrest]
      rw [State.pending, ← hrest, drop_left] at heq
      rw [heq, append_cons]
    have hpending : s.committed.drop (s.received ++ [m]).length = ms := by
      rw [hcommitted, drop_left]
    constructor
    · exact h.aligned
    · dsimp only
      omega
    · dsimp only
      rw [hcommitted]
      exact prefix_append _ _
    · unfold State.pending
      dsimp only
      rw [hpending]
      exact hpeeked.rest
    · exact h.producer.mono (Nat.le_add_right _ _)
    · exact ⟨nofun, nofun⟩

end Inv

/-! ## Every run -/

lemma inv_step {s s' : State} {a : Act} (h : Inv c.size s) (hs : step c.size s a = some s') :
    Inv c.size s' := by
  cases a <;> simp only [step] at hs
  case produce => exact h.stepProducer hs
  case take => exact h.stepConsumer hs
  case peek | consume =>
    split at hs
    · exact h.callConsumer hs
    · cases hs
  case reserve | fill | commit | cancel =>
    split at hs
    · exact h.callProducer ⟨_, by assumption⟩ hs
    · cases hs

/-- What the two users of a ring rely on. -/
structure Contract (s : State) : Prop where
  /-- The messages consumed are those committed first, in order. -/
  inOrder : s.received <+: s.committed
  /-- None is left over when the cursors meet. -/
  complete : s.readCursor = s.writeCursor → s.received = s.committed
  /-- From `peek` to `consume` the next message stands where `peek` says. -/
  stable : s.consumer.isPeeked = true → ∃ m, s.committed[s.received.length]? = some m ∧
    s.consumer.outType = m.type ∧ s.consumer.outLen = m.payload.length ∧
    s.buffer.read s.consumer.outPtr s.consumer.outLen = m.payload
  /-- `peek` does not return `COBALT_ERROR_GENERAL`. -/
  sane : s.consumer.pc ≠ .idle .general

lemma Inv.contract {s : State} (h : Inv n s) : Contract s where
  inOrder := h.received
  complete heq := by
    have hlayout := h.layout
    rw [heq] at hlayout
    have hnil := hlayout.eq_nil
    exact h.received.eq_of_length_le (drop_eq_nil_iff.mp hnil)
  stable hp := by
    obtain ⟨m, ms, heq, hpeeked⟩ := h.consumer.peeked hp
    refine ⟨m, ?_, hpeeked.type, hpeeked.len, ?_⟩
    · rw [← head?_drop]
      unfold State.pending at heq
      rw [heq]
      rfl
    · rw [hpeeked.ptr, hpeeked.len, hpeeked.frame.payload]
  sane hpc := by
    have := h.consumer.pc
    rw [hpc] at this
    exact this rfl

lemma inv_of_reach {s : State} (h : (machine c).Reach s) : Inv c.size s := by
  refine h.invariant (Inv c.size) ?_ fun _ _ _ hinv _ hs => inv_step hinv hs
  rintro s ⟨b, rfl⟩
  exact inv_start b

end Cobalt.Container.Spsc
