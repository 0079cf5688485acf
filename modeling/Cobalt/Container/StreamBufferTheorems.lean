/-
Cobalt.Container.StreamBufferTheorems — when the stream buffer is a byte queue.

`Holds b q` is the invariant: the positions are in order, `capacity` is the
size of the data block, and the readable bytes are `q`. Every call keeps it.
What can go wrong is the one sum that `ensure_writable` does not guard: where
`write_pos + len` wraps, the buffer is doubled, which is not enough, and the
call returns 0.
-/
import Cobalt.Container.StreamBuffer

namespace Cobalt.Container.StreamBuffer

open List Block
open Buf (readable writable)

open Block (Fault)

variable {b b' : Buf} {q q' : List UInt8} {len n : Nat} {grown : Bool}

/-- The buffer is well formed and holds the bytes of `q`. -/
structure Holds (b : Buf) (q : List UInt8) : Prop where
  data : b.data.length = b.capacity
  read_le : b.readPos ≤ b.writePos
  write_le : b.writePos ≤ b.capacity
  prepend_le : b.prependSize ≤ b.capacity
  capacity_le : b.capacity ≤ sizeMax
  bytes : b.data.window b.readPos b.readable = q.map some

/-- The bytes that moving the readable ones to the front makes writable. -/
def Buf.discardable (b : Buf) : Nat :=
  if b.readPos > b.prependSize then b.readPos - b.prependSize else 0

/-- What a call on `b` that leads to `b'` may do to the queue. A call that reports a
failure changes nothing, and `ensure_writable` keeps its promise. -/
def Allowed (b : Buf) (q : List UInt8) (b' : Buf) (q' : List UInt8) : Call → Answer → Prop
  | .append data grown, a =>
    a = .code 0 ∧ q' = q ++ data ∨ grown = false ∧ a = .code (-1) ∧ q' = q
  | .prepend data, a =>
    if data.length ≤ b.readPos then a = .code 0 ∧ q' = data ++ q else a = .code (-1) ∧ q' = q
  | .read len, a =>
    if len ≤ q.length then a = .bytes ((q.take len).map some) ∧ q' = q.drop len
    else a = .code (-1) ∧ q' = q
  | .retrieve len, a =>
    if len ≤ q.length then a = .code 0 ∧ q' = q.drop len else a = .code (-1) ∧ q' = q
  | .retrieveAll, a => a = .void ∧ q' = []
  | .ensureWritable len grown, a =>
    q' = q ∧ (a = .code 0 ∧ len ≤ b'.writable ∨ grown = false ∧ a = .code (-1))

/-- The unguarded sum does not wrap where it is used. -/
def Guarded (b : Buf) (len : Nat) (grown : Bool) : Prop :=
  len ≤ b.discardable + b.writable ∨ grown = false ∨ b.writePos + len < 2 ^ 64

lemma Holds.length_eq (h : Holds b q) : q.length = b.readable := by
  have hlen := congrArg List.length h.bytes
  have hread := h.read_le
  have hwrite := h.write_le
  rw [length_window (by rw [h.data, readable]; omega)] at hlen
  simpa using hlen.symm

/-! ## Growth -/

lemma doubled_ge {capacity : Nat} (h : capacity ≤ sizeMax) :
    capacity ≤ doubled capacity ∧ doubled capacity ≤ sizeMax := by
  unfold doubled
  split
  · exact ⟨h, Nat.le_refl _⟩
  · unfold sizeMax at *
    omega

variable {data : List UInt8}

section

variable (h : Holds b q)

include h

lemma newCap_ge : b.capacity ≤ newCap b len ∧ newCap b len ≤ sizeMax := by
  have hdoubled := doubled_ge h.capacity_le
  have hcap := h.capacity_le
  unfold newCap
  simp only
  split
  · split
    · exact ⟨hcap, Nat.le_refl _⟩
    · omega
  · exact hdoubled

lemma newCap_covers_iff : b.writePos + len ≤ newCap b len ↔ b.writePos + len < 2 ^ 64 := by
  have hle : newCap b len ≤ sizeMax := (newCap_ge h).2
  constructor
  · intro hcovers
    unfold sizeMax at hle
    omega
  · intro hlt
    unfold newCap
    simp only [Nat.mod_eq_of_lt hlt]
    split
    · split
      · unfold sizeMax
        omega
      · omega
    · omega

lemma grow_ok (hn : b.capacity ≤ n) : ∃ data, grow b n = .ok data ∧ data.length = n ∧
      data.window b.readPos b.readable = q.map some := by
  have hread := h.read_le
  have hwrite := h.write_le
  have hdata := h.data
  have hin : b.readPos + b.readable ≤ b.data.length := by rw [hdata, readable]; omega
  unfold grow
  split
  · refine ⟨_, rfl, length_resize, ?_⟩
    rw [window_resize hin (by omega)]
    exact h.bytes
  · have hcopy : b.data.read 0 b.capacity = .ok (b.data.window 0 b.capacity) := read_ok (by omega)
    have hcells : (b.data.window 0 b.capacity).length = b.capacity := length_window (by omega)
    have hfits : 0 + (b.data.window 0 b.capacity).length ≤ (fresh n : Block UInt8).length := by
      rw [hcells, length_fresh]
      omega
    obtain ⟨data, hwritten, hlen, hself, -⟩ := write_ok hfits
    rw [hcells] at hself
    refine ⟨data, by simp only [hcopy, ok_bind, hwritten], by rw [hlen, length_fresh], ?_⟩
    rw [← h.bytes]
    refine window_congr fun i hi => ?_
    have hcell := congrArg (fun cells => cells[b.readPos + i]?) hself
    simp only [getElem?_window, Nat.zero_add] at hcell
    rwa [if_pos (by omega), if_pos (by omega)] at hcell

/-- `ensure_writable` keeps the bytes, whatever it returns, and keeps its promise
exactly if the sum does not wrap. -/
lemma ensureWritable_ok (len : Nat) (grown : Bool) :
    ∃ b' c, ensureWritable b len grown = .ok (b', c) ∧ Holds b' q ∧
      (c = 0 ∧ (len ≤ b'.writable ↔ Guarded b len grown) ∨
        c = -1 ∧ grown = false ∧ Guarded b len grown) := by
  have hread := h.read_le
  have hwrite := h.write_le
  by_cases hroom : b.writable ≥ len
  · refine ⟨b, 0, by rw [ensureWritable, if_pos hroom], h, .inl ⟨rfl, fun _ => .inl ?_, fun _ => ?_⟩⟩
    · exact Nat.le_trans hroom (Nat.le_add_left _ _)
    · exact hroom
  by_cases hmove : b.discardable + b.writable ≥ len
  · -- the readable bytes move to the front
    have hdisc : b.readPos > b.prependSize := by
      by_contra hle
      rw [Buf.discardable, if_neg hle] at hmove
      omega
    rw [Buf.discardable, if_pos hdisc] at hmove
    have hdst : b.prependSize + b.readable ≤ b.data.length := by rw [h.data, readable]; omega
    have hsrc : b.readPos + b.readable ≤ b.data.length := by rw [h.data, readable]; omega
    obtain ⟨data, hdata, hlen, hmoved, -⟩ := move_ok hdst hsrc
    refine ⟨{ b with data := data, readPos := b.prependSize
                     writePos := b.prependSize + b.readable }, 0, ?_, ⟨?_, ?_, ?_, ?_, ?_, ?_⟩,
      .inl ⟨rfl, fun _ => .inl ?_, fun _ => ?_⟩⟩
    · rw [ensureWritable, if_neg hroom]
      simp only [if_pos hdisc, if_pos hmove, hdata, ok_bind]
    · exact hlen.trans h.data
    · exact Nat.le_add_right _ _
    · exact h.data ▸ hdst
    · exact h.prepend_le
    · exact h.capacity_le
    · change data.window b.prependSize (b.prependSize + b.readable - b.prependSize) = q.map some
      rw [Nat.add_sub_cancel_left, hmoved]
      exact h.bytes
    · rw [Buf.discardable, if_pos hdisc]
      exact hmove
    · change len ≤ b.capacity - (b.prependSize + b.readable)
      unfold writable at hmove
      unfold readable
      omega
  · have hdisc : ¬ ((if b.readPos > b.prependSize then b.readPos - b.prependSize else 0)
        + b.writable ≥ len) := hmove
    cases grown with
    | false =>
      refine ⟨b, -1, ?_, h, .inr ⟨rfl, rfl, .inr (.inl rfl)⟩⟩
      rw [ensureWritable, if_neg hroom]
      simp only [if_neg hdisc]
      rfl
    | true =>
      obtain ⟨hge, hmax⟩ : b.capacity ≤ newCap b len ∧ newCap b len ≤ sizeMax := newCap_ge h
      obtain ⟨data, hdata, hlen, hbytes⟩ := grow_ok h hge
      have hcovers : b.writePos + len ≤ newCap b len ↔ b.writePos + len < 2 ^ 64 :=
        newCap_covers_iff h
      refine ⟨{ b with data := data, capacity := newCap b len }, 0, ?_,
        ⟨hlen, hread, Nat.le_trans hwrite hge, Nat.le_trans h.prepend_le hge, hmax, hbytes⟩,
        .inl ⟨rfl, ?_⟩⟩
      · rw [ensureWritable, if_neg hroom]
        simp only [if_neg hdisc, if_true, hdata, ok_bind]
      · change len ≤ newCap b len - b.writePos ↔ _
        rw [Guarded]
        constructor
        · intro hle
          exact .inr (.inr (hcovers.mp (by omega)))
        · rintro (hle | hfalse | hlt)
          · exact absurd hle hmove
          · cases hfalse
          · have := hcovers.mpr hlt
            omega

/-! ## The calls -/

lemma Holds.retrieveAll : Holds (retrieveAll b) [] := by
  refine ⟨h.data, Nat.le_refl _, h.prepend_le, h.prepend_le, h.capacity_le, ?_⟩
  have hzero : (StreamBuffer.retrieveAll b).readable = 0 := Nat.sub_self _
  rw [hzero, window_zero]
  rfl

lemma Holds.retrieve (hlen : len ≤ q.length) :
    (retrieve b len).2 = 0 ∧ Holds (retrieve b len).1 (q.drop len) := by
  have hqlen := h.length_eq
  have hread := h.read_le
  unfold StreamBuffer.retrieve
  rw [if_neg (by omega)]
  split
  · rename_i hlt
    refine ⟨rfl, h.data, ?_, h.write_le, h.prepend_le, h.capacity_le, ?_⟩
    · unfold readable at hlt
      change b.readPos + len ≤ b.writePos
      omega
    · change b.data.window (b.readPos + len) (b.writePos - (b.readPos + len)) = _
      have hsplit : b.readable = len + (b.writePos - (b.readPos + len)) := by
        unfold readable at hlt ⊢
        omega
      have hbytes := h.bytes
      rw [hsplit, window_add] at hbytes
      have hfront : (b.data.window b.readPos len).length = len := by
        have hwrite := h.write_le
        rw [length_window (by rw [h.data]; unfold readable at hlt; omega)]
      rw [map_drop, ← hbytes, drop_left' hfront]
  · rename_i hge
    refine ⟨rfl, ?_⟩
    rw [drop_eq_nil_of_le (by omega)]
    exact h.retrieveAll

lemma Holds.read (len : Nat) :
    ∃ b' a q', read b len = .ok (b', a) ∧ Allowed b q b' q' (.read len) a ∧ Holds b' q' := by
  have hqlen := h.length_eq
  by_cases hlen : len ≤ q.length
  · have hread := h.read_le
    have hwrite := h.write_le
    have hin : b.readPos + len ≤ b.data.length := by
      rw [h.data]
      unfold readable at hqlen
      omega
    have hcells : b.data.window b.readPos len = (q.take len).map some := by
      have hsplit : b.readable = len + (b.readable - len) := by omega
      have hbytes := h.bytes
      rw [hsplit, window_add] at hbytes
      rw [map_take, ← hbytes, take_left' (length_window hin)]
    refine ⟨(StreamBuffer.retrieve b len).1, .bytes ((q.take len).map some), q.drop len, ?_, ?_,
      (h.retrieve hlen).2⟩
    · rw [StreamBuffer.read, if_neg (by omega), read_ok hin, hcells]
      rfl
    · rw [Allowed, if_pos hlen]
      exact ⟨rfl, rfl⟩
  · refine ⟨b, .code (-1), q, by rw [StreamBuffer.read, if_pos (by omega)], ?_, h⟩
    rw [Allowed, if_neg hlen]
    exact ⟨rfl, rfl⟩

lemma Holds.prepend (data : List UInt8) :
    ∃ b' a q', prepend b data = .ok (b', a) ∧ Allowed b q b' q' (.prepend data) a ∧
      Holds b' q' := by
  unfold StreamBuffer.prepend
  split
  · rename_i hzero
    refine ⟨b, .code 0, data ++ q, rfl, ?_, ?_⟩
    · rw [Allowed, if_pos (by omega)]
      exact ⟨rfl, rfl⟩
    · rw [eq_nil_of_length_eq_zero hzero]
      exact h
  split
  · rename_i hlong
    refine ⟨b, .code (-1), q, rfl, ?_, h⟩
    rw [Allowed, if_neg (by omega)]
    exact ⟨rfl, rfl⟩
  · rename_i hfits
    have hread := h.read_le
    have hwrite := h.write_le
    have hlen : (data.map some).length = data.length := length_map ..
    have hin : b.readPos - data.length + (data.map some).length ≤ b.data.length := by
      rw [hlen, h.data]
      omega
    obtain ⟨block, hblock, hblen, hself, hother⟩ := write_ok hin
    rw [hlen] at hself hother
    refine ⟨{ b with data := block, readPos := b.readPos - data.length }, .code 0, data ++ q, ?_,
      ?_, ⟨hblen.trans h.data, ?_, hwrite, h.prepend_le, h.capacity_le, ?_⟩⟩
    · rw [hblock]
      rfl
    · rw [Allowed, if_pos (by omega)]
      exact ⟨rfl, rfl⟩
    · exact Nat.le_trans (Nat.sub_le _ _) hread
    · change block.window (b.readPos - data.length) (b.writePos - (b.readPos - data.length)) = _
      rw [show b.writePos - (b.readPos - data.length) = data.length + b.readable by
        unfold readable; omega, window_add, hself, map_append, ← h.bytes]
      congr 1
      rw [show b.readPos - data.length + data.length = b.readPos by omega]
      exact window_congr fun i _ => hother _ (.inr (by omega))

lemma Holds.write (hroom : data.length ≤ b.writable) :
    ∃ block, b.data.write b.writePos (data.map some) = .ok block ∧
      Holds { b with data := block, writePos := (b.writePos + data.length) % 2 ^ 64 }
        (q ++ data) := by
  have hread := h.read_le
  have hwrite := h.write_le
  have hcap := h.capacity_le
  have hlen : (data.map some).length = data.length := length_map ..
  have hend : b.writePos + data.length ≤ b.capacity := by unfold writable at hroom; omega
  have hin : b.writePos + (data.map some).length ≤ b.data.length := by rw [hlen, h.data]; exact hend
  obtain ⟨block, hblock, hblen, hself, hother⟩ := write_ok hin
  rw [hlen] at hself hother
  have hmod : (b.writePos + data.length) % 2 ^ 64 = b.writePos + data.length :=
    Nat.mod_eq_of_lt (by unfold sizeMax at hcap; omega)
  rw [hmod]
  refine ⟨block, hblock, hblen.trans h.data, Nat.le_trans hread (Nat.le_add_right _ _), hend,
    h.prepend_le, hcap, ?_⟩
  change block.window b.readPos (b.writePos + data.length - b.readPos) = _
  rw [show b.writePos + data.length - b.readPos = b.readable + data.length by
    unfold readable; omega, window_add, map_append, ← h.bytes]
  congr 1
  · exact window_congr fun i hi => hother _ (.inl (by unfold readable at hi; omega))
  · rw [show b.readPos + b.readable = b.writePos by unfold readable; omega]
    exact hself

/-- Appending keeps the invariant exactly if the sum does not wrap; otherwise it
writes outside the block. -/
lemma append_ok (data : List UInt8) (grown : Bool) :
    (Guarded b data.length grown → ∃ b' a q', append b data grown = .ok (b', a) ∧
      Allowed b q b' q' (.append data grown) a ∧ Holds b' q') ∧
    (¬ Guarded b data.length grown → append b data grown = .error .bounds) := by
  unfold append
  split
  · rename_i hzero
    refine ⟨fun _ => ⟨b, .code 0, q ++ data, rfl, .inl ⟨rfl, rfl⟩, ?_⟩, fun hnot => ?_⟩
    · rw [eq_nil_of_length_eq_zero hzero, append_nil]
      exact h
    · exact absurd (.inl (by omega)) hnot
  · obtain ⟨b', c, hensure, hholds, ⟨rfl, hroom⟩ | ⟨rfl, rfl, hguarded⟩⟩ :=
      ensureWritable_ok h data.length grown
    · constructor
      · intro hguarded
        obtain ⟨block, hblock, hwritten⟩ := hholds.write (hroom.mpr hguarded)
        refine ⟨_, .code 0, q ++ data, ?_, .inl ⟨rfl, rfl⟩, hwritten⟩
        simp only [hensure, ok_bind, ne_eq, not_true_eq_false, if_false, hblock]
      · intro hnot
        have hshort : ¬ data.length ≤ b'.writable := fun hle => hnot (hroom.mp hle)
        have hout : b'.data.write b'.writePos (data.map some) = .error .bounds := by
          refine write_error ?_
          rw [length_map, hholds.data]
          unfold writable at hshort
          omega
        simp only [hensure, ok_bind, ne_eq, not_true_eq_false, if_false, hout, error_bind]
    · refine ⟨fun _ => ⟨b', .code (-1), q, ?_, .inr ⟨rfl, rfl, rfl⟩, hholds⟩,
        fun hnot => absurd hguarded hnot⟩
      simp [hensure]

end

/-! ## Every run -/

/-- The unguarded sum does not wrap in this call. -/
def CallGuarded (b : Buf) : Call → Prop
  | .append data grown => Guarded b data.length grown
  | .ensureWritable len grown => Guarded b len grown
  | _ => True

/-- A call on a well-formed buffer does what it may exactly if the sum does not wrap. -/
lemma Holds.step_iff (h : Holds b q) (c : Call) :
    (∃ b' a q', step b c = .ok (b', a) ∧ Allowed b q b' q' c a ∧ Holds b' q') ↔
      CallGuarded b c := by
  cases c with
  | append data grown =>
    refine ⟨?_, (append_ok h data grown).1⟩
    rintro ⟨b', a, q', hstep, -, -⟩
    by_contra hnot
    rw [step, (append_ok h data grown).2 hnot] at hstep
    cases hstep
  | prepend data => exact ⟨fun _ => trivial, fun _ => h.prepend data⟩
  | read len => exact ⟨fun _ => trivial, fun _ => h.read len⟩
  | retrieve len =>
    refine ⟨fun _ => trivial, fun _ => ?_⟩
    by_cases hlen : len ≤ q.length
    · obtain ⟨hcode, hholds⟩ := h.retrieve hlen
      refine ⟨_, _, _, rfl, ?_, hholds⟩
      rw [Allowed, if_pos hlen]
      exact ⟨congrArg Answer.code hcode, rfl⟩
    · have hfail : StreamBuffer.retrieve b len = (b, -1) := by
        rw [StreamBuffer.retrieve, if_pos (by rw [← h.length_eq]; omega)]
      refine ⟨b, .code (-1), q, by rw [step, hfail], ?_, h⟩
      rw [Allowed, if_neg hlen]
      exact ⟨rfl, rfl⟩
  | retrieveAll =>
    exact ⟨fun _ => trivial, fun _ => ⟨_, _, [], rfl, ⟨rfl, rfl⟩, h.retrieveAll⟩⟩
  | ensureWritable len grown =>
    obtain ⟨b', c, hensure, hholds, hpromise⟩ := ensureWritable_ok h len grown
    have hstep : step b (.ensureWritable len grown) = .ok (b', .code c) := by
      rw [step, hensure]
      rfl
    constructor
    · rintro ⟨b'', a, q', hstep', ⟨-, hallowed⟩, -⟩
      rw [hstep] at hstep'
      cases hstep'
      rcases hpromise with ⟨rfl, hroom⟩ | ⟨rfl, -, hguarded⟩
      · rcases hallowed with ⟨-, hle⟩ | ⟨-, hcode⟩
        · exact hroom.mp hle
        · cases hcode
      · exact hguarded
    · intro hguarded
      refine ⟨b', .code c, q, hstep, ⟨rfl, ?_⟩, hholds⟩
      rcases hpromise with ⟨rfl, hroom⟩ | ⟨rfl, hgrown, -⟩
      · exact .inl ⟨rfl, hroom.mpr hguarded⟩
      · exact .inr ⟨hgrown, rfl⟩

/-- The run of the calls from `b` on never faults, is a run of the queue from `q` on,
and all its states are well formed. -/
def Refines : Buf → List UInt8 → List Call → Prop
  | b, q, [] => Holds b q
  | b, q, c :: cs => Holds b q ∧
      ∃ b' a q', step b c = .ok (b', a) ∧ Allowed b q b' q' c a ∧ Refines b' q' cs

/-- The unguarded sum wraps nowhere in the run. -/
def RunGuarded : Buf → List Call → Prop
  | _, [] => True
  | b, c :: cs => CallGuarded b c ∧ match step b c with
      | .ok (b', _) => RunGuarded b' cs
      | .error _ => True

lemma Refines.holds {cs : List Call} (h : Refines b q cs) : Holds b q := by
  cases cs with
  | nil => exact h
  | cons c cs => exact h.1

lemma Holds.refines_iff {cs : List Call} (h : Holds b q) : Refines b q cs ↔ RunGuarded b cs := by
  induction cs generalizing b q with
  | nil => exact ⟨fun _ => trivial, fun _ => h⟩
  | cons c cs ih =>
    constructor
    · rintro ⟨-, b', a, q', hstep, hallowed, hrest⟩
      refine ⟨(h.step_iff c).mp ⟨b', a, q', hstep, hallowed, hrest.holds⟩, ?_⟩
      rw [hstep]
      exact (ih hrest.holds).mp hrest
    · rintro ⟨hguarded, hrun⟩
      obtain ⟨b', a, q', hstep, hallowed, hholds⟩ := (h.step_iff c).mpr hguarded
      rw [hstep] at hrun
      exact ⟨h, b', a, q', hstep, hallowed, (ih hholds).mpr hrun⟩

/-- A new buffer is well formed and empty, if its size does not wrap. -/
lemma holds_create {initialCapacity prependSize : Nat} {hasRealloc structOk dataOk : Bool}
    (hb : create initialCapacity prependSize hasRealloc structOk dataOk = some b)
    (hsize : orDefault initialCapacity defaultInitialCapacity
      + orDefault prependSize defaultPrependSize < 2 ^ 64) : Holds b [] := by
  unfold create at hb
  simp only [Nat.mod_eq_of_lt hsize] at hb
  split at hb
  · cases hb
    refine ⟨length_fresh, Nat.le_refl _, Nat.le_add_left _ _, Nat.le_add_left _ _, ?_, ?_⟩
    · unfold sizeMax
      change _ + _ ≤ _
      omega
    · rw [readable, Nat.sub_self, window_zero]
      rfl
  · cases hb

/-- **The stream buffer is a byte queue** along a run exactly when in no call that
grows the buffer `write_pos + len` wraps. -/
theorem streamBuffer_refines_iff {initialCapacity prependSize : Nat}
    {hasRealloc structOk dataOk : Bool}
    (hb : create initialCapacity prependSize hasRealloc structOk dataOk = some b)
    (hsize : orDefault initialCapacity defaultInitialCapacity
      + orDefault prependSize defaultPrependSize < 2 ^ 64) (cs : List Call) :
    Refines b [] cs ↔ RunGuarded b cs := (holds_create hb hsize).refines_iff

/-- A buffer of four bytes that is moved, prepended to and grown. -/
theorem streamBuffer_refines_small :
    ∃ b, create 4 2 true true true = some b ∧
      Refines b [] [.append [1, 2, 3, 4] false, .read 2, .append [5, 6] false, .prepend [9],
        .append [7, 8, 9] true] := by
  have hb : create 4 2 true true true = some ⟨fresh 6, 6, 2, 2, 2, true⟩ := rfl
  refine ⟨_, hb, (streamBuffer_refines_iff hb (by decide) _).mpr ⟨.inl (by decide), ?_⟩⟩
  refine ⟨trivial, ⟨.inl (by decide), ?_⟩⟩
  exact ⟨trivial, ⟨.inr (.inr (by decide)), trivial⟩⟩

/-- `ensure_writable(SIZE_MAX)` doubles a small buffer and reports success. -/
theorem ensureWritable_wraps :
    ∃ b b', create 4 2 true true true = some b ∧
      step b (.ensureWritable sizeMax true) = .ok (b', .code 0) ∧ b'.writable = 10 ∧
      ¬ Refines b [] [.ensureWritable sizeMax true] := by
  have hb : create 4 2 true true true = some ⟨fresh 6, 6, 2, 2, 2, true⟩ := rfl
  refine ⟨_, ⟨(fresh 6).resize 12, 12, 2, 2, 2, true⟩, hb, by rfl, rfl, fun h => ?_⟩
  obtain ⟨hguarded | hfalse | hlt, -⟩ := ((holds_create hb (by decide)).refines_iff).mp h
  · exact absurd hguarded (by decide)
  · cases hfalse
  · exact absurd hlt (by decide)

/-! ## Reading from a descriptor -/

/-- There is a place for `len` more bytes: in the block as it is, or in one that can be had. -/
def Fits (b : Buf) (len : Nat) (grown : Bool) : Prop :=
  len ≤ b.discardable + b.writable ∨ grown = true ∧ b.writePos + len < 2 ^ 64

lemma append_fits (h : Holds b q) (hfits : Fits b data.length grown) :
    ∃ b', append b data grown = .ok (b', .code 0) ∧ Holds b' (q ++ data) := by
  have hgrown : append b data grown = append b data true := by
    rcases hfits with hroom | ⟨rfl, -⟩
    · -- moving the readable bytes makes room, and nothing is allocated
      have hmove : (if b.readPos > b.prependSize then b.readPos - b.prependSize else 0)
          + b.writable ≥ data.length := hroom
      simp only [append, ensureWritable, if_pos hmove]
    · rfl
  obtain ⟨b', a, q', happend, ⟨rfl, rfl⟩ | ⟨hfalse, -⟩, hholds⟩ :=
    (append_ok h data true).1 (hfits.imp_right fun hlt => .inr hlt.2)
  · exact ⟨b', hgrown.trans happend, hholds⟩
  · cases hfalse

lemma append_not_fits (h : Holds b q) (hfits : ¬ Fits b data.length grown) :
    append b data grown = .error .bounds ∨ append b data grown = .ok (b, .code (-1)) := by
  rw [Fits, not_or] at hfits
  cases grown with
  | false =>
    have hmove : ¬ ((if b.readPos > b.prependSize then b.readPos - b.prependSize else 0)
        + b.writable ≥ data.length) := hfits.1
    have hshort : ¬ b.writable ≥ data.length := fun hle => hfits.1 (Nat.le_add_left_of_le hle)
    have hdata : ¬ data.length = 0 := fun hzero => hfits.1 (hzero ▸ Nat.zero_le _)
    rw [append, if_neg hdata]
    simp [ensureWritable, if_neg hmove, if_neg hshort]
  | true =>
    refine .inl ((append_ok h data true).2 ?_)
    rintro (hroom | hfalse | hlt)
    · exact hfits.1 hroom
    · cases hfalse
    · exact hfits.2 ⟨rfl, hlt⟩

lemma Holds.fill (h : Holds b q) {bytes : List UInt8} (hlen : bytes.length ≤ b.writable) :
    ∃ data, b.data.write b.writePos (bytes.map some) = .ok data ∧
      Holds { b with data := data, writePos := b.writePos + bytes.length } (q ++ bytes) := by
  have hcap := h.capacity_le
  have hwrite := h.write_le
  have hmod : (b.writePos + bytes.length) % 2 ^ 64 = b.writePos + bytes.length := by
    apply Nat.mod_eq_of_lt
    unfold writable at hlen
    unfold sizeMax at hcap
    omega
  simpa only [hmod] using h.write hlen

/-- The call returns the number of the bytes `taken` from the descriptor and has them behind the
old ones, or it returns -1, none were taken, and it has the old ones. -/
def ReadWhole (q taken : List UInt8) (result : Except Fault (Buf × Int)) : Prop :=
  ∃ b r, result = .ok (b, r) ∧
    (r = taken.length ∧ Holds b (q ++ taken) ∨ r = -1 ∧ taken = [] ∧ Holds b q)

/-- There is a place for `n` bytes from the descriptor. -/
def ReadFits (b : Buf) (n : Nat) (grown : Bool) : Prop :=
  n ≤ b.discardable + b.writable ∨ grown = true ∧ b.capacity + (n - b.writable) < 2 ^ 64

lemma scatter_whole_iff (h : Holds b q) (bytes : List UInt8) (grown : Bool) :
    ReadWhole q bytes (scatter b bytes grown) ↔ ReadFits b bytes.length grown := by
  by_cases hlen : bytes.length ≤ b.writable
  · obtain ⟨data, hdata, hholds⟩ := h.fill hlen
    refine ⟨fun _ => .inl (Nat.le_add_left_of_le hlen), fun _ => ⟨_, _, ?_, .inl ⟨rfl, hholds⟩⟩⟩
    rw [scatter, take_of_length_le hlen, hdata]
    exact if_pos hlen
  -- the block is full, and the bytes left over are appended to it
  have hfull : (bytes.take b.writable).length = b.writable :=
    length_take_of_le (Nat.le_of_not_le hlen)
  obtain ⟨data, hdata, hholds⟩ := h.fill (Nat.le_of_eq hfull)
  rw [hfull, show b.writePos + b.writable = b.capacity from Nat.add_sub_cancel' h.write_le]
    at hholds
  have hscatter : scatter b bytes grown = (append { b with data := data, writePos := b.capacity }
      (bytes.drop b.writable) grown).bind fun p =>
        if p.2 ≠ .code 0 then .ok (p.1, -1) else .ok (p.1, (bytes.length : Int)) := by
    rw [scatter, hdata]
    exact if_neg hlen
  have hfits : Fits { b with data := data, writePos := b.capacity } (bytes.drop b.writable).length
      grown ↔ ReadFits b bytes.length grown := by
    have hzero : writable { b with data := data, writePos := b.capacity } = 0 := Nat.sub_self _
    rw [Fits, ReadFits, hzero, length_drop, Nat.sub_le_iff_le_add]
    rfl
  rw [hscatter, ← hfits]
  constructor
  · rintro ⟨b', r, hread, hwhole⟩
    by_contra hnot
    obtain happend | happend := append_not_fits hholds hnot <;> rw [happend] at hread <;>
      cases hread
    obtain ⟨hr, -⟩ | ⟨-, rfl, -⟩ := hwhole
    · omega
    · exact hlen (Nat.zero_le _)
  · intro hok
    obtain ⟨b', happend, hholds'⟩ := append_fits hholds hok
    rw [append_assoc, take_append_drop] at hholds'
    exact ⟨b', _, by rw [happend]; rfl, .inl ⟨rfl, hholds'⟩⟩

/-- **Reading keeps every byte** exactly if what `readv` takes has a place: one that is there, or
one that the allocator gives and whose size does not wrap. Otherwise the end of the block has been
filled and the rest is lost. -/
theorem readFd_whole_iff (h : Holds b q) (ready : Option (List UInt8)) (grown : Bool) :
    ReadWhole q ((ready.getD []).take (iovSpace b)) (readFd b ready grown) ↔
      ReadFits b ((ready.getD []).take (iovSpace b)).length grown := by
  cases ready with
  | none =>
    have hnil : ([] : List UInt8).take (iovSpace b) = [] := take_nil
    rw [Option.getD_none, hnil]
    exact ⟨fun _ => .inl (Nat.zero_le _), fun _ => ⟨b, -1, rfl, .inr ⟨rfl, rfl, h⟩⟩⟩
  | some ready => exact scatter_whole_iff h _ grown

/-- Five bytes for a block with room for four, and an allocator that gives one. -/
theorem readFd_whole_grown :
    ReadWhole [] [1, 2, 3, 4, 5]
      (readFd ⟨fresh 6, 6, 2, 2, 2, true⟩ (some [1, 2, 3, 4, 5]) true) := by
  have hb : create 4 2 true true true = some ⟨fresh 6, 6, 2, 2, 2, true⟩ := rfl
  exact (readFd_whole_iff (holds_create hb (by decide)) _ true).mpr (.inr ⟨rfl, by decide⟩)

/-- Where the allocator gives none, four of the five bytes are in the buffer, the fifth is gone,
and the call returns -1. -/
theorem readFd_loses :
    ∃ b b', create 4 2 true true true = some b ∧
      readFd b (some [1, 2, 3, 4, 5]) false = .ok (b', -1) ∧
      b.readable = 0 ∧ b'.data.window b'.readPos b'.readable = [some 1, some 2, some 3, some 4] ∧
      ¬ ReadWhole [] [1, 2, 3, 4, 5] (readFd b (some [1, 2, 3, 4, 5]) false) := by
  have hb : create 4 2 true true true = some ⟨fresh 6, 6, 2, 2, 2, true⟩ := rfl
  refine ⟨_, ⟨[none, none, some 1, some 2, some 3, some 4], 6, 2, 6, 2, true⟩, hb, by rfl, rfl,
    by rfl, ?_⟩
  rintro ⟨b', r, hread, ⟨hr, -⟩ | ⟨-, hnil, -⟩⟩
  · have hfail : (-1 : Int) = r := congrArg Prod.snd (Except.ok.inj hread)
    rw [← hfail] at hr
    cases hr
  · cases hnil

end Cobalt.Container.StreamBuffer
