/-
Cobalt.Json.SaxCursor — how the streaming parser moves over its input.

`Reads p l es p'` says that the parser went from `p` to `p'` over the bytes
`l` and told the handler of `es`. The scans that look at eight bytes at a
time are described here by what they are for: `skip_whitespace` moves over
the leading white space, and `scan_unescaped` over the leading bytes that a
string may hold as they are.
-/
import Cobalt.Lib.Cursor
import Cobalt.Json.Lexical
import Cobalt.Json.Sax

namespace Cobalt.Json.Sax

open List Swar
open UInt64 (toNat_and toNat_sub toNat_not toNat_or toNat_inj)

/-! ## Words -/

lemma lanes_eq_mul (c n : Nat) : lanes c n = c * lanes 1 n := by
  induction n with
  | zero => rfl
  | succ n ih => rw [lanes, lanes, ih, mul_add, mul_one, Nat.mul_left_comm]

lemma toNat_load64Le {s : List UInt8} {pos : Nat} (h : pos + 8 ≤ s.length) :
    ((s.drop pos).take 8).length = 8 ∧ (load64Le s pos).toNat = pack ((s.drop pos).take 8) := by
  have hlen : ((s.drop pos).take 8).length = 8 := by
    rw [length_take, length_drop]
    omega
  have hlt := pack_lt ((s.drop pos).take 8)
  rw [hlen] at hlt
  exact ⟨hlen, UInt64.toNat_ofNat_of_lt' hlt⟩

lemma toNat_hasZeroByte (v : UInt64) : (hasZeroByte v).toNat = belowMask 1 8 v.toNat := by
  rw [hasZeroByte, toNat_and, toNat_and, toNat_sub, toNat_not]
  rfl

lemma toNat_hasByte (v : UInt64) (byte : UInt8) :
    (hasByte v byte).toNat = belowMask 1 8 (v.toNat ^^^ lanes byte.toNat 8) := by
  have hpat : (0x0101010101010101 * byte.toUInt64 : UInt64).toNat = lanes byte.toNat 8 := by
    have hb := byte.toNat_lt
    have hones : lanes 1 8 = 0x0101010101010101 := rfl
    rw [UInt64.toNat_mul, lanes_eq_mul, UInt8.toNat_toUInt64, hones,
      show (0x0101010101010101 : UInt64).toNat = 0x0101010101010101 from rfl]
    omega
  rw [hasByte, toNat_hasZeroByte, UInt64.toNat_xor, hpat]

/-- The bytes a string cannot hold as they are. -/
def stops (b : UInt8) : Bool := b == quote || b == backslash || b < 0x20

lemma marks_hasByte {v : UInt64} {bs : List UInt8} (hlen : bs.length = 8)
    (hv : v.toNat = pack bs) (byte : UInt8) :
    Swar.Marks (fun b => b == byte) bs (hasByte v byte).toNat := by
  have h := marks_below (c := 1) (by omega) (bs.map (· ^^^ byte))
  rw [length_map, hlen, ← pack_xor, hlen, ← hv, ← toNat_hasByte] at h
  refine h.of_map.congr fun b => ?_
  rw [Bool.eq_iff_iff, decide_eq_true_iff, beq_iff_eq, Nat.lt_one_iff, UInt8.toNat_xor,
    Nat.xor_eq_zero_iff, UInt8.toNat_inj]

lemma marks_stopMask {v : UInt64} {bs : List UInt8} (hlen : bs.length = 8)
    (hv : v.toNat = pack bs) : Swar.Marks stops bs (stopMask v).toNat := by
  have hctrl := marks_below (c := 0x20) (by omega) bs
  rw [hlen, ← hv] at hctrl
  have hmask : ((v - 0x2020202020202020) &&& ~~~v &&& 0x8080808080808080 : UInt64).toNat =
      belowMask 0x20 8 v.toNat := by
    rw [toNat_and, toNat_and, toNat_sub, toNat_not]
    rfl
  rw [stopMask, toNat_or, toNat_or, hmask]
  exact (((marks_hasByte hlen hv quote).or (marks_hasByte hlen hv backslash)).or hctrl).congr
    fun b => rfl

/-! ## Scanning -/

lemma load64Le_eq_blanks {s : List UInt8} {pos : Nat} (h : pos + 8 ≤ s.length) :
    load64Le s pos = 0x2020202020202020 ↔ (s.drop pos).take 8 = List.replicate 8 0x20 := by
  obtain ⟨hlen, hload⟩ := toNat_load64Le h
  have hblank : pack (List.replicate 8 0x20) = (0x2020202020202020 : UInt64).toNat := rfl
  rw [← toNat_inj, hload, ← hblank]
  exact ⟨pack_inj (by rw [hlen]; rfl), congrArg pack⟩

lemma scanBytes_pos (s : List UInt8) (n : Nat) (r : Scan) (hn : s.length - r.pos ≤ n) :
    (scanBytes s n r).pos = r.pos + ((s.drop r.pos).takeWhile (!stops ·)).length := by
  induction n generalizing r with
  | zero =>
    rw [drop_eq_nil_of_le (by omega)]
    rfl
  | succ n ih =>
    rw [scanBytes]
    split
    · rename_i hlt
      obtain ⟨b, t, hbt⟩ := exists_cons_of_ne_nil (l := s.drop r.pos)
        (by rw [ne_eq, drop_eq_nil_iff]; omega)
      rw [Cursor.getD_of_drop 0 hbt, hbt, takeWhile_cons]
      dsimp only
      rw [show (b == quote || b == backslash || decide (b < 0x20)) = stops b from rfl]
      cases stops b with
      | true => rfl
      | false =>
        simp only [Bool.false_eq_true, if_false, Bool.not_false, if_true]
        rw [ih _ (by simp only; omega)]
        simp only [Cursor.drop_succ_of_drop hbt, length_cons]
        omega
    · rw [drop_eq_nil_of_le (by omega)]
      rfl

lemma length_takeWhile_not (q : UInt8 → Bool) (l : List UInt8) :
    (l.takeWhile (!q ·)).length = l.findIdx q := by
  induction l with
  | nil => rfl
  | cons b l ih =>
    rw [takeWhile_cons, findIdx_cons]
    cases q b with
    | true => rfl
    | false => simp [ih]

lemma scanWords_pos (s : List UInt8) (n : Nat) (r : Scan) (hn : s.length - r.pos < n) :
    (scanWords s n r).pos = r.pos + ((s.drop r.pos).takeWhile (!stops ·)).length := by
  induction n generalizing r with
  | zero => omega
  | succ n ih =>
    rw [scanWords]
    split
    · rename_i hle
      obtain ⟨hlen, hload⟩ := toNat_load64Le hle
      have hmarks := marks_stopMask hlen hload
      have hsplit : s.drop r.pos = (s.drop r.pos).take 8 ++ s.drop (r.pos + 8) := by
        rw [← drop_drop, take_append_drop]
      generalize (s.drop r.pos).take 8 = bs at *
      dsimp only
      split
      · rename_i hmask
        have hne : (stopMask (load64Le s r.pos)).toNat ≠ 0 := by
          rw [ne_eq, ← UInt64.toNat_zero, toNat_inj]
          simpa using hmask
        obtain ⟨hidx, hex⟩ := hmarks.ctz hne
        rw [hlen] at hidx
        rw [hsplit, length_takeWhile_not, findIdx_append, if_pos (findIdx_lt_length.mpr hex),
          Nat.shiftRight_eq_div_pow]
        exact congrArg (r.pos + ·) hidx
      · rename_i hmask
        have hzero : stopMask (load64Le s r.pos) = 0 := by simpa using hmask
        rw [hzero] at hmarks
        have hnone := hmarks.eq_false
        rw [ih _ (by simp only; omega), hsplit, length_takeWhile_not, length_takeWhile_not,
          findIdx_append, if_neg, hlen]
        · simp only
          omega
        · rw [findIdx_lt_length]
          rintro ⟨b, hb, hstop⟩
          rw [hnone b hb] at hstop
          cases hstop
    · exact scanBytes_pos s _ r (le_refl _)

/-- `scan_unescaped` stops at the first byte a string cannot hold. -/
lemma scanUnescaped_pos (s : List UInt8) (pos : Nat) :
    (scanUnescaped s pos).pos = pos + ((s.drop pos).takeWhile (!stops ·)).length :=
  scanWords_pos s _ ⟨pos, []⟩ (Nat.lt_succ_self _)

/-- No read of a scan goes past the end of the input. -/
def Scan.Inside (s : List UInt8) (r : Scan) : Prop := ∀ a ∈ r.reads, a.1 + a.2 ≤ s.length

lemma scanBytes_inside {s : List UInt8} (n : Nat) (r : Scan) (h : r.Inside s) :
    (scanBytes s n r).Inside s := by
  induction n generalizing r with
  | zero => exact h
  | succ n ih =>
    rw [scanBytes]
    split
    · rename_i hlt
      have hread : Scan.Inside s ⟨r.pos, (r.pos, 1) :: r.reads⟩ := forall_mem_cons.mpr ⟨hlt, h⟩
      dsimp only
      split
      · exact hread
      · exact ih _ hread
    · exact h

lemma scanWords_inside {s : List UInt8} (n : Nat) (r : Scan) (h : r.Inside s) :
    (scanWords s n r).Inside s := by
  induction n generalizing r with
  | zero => exact h
  | succ n ih =>
    rw [scanWords]
    split
    · rename_i hle
      have hread : Scan.Inside s ⟨r.pos, (r.pos, 8) :: r.reads⟩ := forall_mem_cons.mpr ⟨hle, h⟩
      dsimp only
      split
      · exact hread
      · exact ih _ hread
    · exact scanBytes_inside _ r h

/-- The scan by words ends at the first quote, backslash or control byte,
as a scan by bytes does, and reads nothing behind the input. -/
theorem scanUnescaped_exact (s : List UInt8) (pos : Nat) :
    (scanUnescaped s pos).pos =
      pos + (s.drop pos).findIdx (fun c => c == quote || c == backslash || decide (c < 0x20)) ∧
    (scanUnescaped s pos).Inside s :=
  ⟨(scanUnescaped_pos s pos).trans (congrArg (pos + ·) (length_takeWhile_not stops _)),
    scanWords_inside _ _ (by simp [Scan.Inside])⟩

/-! ## Moves -/

variable {D : Type}

/-- The parser goes from `p` to `p'` over `l`, and tells the handler of `es`. -/
structure Reads (p : SaxParser D) (l : List UInt8) (es : List (Event D)) (p' : SaxParser D) : Prop where
  str : p'.str = p.str
  rest : p.rest = l ++ p'.rest
  pos : p'.pos = p.pos + l.length
  depth : p'.depth = p.depth
  trace : p'.trace = p.trace ++ es

namespace SaxParser

variable {p : SaxParser D} {s : List UInt8} {b : UInt8}

lemma rest_eq_nil_iff : p.rest = [] ↔ p.len ≤ p.pos := drop_eq_nil_iff

lemma lt_of_rest (h : p.rest = b :: s) : p.pos < p.len := Cursor.lt_of_drop h

lemma load_of_rest (h : p.rest = b :: s) : p.load p.pos = b := Cursor.getD_of_drop 0 h

lemma length_rest : p.rest.length = p.len - p.pos := length_drop

lemma sees_eq (b : UInt8) : p.sees b = (p.rest.head? == some b) := by
  cases h : p.rest with
  | nil =>
    rw [sees, decide_eq_false (Nat.not_lt.mpr (rest_eq_nil_iff.mp h))]
    rfl
  | cons x s =>
    rw [sees, decide_eq_true (lt_of_rest h), load_of_rest h]
    rfl

lemma sees_iff {b : UInt8} : p.sees b = true ↔ ∃ t, p.rest = b :: t := by
  rw [sees_eq, beq_iff_eq]
  constructor
  · intro h
    exact ⟨p.rest.tail, (cons_head?_tail h).symm⟩
  · rintro ⟨t, ht⟩
    rw [ht]
    rfl

lemma seesWord_iff {word : List UInt8} (hw : word ≠ []) :
    p.seesWord word = true ↔ ∃ t, p.rest = word ++ t := by
  have hpos := length_pos_iff.mpr hw
  have hlen := length_rest (p := p)
  rw [seesWord, Bool.and_eq_true, decide_eq_true_iff, beq_iff_eq]
  constructor
  · rintro ⟨-, htake⟩
    exact ⟨p.rest.drop word.length, by rw [← congrArg (· ++ _) htake, take_append_drop]⟩
  · rintro ⟨t, ht⟩
    have := congrArg List.length ht
    rw [length_append] at this
    exact ⟨by omega, by rw [ht, take_left]⟩

end SaxParser

namespace Reads

variable {p p' p'' : SaxParser D} {l l' : List UInt8} {es es' : List (Event D)}

lemma refl (p : SaxParser D) : Reads p [] [] p := ⟨rfl, rfl, rfl, rfl, (append_nil _).symm⟩

lemma trans (h : Reads p l es p') (h' : Reads p' l' es' p'') :
    Reads p (l ++ l') (es ++ es') p'' where
  str := h'.str.trans h.str
  rest := by rw [h.rest, h'.rest, append_assoc]
  pos := by rw [h'.pos, h.pos, length_append, add_assoc]
  depth := h'.depth.trans h.depth
  trace := by rw [h'.trace, h.trace, append_assoc]

lemma advance {n : Nat} {t : List UInt8} (hr : p.rest = l ++ t) (hn : l.length = n) :
    Reads p l [] (p.advance n) := by
  have hrest : (p.advance n).rest = t := hn ▸ Cursor.drop_add_of_drop hr
  exact ⟨rfl, hrest ▸ hr, by rw [hn]; rfl, rfl, (append_nil _).symm⟩

lemma rest_eq {t : List UInt8} (h : Reads p l es p') (hr : p.rest = l ++ t) : p'.rest = t :=
  append_cancel_left (h.rest.symm.trans hr)

lemma len (h : Reads p l es p') : p'.len = p.len := congrArg List.length h.str

lemma pos_le (h : Reads p l es p') (hp : p.pos ≤ p.len) : p'.pos ≤ p'.len := by
  have hrest := congrArg List.length h.rest
  rw [length_append, SaxParser.length_rest, SaxParser.length_rest, h.len] at hrest
  have hpos := h.pos
  have hlen := h.len
  omega

lemma length_rest (h : Reads p l es p') : p.rest.length = l.length + p'.rest.length := by
  rw [h.rest, length_append]

end Reads

open SaxParser

/-! ## White space -/

lemma reads_skipLoop (n : Nat) (p : SaxParser D) (hn : p.rest.length ≤ n) :
    ∃ w, Ws w ∧ Reads p w [] (skipLoop n p) ∧ (skipLoop n p).rest = skip p.rest := by
  induction n generalizing p with
  | zero =>
    have hnil : p.rest = [] := length_eq_zero_iff.mp (Nat.le_zero.mp hn)
    exact ⟨[], ws_nil, .refl p, by rw [skipLoop, hnil]; rfl⟩
  | succ n ih =>
    -- one turn over `w`, white space all of it
    have hturn : ∀ (w : List UInt8) (p1 : SaxParser D), Ws w → w ≠ [] → Reads p w [] p1 →
        ∃ w', Ws w' ∧ Reads p w' [] (skipLoop n p1) ∧ (skipLoop n p1).rest = skip p.rest := by
      intro w p1 hw hne h1
      have hpos := length_pos_iff.mpr hne
      have hlen := h1.length_rest
      obtain ⟨w', hw', hreads, hrest⟩ := ih p1 (by omega)
      exact ⟨w ++ w', ws_append hw hw', h1.trans hreads, by rw [hrest, h1.rest, skip_append hw]⟩
    rw [skipLoop]
    cases hrest : p.rest with
    | nil =>
      rw [if_neg (Nat.not_lt.mpr (rest_eq_nil_iff.mp hrest))]
      exact ⟨[], ws_nil, .refl p, hrest⟩
    | cons b t =>
      rw [← hrest, if_pos (lt_of_rest hrest), load_of_rest hrest]
      split
      · rename_i hword
        rw [Bool.and_eq_true, decide_eq_true_iff, beq_iff_eq] at hword
        have hblank := (load64Le_eq_blanks hword.1).mp hword.2
        refine hturn (List.replicate 8 0x20) _ ?_ (by simp) (.advance (t := p.rest.drop 8) ?_ rfl)
        · intro b hb
          rw [eq_of_mem_replicate hb]
          rfl
        · rw [← hblank]
          exact (take_append_drop 8 p.rest).symm
      · dsimp only
        have hstep : Reads p [b] [] (p.advance 1) := .advance hrest rfl
        split
        · rename_i hb
          refine hturn [b] _ (ws_singleton ?_) (by simp) hstep
          simp only [Bool.or_eq_true, beq_iff_eq] at hb
          rcases hb with (rfl | rfl) | rfl <;> rfl
        · rename_i hb
          split
          · rename_i hnl
            obtain rfl := eq_of_beq hnl
            exact hturn [0x0A] _ (ws_singleton rfl) (by simp)
              ⟨hstep.str, hstep.rest, hstep.pos, hstep.depth, hstep.trace⟩
          · rename_i hnl
            have hws : isWs b = false := by
              simp only [Bool.or_eq_true, beq_iff_eq, not_or] at hb hnl
              simp [isWs, hb.1.1, hb.1.2, hb.2, hnl]
            exact ⟨[], ws_nil, .refl p, by rw [hrest, skip_cons_of_not hws]⟩

/-- `skip_whitespace` moves over the white space at the cursor. -/
lemma reads_skip (p : SaxParser D) :
    ∃ w, Ws w ∧ Reads p w [] (skipWhitespace p) ∧ (skipWhitespace p).rest = skip p.rest :=
  reads_skipLoop _ p (le_of_eq length_rest)

/-! ## Segments of a string -/

/-- The bytes of a string up to the first that needs care. -/
def plainRun (s : List UInt8) : List UInt8 := s.takeWhile (!stops ·)

lemma segLen_eq (p : SaxParser D) :
    (scanUnescaped p.str p.pos).pos - p.pos = (plainRun p.rest).length := by
  rw [scanUnescaped_pos, Nat.add_sub_cancel_left]
  rfl

lemma reads_segment (p : SaxParser D) :
    p.rest.take (plainRun p.rest).length = plainRun p.rest ∧
      Reads p (plainRun p.rest) [] (p.advance (plainRun p.rest).length) := by
  have hsplit : p.rest = plainRun p.rest ++ p.rest.dropWhile (!stops ·) :=
    (takeWhile_append_dropWhile).symm
  exact ⟨(prefix_iff_eq_take.mp ( takeWhile_prefix _)).symm, .advance hsplit rfl⟩

/-! ## The handler -/

/-- A callback that is `NULL` or always answers `true`. -/
def Callback.Accepts (cb : Callback D) : Prop := ∀ f, cb = some f → ∀ es, f es = true

/-- Every callback is `NULL` or always answers `true`. -/
structure Handler.Accepts (h : Handler D) : Prop where
  onNull : Callback.Accepts h.onNull
  onBool : Callback.Accepts h.onBool
  onNumber : Callback.Accepts h.onNumber
  onString : Callback.Accepts h.onString
  onKey : Callback.Accepts h.onKey
  onStartObject : Callback.Accepts h.onStartObject
  onEndObject : Callback.Accepts h.onEndObject
  onStartArray : Callback.Accepts h.onStartArray
  onEndArray : Callback.Accepts h.onEndArray

/-- The callback for an event. -/
def Handler.callback (h : Handler D) : Event D → Callback D
  | .null => h.onNull
  | .bool _ => h.onBool
  | .number _ _ => h.onNumber
  | .string _ => h.onString
  | .key _ => h.onKey
  | .startObject => h.onStartObject
  | .endObject => h.onEndObject
  | .startArray => h.onStartArray
  | .endArray => h.onEndArray

/-- Whether the handler has a callback for an event. -/
def Handler.listens (h : Handler D) (e : Event D) : Bool := (h.callback e).isSome

/-- The events of `es` the handler is told of. -/
def Handler.hears (h : Handler D) (es : List (Event D)) : List (Event D) := es.filter h.listens

section Handler

variable {handler : Handler D} {p p' : SaxParser D}

lemma Handler.Accepts.callback (h : handler.Accepts) (e : Event D) :
    Callback.Accepts (handler.callback e) := by
  cases e with
  | null => exact h.onNull
  | bool => exact h.onBool
  | number => exact h.onNumber
  | string => exact h.onString
  | key => exact h.onKey
  | startObject => exact h.onStartObject
  | endObject => exact h.onEndObject
  | startArray => exact h.onStartArray
  | endArray => exact h.onEndArray

lemma call_sound {e : Event D} (h : p.call (handler.callback e) e = (true, p')) :
    Reads p [] (handler.hears [e]) p' := by
  unfold call at h
  cases hcb : handler.callback e with
  | none =>
    rw [hcb] at h
    cases h
    rw [Handler.hears, filter_cons_of_neg (by simp [Handler.listens, hcb])]
    exact .refl p
  | some f =>
    rw [hcb] at h
    rw [Handler.hears, filter_cons_of_pos (by simp [Handler.listens, hcb])]
    obtain rfl := (Prod.mk.inj h).2
    exact ⟨rfl, rfl, rfl, rfl, rfl⟩

lemma emit_sound {e : Event D} {msg : String}
    (h : p.emit (handler.callback e) e msg = (true, p')) : Reads p [] (handler.hears [e]) p' := by
  rw [emit] at h
  split at h
  · rename_i hcall
    cases h
    exact call_sound hcall
  · cases h

lemma call_complete (h : handler.Accepts) (e : Event D) :
    ∃ p', p.call (handler.callback e) e = (true, p') := by
  unfold call
  cases hcb : handler.callback e with
  | none => exact ⟨p, rfl⟩
  | some f => exact ⟨_, Prod.ext (h.callback e f hcb _) rfl⟩

lemma emit_complete (h : handler.Accepts) (e : Event D) (msg : String) :
    ∃ p', p.emit (handler.callback e) e msg = (true, p') ∧ Reads p [] (handler.hears [e]) p' := by
  obtain ⟨p', hcall⟩ := call_complete (p := p) h e
  exact ⟨p', by rw [emit, hcall], call_sound hcall⟩

end Handler

end Cobalt.Json.Sax
