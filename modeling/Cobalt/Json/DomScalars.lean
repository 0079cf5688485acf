/-
Cobalt.Json.DomScalars — the DOM parser on strings, numbers and literals.

For each scalar of the grammar: with the cursor on its text, the parser
returns the node that denotes it and leaves the cursor right after it. The
string case rests on two facts about growth. A buffer that grows keeps its
bytes, because each new block is at least twice as long as what has been
written (`growForEscape_keeps`, `growForByte_keeps`); and the bit
operations of the UTF-8 encoder are the divisions of `utf8`.
-/
import Cobalt.Json.DomRun

namespace Cobalt.Json

open List Option Bool

/-! ## Hexadecimal digits -/

variable {b a d c' x : UInt8}

/-- What the prefix tests of `strtol` look at is never a hexadecimal digit. -/
lemma hexVal?_some_range {v : Nat} (h : hexVal? b = some v) :
    isSpaceC b = false ∧ b ≠ 0x2D ∧ b ≠ 0x2B ∧ b ≠ 0x78 ∧ b ≠ 0x58 := by
  revert h
  simp only [hexVal?, isSpaceC, ← UInt8.toNat_inj, UInt8.le_iff_toNat_le, ne_eq,
    and_eq_true, decide_eq_true_eq, or_eq_false_iff, and_eq_false_iff,
    decide_eq_false_iff_not, beq_eq_false_iff_ne]
  intro h
  have hb : 0x30 ≤ b.toNat ∧ b.toNat ≤ 0x39 ∨ 0x61 ≤ b.toNat ∧ b.toNat ≤ 0x66
      ∨ 0x41 ≤ b.toNat ∧ b.toNat ≤ 0x46 := by
    split at h
    · left; rename_i hb; simpa using hb
    · split at h
      · right; left; rename_i hb; simpa using hb
      · split at h
        · right; right; rename_i hb; simpa using hb
        · cases h
  simp
  omega

lemma strtol16_hex4 {c : UInt8} {v : Nat} (h : hex4? a b c d = some v) :
    toUnsigned (strtol16 [a, b, c, d]) = v := by
  have hlt := hex4?_lt h
  obtain ⟨va, vb, vc, vd, ha, hb, hc, hd, rfl⟩ := hex4?_eq_some h
  obtain ⟨hs, h2d, h2b, -, -⟩ := hexVal?_some_range ha
  obtain ⟨-, -, -, h78, h58⟩ := hexVal?_some_range hb
  have hval : strtol16 [a, b, c, d] = ((((va * 16 + vb) * 16 + vc) * 16 + vd : Nat) : Int) := by
    simp [strtol16, strtolSign, strtolPrefix, strtolDigits, hs, h2d, h2b, h78, h58, ha, hb, hc, hd]
  rw [hval, toUnsigned]
  omega

/-! ## UTF-8 -/

/-- The encoder of the parser is UTF-8 up to the last code point. -/
lemma escapedUtf8_eq {u : Nat} (h : u < 0x110000) : escapedUtf8 u = utf8 u := by
  have h6 : u >>> 6 = u / 0x40 := Nat.shiftRight_eq_div_pow u 6
  have h12 : u >>> 12 = u / 0x1000 := Nat.shiftRight_eq_div_pow u 12
  have h18 : u >>> 18 = u / 0x40000 := Nat.shiftRight_eq_div_pow u 18
  simp only [escapedUtf8, utf8, cont_byte, h6, h12, h18]
  split
  · rfl
  · split
    · have h0 : 0xC0 ||| u / 0x40 = 0xC0 + u / 0x40 := or_eq_add (a := 3) 6 (by omega)
      rw [h0]
    · split
      · have h0 : 0xE0 ||| u / 0x1000 = 0xE0 + u / 0x1000 := or_eq_add (a := 7) 5 (by omega)
        rw [h0]
      · have h0 : 0xF0 ||| u / 0x40000 = 0xF0 + u / 0x40000 := or_eq_add (a := 15) 4 (by omega)
        rw [h0]

/-! ## Escapes -/

variable {t o m l : List UInt8}

namespace Ctx.At

variable {c : Ctx} {s : List UInt8} {k : Nat}

lemma loadRange (i : Nat) {w : List UInt8} (h : c.At (w ++ (t ++ s)) k) (hw : w.length = i) :
    c.loadRange (c.pos + i) t.length = (t, c.record (.text (c.pos + i) t.length)) := by
  have hd : c.str.drop (c.pos + i) = t ++ s := by
    rw [← drop_drop, ← Ctx.rest, h.rest, ← hw, drop_left]
  rw [Ctx.loadRange, hd, take_left]

lemma unicodeEscape_single (h : c.At (x :: a :: b :: c' :: d :: s) k) (hs : s ≠ [])
    (hv : (hex4? a b c' d).isSome) (hhi : isHigh (unit a b c' d) = false)
    (hlo : isLow (unit a b c' d) = false) :
    ∃ c1, unicodeEscape c = (some (utf8 (unit a b c' d)), c1) ∧ c1.At (d :: s) k := by
  obtain ⟨v, hv⟩ := isSome_iff_exists.mp hv
  have hu : unit a b c' d = v := by rw [unit, hv]; rfl
  have hlen : c.len - c.pos = s.length + 5 := by rw [← length_rest, h.rest]; rfl
  have hpos : 0 < s.length := length_pos_iff.mpr hs
  have hload := loadRange (c := c) (w := [x]) (t := [a, b, c', d]) (s := s) 1 h rfl
  simp only [length_cons, length_nil, zero_add, Nat.reduceAdd] at hload
  rw [hu] at hhi hlo ⊢
  simp only [isHigh, isLow] at hhi hlo
  refine ⟨(c.record (.text (c.pos + 1) 4)).advance 4, ?_,
    (h.record _).advance (w := [x, a, b, c']) rfl⟩
  rw [unicodeEscape, if_neg (by omega), hload]
  simp only [strtol16_hex4 hv, hhi, hlo, false_eq_true, if_false,
    escapedUtf8_eq (lt_trans (hex4?_lt hv) (by decide))]

lemma unicodeEscape_pair {a' b' c'' d' : UInt8}
    (h : c.At (x :: a :: b :: c' :: d :: backslash :: 0x75 :: a' :: b' :: c'' :: d' :: s) k)
    (hs : s ≠ []) (hv : (hex4? a b c' d).isSome) (hv' : (hex4? a' b' c'' d').isSome)
    (hhi : isHigh (unit a b c' d) = true) (hlo : isLow (unit a' b' c'' d') = true) :
    ∃ c1, unicodeEscape c
        = (some (utf8 (pairPoint (unit a b c' d) (unit a' b' c'' d'))), c1)
      ∧ c1.At (d' :: s) k := by
  obtain ⟨v, hv⟩ := isSome_iff_exists.mp hv
  obtain ⟨v', hv'⟩ := isSome_iff_exists.mp hv'
  have hu : unit a b c' d = v := by rw [unit, hv]; rfl
  have hu' : unit a' b' c'' d' = v' := by rw [unit, hv']; rfl
  have hlen : c.len - c.pos = s.length + 11 := by rw [← length_rest, h.rest]; rfl
  have hpos : 0 < s.length := length_pos_iff.mpr hs
  have h5 : c.str.getD (c.pos + 5) 0 = backslash :=
    getD_add_of_rest (w := [x, a, b, c', d]) 5 h.rest rfl
  have h6 : c.str.getD (c.pos + 6) 0 = 0x75 :=
    getD_add_of_rest (w := [x, a, b, c', d, backslash]) 6 h.rest rfl
  have hload := loadRange (c := c) (w := [x]) (t := [a, b, c', d])
    (s := backslash :: 0x75 :: a' :: b' :: c'' :: d' :: s) 1 h rfl
  have hload' := loadRange (c := c) (w := [x, a, b, c', d, backslash, 0x75])
    (t := [a', b', c'', d']) (s := s) 7 h rfl
  simp only [length_cons, length_nil, zero_add, Nat.reduceAdd] at hload hload'
  rw [hu] at hhi ⊢
  rw [hu'] at hlo ⊢
  simp only [isHigh, isLow] at hhi hlo
  have hle : v' ≤ 0xDFFF := by simp at hlo; exact hlo.2
  have hle' : v ≤ 0xDBFF := by simp at hhi; exact hhi.2
  refine ⟨_, ?_, (((h.record (.text (c.pos + 1) 4)).record (.text (c.pos + 5) 1)).record
    (.text (c.pos + 6) 1) |>.record (.text (c.pos + 7) 4)).advance
    (w := [x, a, b, c', d, backslash, 0x75, a', b', c'']) (n := 10) rfl⟩
  rw [unicodeEscape, if_neg (by omega), hload]
  simp only [strtol16_hex4 hv, hhi, if_true, len_record, pos_record]
  rw [if_pos (by omega)]
  have h7 : (c.str.drop (c.pos + 7)).take 4 = [a', b', c'', d'] := congrArg Prod.fst hload'
  simp only [Ctx.load, Ctx.loadRange, Ctx.record, h5, h6, h7, strtol16_hex4 hv', hlo,
    beq_self_eq_true, if_true, pairPoint_eq hle, escapedUtf8_eq (pairPoint_lt hle' hle)]

end Ctx.At

/-! ## Strings -/

/-- There is room for the terminator. -/
def StrBuf.Room (buf : StrBuf) : Prop := buf.bytes.length + 1 ≤ buf.cap

lemma escapeCap_ge {len elen : Nat} (hl : len < 2 ^ 63) (he : elen ≤ 4) :
    len + elen + 1 ≤ escapeCap len elen ∧ len ≤ escapeCap len elen / 2 := by
  have hneed : ¬ len > sizeMax - elen - 1 := by unfold sizeMax; omega
  simp only [escapeCap, if_neg hneed]
  constructor <;> split <;> unfold sizeMax at * <;> omega

lemma byteCap_ge {len cap : Nat} (hl : len < 2 ^ 63) (hc : len + 1 ≤ cap) :
    len + 2 ≤ byteCap cap ∧ len ≤ byteCap cap / 2 := by
  unfold byteCap
  constructor <;> split <;> unfold sizeMax at * <;> omega

section Strings

variable {buf : StrBuf} {c : Ctx} {s : List UInt8} {k : Nat}

lemma jrealloc_keeps {newSize : Nat} (hn : buf.bytes.length ≤ newSize / 2) (h : c.At s k) :
    ∃ c', jrealloc granting buf newSize c = (some ⟨newSize, buf.bytes⟩, c') ∧ c'.At s k := by
  obtain ⟨c1, hc1, h1⟩ := h.jalloc newSize
  refine ⟨_, ?_, (h1.touch buf.cap 0 (newSize / 2)).touch newSize 0 (newSize / 2)⟩
  simp only [jrealloc, hc1, if_true, take_of_length_le hn]

lemma growForEscape_keeps (buf : StrBuf) (hb : buf.bytes.length < 2 ^ 63) {elen : Nat} (he : elen ≤ 4)
    (h : c.At s k) :
    ∃ cap c', growForEscape granting buf elen c = (some ⟨cap, buf.bytes⟩, c')
      ∧ buf.bytes.length + elen + 1 ≤ cap ∧ c'.At s k := by
  rw [growForEscape]
  split
  · obtain ⟨hcap, hhalf⟩ := escapeCap_ge hb he
    obtain ⟨c', hc', h'⟩ := jrealloc_keeps hhalf h
    exact ⟨_, c', hc', hcap, h'⟩
  · exact ⟨buf.cap, c, rfl, by omega, h⟩

lemma growForByte_keeps (hb : buf.bytes.length < 2 ^ 63) (hr : buf.Room) (h : c.At s k) :
    ∃ cap c', growForByte granting buf c = (some ⟨cap, buf.bytes⟩, c')
      ∧ buf.bytes.length + 2 ≤ cap ∧ c'.At s k := by
  rw [growForByte]
  split
  · obtain ⟨hcap, hhalf⟩ := byteCap_ge hb hr
    obtain ⟨c', hc', h'⟩ := jrealloc_keeps hhalf h
    exact ⟨_, c', hc', hcap, h'⟩
  · exact ⟨buf.cap, c, rfl, by omega, h⟩

lemma utf8_length_le (u : Nat) (hu : u < 0x10000) : (utf8 u).length ≤ 3 := by
  simp only [utf8]
  split
  · simp
  · split
    · simp
    · simp

lemma utf8_length_le_four (u : Nat) : (utf8 u).length ≤ 4 := by
  simp only [utf8]
  split
  · simp
  · split
    · simp
    · split <;> simp

/-- The string loop turns `text`, up to a closing quote, into `out`. -/
def LoopReads (text out : List UInt8) (k : Nat) : Prop :=
  ∀ (buf : StrBuf) (c : Ctx) (n : Nat) (r : List UInt8),
    text.length < n → buf.bytes.length + text.length < 2 ^ 63 → buf.Room →
    c.At (text ++ quote :: r) k →
    ∃ cap c', jsonParseStringLoop granting n buf c = (some ⟨cap, buf.bytes ++ out⟩, c')
      ∧ c'.At (quote :: r) k

lemma LoopReads.nil : LoopReads [] [] k := by
  intro buf c n r hn _ _ h
  obtain ⟨n, rfl⟩ := Nat.exists_eq_add_of_lt hn
  have h' : c.At (quote :: r) k := h
  refine ⟨buf.cap, c.record (.text c.pos 1), ?_, h'.record _⟩
  rw [jsonParseStringLoop, if_pos h'.lt, h'.load]
  simp

lemma LoopReads.byte (hq : b ≠ quote) (hs : b ≠ backslash) (ht : LoopReads t o k) :
    LoopReads (b :: t) (b :: o) k := by
  intro buf c n r hn hlen hr h
  obtain ⟨n, rfl⟩ := Nat.exists_eq_add_of_lt hn
  have h' : c.At (b :: (t ++ quote :: r)) k := h
  rw [length_cons] at hlen
  obtain ⟨cap, c1, hg, hcap, h1⟩ := growForByte_keeps (by omega) hr (h'.record (.text c.pos 1))
  obtain ⟨cap', c', hl, hat⟩ := ht ⟨cap, buf.bytes ++ [b]⟩
    ((c1.touch cap buf.bytes.length 1).advance 1) ((b :: t).length + n) r
    (by simp; omega) (by simp; omega) (by simp [StrBuf.Room]; omega) (h1.touch _ _ _).step
  refine ⟨cap', c', ?_, hat⟩
  rw [jsonParseStringLoop, if_pos h'.lt, h'.load]
  simp only [beq_eq_false_iff_ne.mpr hq, beq_eq_false_iff_ne.mpr hs, false_eq_true,
    if_false, appendByte, hg, StrBuf.append]
  rw [hl]
  simp

/-- A turn of the loop on an escape, given what `jsonEscape` makes of it:
`e` is the byte after the backslash and `m` the rest of the escape. -/
lemma LoopReads.escape {e : UInt8} (esc : List UInt8) (he : esc.length ≤ 4)
    (hm : esc.length ≤ m.length + 2)
    (hesc : ∀ (c : Ctx) (s : List UInt8), s ≠ [] → c.At (e :: (m ++ s)) k →
      ∃ x c1, jsonEscape e c = (some esc, c1) ∧ c1.At (x :: s) k) (ht : LoopReads t o k) :
    LoopReads (backslash :: e :: (m ++ t)) (esc ++ o) k := by
  intro buf c n r hn hlen hr h
  obtain ⟨n, rfl⟩ := Nat.exists_eq_add_of_lt hn
  have h' : c.At (backslash :: e :: (m ++ (t ++ quote :: r))) k := by simpa using h
  simp only [length_cons, length_append] at hlen
  have hstep := (h'.record (.text c.pos 1)).step
  obtain ⟨x, c1, hx, h1⟩ := hesc _ _ (by simp) (hstep.record (.text (c.pos + 1) 1))
  obtain ⟨cap, c2, hg, hcap, h2⟩ := growForEscape_keeps buf (by omega) he h1
  obtain ⟨cap', c', hl, hat⟩ := ht ⟨cap, buf.bytes ++ esc⟩
    ((c2.touch cap buf.bytes.length esc.length).advance 1)
    ((backslash :: e :: (m ++ t)).length + n) r
    (by simp; omega) (by simp; omega) (by simpa [StrBuf.Room] using hcap) (h2.touch _ _ _).step
  refine ⟨cap', c', ?_, hat⟩
  rw [jsonParseStringLoop, if_pos h'.lt, h'.load]
  simp only
  rw [if_neg (by decide), if_pos (by decide), appendEscape]
  simp only
  rw [if_neg (Nat.not_le.mpr hstep.lt), hstep.load]
  simp only [Ctx.pos_advance, Ctx.pos_record, hx, hg, StrBuf.append]
  rw [hl]
  simp

lemma LoopReads.unicode {esc : List UInt8} (he : esc.length ≤ 4) (hm : esc.length ≤ m.length)
    (hesc : ∀ (c : Ctx) (s : List UInt8), s ≠ [] → c.At (0x75 :: (m ++ s)) k →
      ∃ x c1, unicodeEscape c = (some esc, c1) ∧ c1.At (x :: s) k) (ht : LoopReads t o k) :
    LoopReads (backslash :: 0x75 :: (m ++ t)) (esc ++ o) k := by
  refine LoopReads.escape esc he (by omega) ?_ ht
  intro c s hs h
  obtain ⟨x, c1, hc, h1⟩ := hesc c s hs h
  exact ⟨x, c1, by rw [jsonEscape, show escByte? 0x75 = none by decide]; exact hc, h1⟩

/-- A `\u` escape that is not a surrogate. -/
lemma LoopReads.single (hv : (hex4? a b c' d).isSome) (hhi : isHigh (unit a b c' d) = false)
    (hlo : isLow (unit a b c' d) = false) (ht : LoopReads t o k) :
    LoopReads (backslash :: 0x75 :: a :: b :: c' :: d :: t) (utf8 (unit a b c' d) ++ o) k := by
  have hlen := utf8_length_le _ (unit_lt a b c' d)
  refine LoopReads.unicode (m := [a, b, c', d]) (Nat.le_succ_of_le hlen)
    (Nat.le_succ_of_le hlen) ?_ ht
  intro c s hs h
  exact ⟨d, h.unicodeEscape_single hs hv hhi hlo⟩

lemma loopReads_chars (cs : List StrChar) (hv : ValidChars cs) (hp : paired cs = true) :
    LoopReads (charsText cs) (decode cs) k := by
  induction cs using decode.induct with
  | case1 => exact LoopReads.nil
  | case2 b cs ih =>
    obtain ⟨⟨-, hq⟩, hs⟩ : (0x20 ≤ b ∧ b ≠ quote) ∧ b ≠ backslash := by
      simpa [StrChar.valid] using hv _ (mem_cons_self ..)
    rw [decode]
    exact (ih (fun x hx => hv x (mem_cons_of_mem _ hx)) hp).byte hq hs
  | case3 e cs ih =>
    obtain ⟨x, hx⟩ : ∃ x, escByte? e = some x := isSome_iff_exists.mp (hv _ (mem_cons_self ..))
    rw [decode, hx]
    refine LoopReads.escape (m := []) [x] (by simp) (by simp) ?_
      (ih (fun x hx => hv x (mem_cons_of_mem _ hx)) hp)
    intro c s _ h
    exact ⟨e, c, by rw [jsonEscape, hx], h⟩
  | case4 a b c' d a' b' c'' d' cs hif ih =>
    obtain ⟨hhi, hlo⟩ := and_eq_true_iff.mp hif
    have hv1 : (StrChar.uni a b c' d).valid = true := hv _ (by simp)
    have hv2 : (StrChar.uni a' b' c'' d').valid = true := hv _ (by simp)
    have hp' : paired cs = true := by simpa only [paired, hhi, if_true, hlo, Bool.true_and] using hp
    rw [decode, if_pos hif]
    refine LoopReads.unicode (m := [a, b, c', d, backslash, 0x75, a', b', c'', d'])
      (utf8_length_le_four _) (le_trans (utf8_length_le_four _) (by simp)) ?_
      (ih (fun x hx => hv x (by simp [hx])) hp')
    intro c s hs h
    exact ⟨d', h.unicodeEscape_pair hs hv1 hv2 hhi hlo⟩
  | case5 a b c' d a' b' c'' d' cs hif ih =>
    have hhi : isHigh (unit a b c' d) = false := by
      cases hh : isHigh (unit a b c' d) with
      | false => rfl
      | true =>
        simp only [paired, hh, if_true, and_eq_true] at hp
        rw [hh, hp.1] at hif
        exact absurd rfl hif
    obtain ⟨hlo, hp'⟩ :
        isLow (unit a b c' d) = false ∧ paired (.uni a' b' c'' d' :: cs) = true := by
      simpa only [paired, hhi, false_eq_true, if_false, and_eq_true, not_eq_true'] using hp
    rw [decode, if_neg hif]
    exact (ih (fun x hx => hv x (mem_cons_of_mem _ hx)) hp').single
      (hv (.uni a b c' d) (by simp)) hhi hlo
  | case6 a b c' d cs hcs ih =>
    obtain ⟨⟨hhi, hlo⟩, hp'⟩ :
        (isHigh (unit a b c' d) = false ∧ isLow (unit a b c' d) = false) ∧ paired cs = true := by
      rw [paired] at hp
      · simpa only [and_eq_true, not_eq_true'] using hp
      · exact hcs
    rw [decode]
    · exact (ih (fun x hx => hv x (mem_cons_of_mem _ hx)) hp').single
        (hv (.uni a b c' d) (by simp)) hhi hlo
    · exact hcs

/-- A string literal without unpaired surrogates is read as what it denotes. -/
lemma jsonParseString_literal {cs : List StrChar} {r : List UInt8}
    (hv : ValidChars cs) (hp : paired cs = true) (h : c.At (stringText cs ++ r) k) :
    ∃ c', jsonParseString granting c = (some (decode cs), c') ∧ c'.At r k := by
  obtain ⟨c1, ht, h1⟩ := h.test quote
  obtain ⟨c2, ha, h2⟩ :=
    (h1.step.record (.literal (c1.advance 1).pos (c1.advance 1).requests)).jalloc 64
  have hat : c2.At (charsText cs ++ quote :: r) k := by simpa [stringText] using h2
  have hlen : (charsText cs).length + 1 + r.length = c2.len - c2.pos := by
    rw [← Ctx.length_rest, hat.rest]; simp; omega
  obtain ⟨cap, c3, hl, h3⟩ := loopReads_chars (k := k) cs hv hp ⟨64, []⟩ c2 (c2.len - c2.pos + 1) r
    (by omega) (by have := hat.fits; simp; omega) (by simp [StrBuf.Room]) hat
  refine ⟨_, ?_, h3.step.touch cap (decode cs).length 1⟩
  have hbeq : ((stringText cs ++ r).head? == some quote) = true := by simp [stringText]
  rw [jsonParseString, ht, hbeq]
  simp only [ha, hl, nil_append]
  rw [if_neg (Nat.not_le.mpr h3.lt)]

end Strings

/-! ## Numbers -/

section Numbers

variable {c : Ctx} {s : List UInt8} {k : Nat}

lemma Ctx.At.testEither (h : c.At s k) (a b : UInt8) :
    ∃ c', c.testEither a b = (s.head? == some a || s.head? == some b, c') ∧ c'.At s k := by
  obtain ⟨c1, ht, h1⟩ := h.test a
  rw [Ctx.testEither, ht]
  cases ha : (s.head? == some a) with
  | true => exact ⟨c1, rfl, h1⟩
  | false => exact h1.test b

lemma scanMinus_at (hm : Minus m) (hs : s.head? ≠ some 0x2D) (h : c.At (m ++ s) k) :
    (scanMinus c).At s k := by
  obtain ⟨c1, ht, h1⟩ := h.test 0x2D
  rw [scanMinus, ht]
  rcases hm with rfl | rfl
  · rw [nil_append, beq_eq_false_iff_ne.mpr hs]; exact h1
  · exact h1.step

lemma scanFrac_at {f : List UInt8} (hf : Frac f) (hs : NumberEnd s ∨ ∃ e t, s = e :: t ∧
    (e = 0x65 ∨ e = 0x45)) (h : c.At (f ++ s) k) : (scanFrac c).At s k := by
  have hdig : ∀ b ∈ s.head?, isDigit b = false ∧ b ≠ 0x2E := by
    rcases hs with hs | ⟨e, t, rfl, he⟩
    · exact fun b hb => ⟨(hs b hb).1, (hs b hb).2.1⟩
    · intro b hb
      obtain rfl : e = b := by simpa using hb
      rcases he with rfl | rfl <;> decide
  obtain ⟨c1, ht, h1⟩ := h.test 0x2E
  rw [scanFrac, ht]
  rcases hf with rfl | ⟨ds, rfl, hds⟩
  · have hne : s.head? ≠ some 0x2E := fun heq => (hdig _ heq).2 rfl
    rw [nil_append, beq_eq_false_iff_ne.mpr hne]
    exact h1
  · have h2 := (Ctx.At.step (s := ds ++ s) h1).scan isDigit
    rw [dropWhile_digits hds.2 fun b hb => (hdig b hb).1] at h2
    exact h2

lemma scanExp_at {e : List UInt8} (he : Exponent e) (hs : NumberEnd s)
    (h : c.At (e ++ s) k) : (scanExp c).At s k := by
  obtain ⟨c1, ht, h1⟩ := h.testEither 0x65 0x45
  rw [scanExp, ht]
  rcases he with rfl | ⟨x, sign, ds, rfl, hx, hsign, hds⟩
  · have hne : (s.head? == some 0x65 || s.head? == some 0x45) = false := by
      simp only [or_eq_false_iff, beq_eq_false_iff_ne]
      exact ⟨fun heq => (hs _ heq).2.2.1 rfl, fun heq => (hs _ heq).2.2.2 rfl⟩
    rw [nil_append, hne]
    exact h1
  · have hx' : ((x :: (sign ++ ds) ++ s).head? == some 0x65
        || (x :: (sign ++ ds) ++ s).head? == some 0x45) = true := by
      rcases hx with rfl | rfl <;> rfl
    rw [hx']
    have h2 : (c1.advance 1).At (sign ++ (ds ++ s)) k := by
      rw [← append_assoc]; exact Ctx.At.step h1
    obtain ⟨c3, ht3, h3⟩ := h2.testEither 0x2B 0x2D
    simp only [ht3]
    have hscan : ∀ c' : Ctx, c'.At (ds ++ s) k → (scan isDigit c').At s k := by
      intro c' h'
      have := h'.scan isDigit
      rwa [dropWhile_digits hds.2 fun b hb => (hs b hb).1] at this
    rcases hsign with rfl | rfl | rfl
    · obtain ⟨b, t, hbt⟩ := exists_cons_of_ne_nil hds.1
      have hb : isDigit b = true := hds.2 b (by simp [hbt])
      have hf : (([] ++ (ds ++ s)).head? == some 0x2B || ([] ++ (ds ++ s)).head? == some 0x2D)
          = false := by
        simp only [hbt, nil_append, cons_append, head?_cons, or_eq_false_iff,
          beq_eq_false_iff_ne, ne_eq, Option.some.injEq]
        constructor <;> (rintro rfl; revert hb; decide)
      rw [hf]
      exact hscan c3 h3
    · exact hscan _ (Ctx.At.step h3)
    · exact hscan _ (Ctx.At.step h3)

lemma jsonScanNumber_at (hl : Number l) (hs : NumberEnd s) (h : c.At (l ++ s) k) :
    (jsonScanNumber c).At s k := by
  obtain ⟨m, i, f, e, rfl, hm, hi, hf, he⟩ := hl
  have hd := hi.digits
  obtain ⟨b, t, hbt⟩ := exists_cons_of_ne_nil hd.1
  have hb : isDigit b = true := hd.2 b (by simp [hbt])
  rw [jsonScanNumber]
  apply scanExp_at he hs
  apply scanFrac_at hf (he.head hs)
  have hminus : (scanMinus c).At (i ++ (f ++ (e ++ s))) k := by
    apply scanMinus_at hm
    · rw [hbt]
      simp only [cons_append, head?_cons, ne_eq, Option.some.injEq]
      rintro rfl
      revert hb; decide
    · simpa using h
  have hscan := hminus.scan isDigit
  rw [dropWhile_digits hd.2 (hf.head he hs)] at hscan
  exact hscan

/-- `json_node_create` when memory is there. -/
lemma Ctx.At.jsonNodeCreate {D : Type} (h : c.At s k) (ty : NodeType) (v : NodeValue D) :
    ∃ c', jsonNodeCreate granting ty v c = (.leaf ty v, c') ∧ c'.At s k := by
  obtain ⟨c', hc', h'⟩ := h.jalloc nodeSize
  exact ⟨c', by rw [Json.jsonNodeCreate, hc'], h'⟩

lemma jsonParseNumber_lexeme {D : Type} (strtod : List UInt8 → D) (hl : Number l)
    (hs : NumberEnd s) (h : c.At (l ++ s) k) :
    ∃ c', jsonParseNumber granting strtod c = (.leaf .number (.number (strtod l)), c')
      ∧ c'.At s k := by
  have hscan := jsonScanNumber_at hl hs h
  have hext := ext_scanNumber c
  obtain ⟨c1, ha, h1⟩ := hscan.jalloc ((jsonScanNumber c).pos - c.pos + 1)
  -- the scan stops right after the lexeme, so what is copied is the lexeme
  have hlen : l.length + s.length = c.len - c.pos := by
    rw [← Ctx.length_rest, h.rest, length_append]
  have hlen' : s.length = c.len - (jsonScanNumber c).pos := by
    rw [← hext.len, ← Ctx.length_rest, hscan.rest]
  have hpos : 0 < l.length := length_pos_iff.mpr hl.ne_nil
  have hle := hext.le (by omega)
  have hnum : (jsonScanNumber c).pos - c.pos = l.length := by omega
  have hstr : c1.str = c.str := (ext_jalloc granting ha).str.trans hext.str
  have hcopy : (c1.str.drop c.pos).take l.length = l := by
    rw [hstr, ← Ctx.rest, h.rest, take_left]
  rw [hnum] at ha
  obtain ⟨c2, hn, h2⟩ := (((h1.record (.text c.pos l.length)).touch (l.length + 1) 0 l.length).touch
    (l.length + 1) l.length 1).jsonNodeCreate .number (.number (strtod l))
  refine ⟨c2, ?_, h2⟩
  rw [jsonParseNumber]
  simp only [hnum, ha, Ctx.loadRange, hcopy]
  exact hn

end Numbers

/-! ## Literals -/

section Words

variable {c : Ctx} {s : List UInt8} {k : Nat}

lemma Ctx.At.matchWord (h : c.At s k) (word : List UInt8) (hw : word ≠ []) :
    ∃ c', c.matchWord word = (s.take word.length == word, c') ∧ c'.At s k := by
  have hpos : 0 < word.length := length_pos_iff.mpr hw
  have hlen : s.length = c.len - c.pos := by rw [← Ctx.length_rest, h.rest]
  rw [Ctx.matchWord]
  split
  · refine ⟨_, ?_, h.record (.text c.pos word.length)⟩
    rw [Ctx.loadRange, ← Ctx.rest, h.rest]
  · refine ⟨c, ?_, h⟩
    have hne : s.take word.length ≠ word := by
      intro heq
      have := congrArg List.length heq
      rw [length_take] at this
      omega
    rw [beq_eq_false_iff_ne.mpr hne]

variable {D : Type}

lemma jsonParseWord_true (h : c.At (trueText ++ s) k) :
    ∃ c', jsonParseWord (D := D) granting c = (.leaf .true .zero, c') ∧ c'.At s k := by
  obtain ⟨c1, ht, h1⟩ := h.matchWord trueText (by decide)
  obtain ⟨c2, hn, h2⟩ := (h1.advance (n := 4) rfl).jsonNodeCreate (D := D) .true .zero
  rw [take_left, beq_self_eq_true] at ht
  exact ⟨c2, by rw [jsonParseWord, ht]; exact hn, h2⟩

lemma jsonParseWord_false (h : c.At (falseText ++ s) k) :
    ∃ c', jsonParseWord (D := D) granting c = (.leaf .false .zero, c') ∧ c'.At s k := by
  obtain ⟨c1, ht, h1⟩ := h.matchWord trueText (by decide)
  obtain ⟨c2, hf, h2⟩ := h1.matchWord falseText (by decide)
  obtain ⟨c3, hn, h3⟩ := (h2.advance (n := 5) rfl).jsonNodeCreate (D := D) .false .zero
  rw [show ((falseText ++ s).take trueText.length == trueText) = false by rfl] at ht
  rw [take_left, beq_self_eq_true] at hf
  exact ⟨c3, by rw [jsonParseWord, ht]; simp only [hf]; exact hn, h3⟩

lemma jsonParseWord_null (h : c.At (nullText ++ s) k) :
    ∃ c', jsonParseWord (D := D) granting c = (.leaf .null .zero, c') ∧ c'.At s k := by
  obtain ⟨c1, ht, h1⟩ := h.matchWord trueText (by decide)
  obtain ⟨c2, hf, h2⟩ := h1.matchWord falseText (by decide)
  obtain ⟨c3, hw, h3⟩ := h2.matchWord nullText (by decide)
  obtain ⟨c4, hn, h4⟩ := (h3.advance (n := 4) rfl).jsonNodeCreate (D := D) .null .zero
  rw [show ((nullText ++ s).take trueText.length == trueText) = false by rfl] at ht
  rw [show ((nullText ++ s).take falseText.length == falseText) = false by
    simp [nullText, falseText]] at hf
  rw [take_left, beq_self_eq_true] at hw
  exact ⟨c4, by rw [jsonParseWord, ht]; simp only [hf, hw]; exact hn, h4⟩

end Words

end Cobalt.Json
