/-
Cobalt.Json.SaxStrings — the streaming parser on strings.

`parse_string` is described in both directions. What it accepts is a string
of the grammar and it stops right after it, or it is a literal that the end
of the input cuts short where the last byte read happens to be a quote:
that of an escape, or the opening one. And it accepts all of these.
-/
import Cobalt.Json.SaxCursor

namespace Cobalt.Json.Sax

open SaxParser List Option StrChar

variable {D : Type} {p p' : SaxParser D} {t : List UInt8}

/-! ## Hexadecimal digits -/

variable {v cp u hi lo : Nat}

lemma shift_hex (hv : v < 16) : cp <<< 4 ||| v = cp * 16 + v := by
  rw [Nat.shiftLeft_eq, mul_comm, or_eq_add 4 hv]

lemma parse4hexLoop_sound (n : Nat) {p p' : SaxParser D} (hn : n ≤ p.rest.length)
    (h : parse4hexLoop n cp p = (some v, p')) :
    ∃ (ds : List UInt8) (vs : List Nat), ds.length = n ∧ ds.map hexVal? = vs.map some ∧
      v = vs.foldl (fun x y => x * 16 + y) cp ∧ Reads p ds [] p' := by
  induction n generalizing cp p with
  | zero =>
    cases h
    exact ⟨[], [], rfl, rfl, rfl, .refl _⟩
  | succ n ih =>
    cases hrest : p.rest with
    | nil => rw [hrest] at hn; cases hn
    | cons b t =>
      have hstep : Reads p [b] [] (p.advance 1) := .advance hrest rfl
      have hlen := hstep.length_rest
      rw [parse4hexLoop, load_of_rest hrest] at h
      cases hb : hexVal? b with
      | none => rw [hb] at h; cases h
      | some x =>
        rw [hb] at h
        dsimp only at h
        rw [shift_hex (hexVal?_lt hb)] at h
        obtain ⟨ds, vs, hds, hvs, rfl, hreads⟩ := ih (by simp at hlen; omega) h
        exact ⟨b :: ds, x :: vs, by simp [hds], by simp [hb, hvs], rfl, hstep.trans hreads⟩

lemma parse4hexLoop_step {n x : Nat} {b : UInt8} (hrest : p.rest = b :: t)
    (hb : hexVal? b = some x) :
    parse4hexLoop (n + 1) cp p = parse4hexLoop n (cp * 16 + x) (p.advance 1) := by
  rw [parse4hexLoop, load_of_rest hrest]
  simp only [hb, shift_hex (hexVal?_lt hb)]

lemma parse4hex_sound (h : parse4hex p = (some v, p')) :
    ∃ a b c d, hex4? a b c d = some v ∧ Reads p [a, b, c, d] [] p' := by
  rw [parse4hex] at h
  split at h
  · cases h
  · rename_i hlen
    obtain ⟨ds, vs, hds, hvs, rfl, hreads⟩ := parse4hexLoop_sound 4 (by rw [length_rest]; omega) h
    have hlen : vs.length = 4 := by
      rw [← length_map some, ← hvs, length_map, hds]
    obtain ⟨a, b, c, d, rfl⟩ := length_eq_four.mp hds
    obtain ⟨w, x, y, z, rfl⟩ := length_eq_four.mp hlen
    simp only [map_cons, map_nil, List.cons.injEq, and_true] at hvs
    obtain ⟨ha, hb, hc, hd⟩ := hvs
    exact ⟨a, b, c, d, by simp [hex4?, ha, hb, hc, hd], hreads⟩

lemma parse4hex_complete {a b c d : UInt8}
    (hrest : p.rest = a :: b :: c :: d :: t) (hv : hex4? a b c d = some v) :
    ∃ p', parse4hex p = (some v, p') ∧ Reads p [a, b, c, d] [] p' := by
  obtain ⟨va, vb, vc, vd, ha, hb, hc, hd, rfl⟩ := hex4?_eq_some hv
  have hlen := congrArg List.length hrest
  rw [length_rest] at hlen
  simp only [length_cons] at hlen
  have h1 : Reads p [a] [] (p.advance 1) := .advance hrest rfl
  have hr1 := h1.rest_eq hrest
  have h2 : Reads (p.advance 1) [b] [] ((p.advance 1).advance 1) := .advance hr1 rfl
  have hr2 := h2.rest_eq hr1
  have h3 : Reads _ [c] [] (((p.advance 1).advance 1).advance 1) := .advance hr2 rfl
  have hr3 := h3.rest_eq hr2
  have h4 : Reads _ [d] [] ((((p.advance 1).advance 1).advance 1).advance 1) := .advance hr3 rfl
  refine ⟨_, ?_, ((h1.trans h2).trans h3).trans h4⟩
  rw [parse4hex, if_neg (by omega), parse4hexLoop_step hrest ha, parse4hexLoop_step hr1 hb,
    parse4hexLoop_step hr2 hc, parse4hexLoop_step hr3 hd, zero_mul, zero_add]
  rfl

/-! ## UTF-8 -/

lemma encodeUtf8_eq (h : u < 0x110000) : encodeUtf8 u = utf8 u := by
  have h6 : u >>> 6 = u / 0x40 := Nat.shiftRight_eq_div_pow u 6
  have h12 : u >>> 12 = u / 0x1000 := Nat.shiftRight_eq_div_pow u 12
  have h18 : u >>> 18 = u / 0x40000 := Nat.shiftRight_eq_div_pow u 18
  simp only [encodeUtf8, utf8, cont_byte, h6, h12, h18, Nat.lt_succ_iff.symm]
  split
  · rfl
  · split
    · have h0 : 0xC0 ||| u / 0x40 = 0xC0 + u / 0x40 := or_eq_add (a := 3) 6 (by omega)
      rw [h0]
    · split
      · have h0 : 0xE0 ||| u / 0x1000 = 0xE0 + u / 0x1000 := or_eq_add (a := 7) 5 (by omega)
        rw [h0]
      · have h0 : 0xF0 ||| u / 0x40000 = 0xF0 + u / 0x40000 := or_eq_add (a := 15) 4 (by omega)
        rw [h0]

lemma utf8_ne_nil (u : Nat) : utf8 u ≠ [] := by
  unfold utf8
  split
  · simp
  · split
    · simp
    · split <;> simp

/-! ## Escapes -/

/-- One round of the escape branch before `r`: the characters it reads and
the bytes they decode to. A high surrogate stands alone only when no `\u`
comes next. -/
inductive Escape : List StrChar → List UInt8 → List UInt8 → Prop where
  | short {c x : UInt8} (r : List UInt8) (hc : escByte? c = some x) : Escape [.esc c] [x] r
  | pair {a b c d a' b' c' d' : UInt8} {hi lo : Nat} (r : List UInt8)
      (hv : hex4? a b c d = some hi) (hv' : hex4? a' b' c' d' = some lo)
      (hhi : isHigh hi = true) (hlo : isLow lo = true) :
      Escape [.uni a b c d, .uni a' b' c' d'] (utf8 (pairPoint hi lo)) r
  | single {a b c d : UInt8} {u : Nat} {r : List UInt8} (hv : hex4? a b c d = some u)
      (hu : isHigh u = true → ∀ t, r ≠ backslash :: 0x75 :: t) :
      Escape [.uni a b c d] (utf8 u) r

namespace Escape

variable {toks cs : List StrChar} {bytes r t : List UInt8}

lemma valid (h : Escape toks bytes r) : ValidChars toks := by
  cases h with
  | short r hc => simp [ValidChars, valid, hc]
  | pair r hv hv' => simp [ValidChars, valid, hv, hv']
  | single hv => simp [ValidChars, valid, hv]

lemma length_pos (h : Escape toks bytes r) : 0 < (charsText toks).length := by
  cases h <;> simp [charsText, text]

lemma unit_eq {a b c d : UInt8} (h : hex4? a b c d = some u) : unit a b c d = u := by
  rw [unit, h]
  rfl

lemma decode_append (h : Escape toks bytes (charsText cs ++ t)) :
    decode (toks ++ cs) = bytes ++ decode cs ∧ noBrokenPair (toks ++ cs) = noBrokenPair cs := by
  cases h with
  | short r hc => simp [decode, noBrokenPair, hc]
  | pair r hv hv' hhi hlo =>
    simp [decode, noBrokenPair, unit_eq hv, unit_eq hv', hhi, hlo]
  | @single a b c d u r hv hu =>
    cases cs with
    | nil => simp [decode, noBrokenPair, unit_eq hv]
    | cons x cs =>
      cases x with
      | raw y | esc y => simp [decode, noBrokenPair, unit_eq hv]
      | uni a' b' c' d' =>
        have hhi : isHigh u = false := by
          cases hh : isHigh u with
          | false => rfl
          | true => exact absurd rfl (hu hh _)
        simp [decode, noBrokenPair, unit_eq hv, hhi]

end Escape

lemma sees_unicode_iff : (p.pos + 2 ≤ p.len && p.load p.pos == backslash &&
    p.load (p.pos + 1) == 0x75) = true ↔ ∃ t, p.rest = backslash :: 0x75 :: t := by
  have hlen := length_rest (p := p)
  rw [Bool.and_eq_true, Bool.and_eq_true, decide_eq_true_iff, beq_iff_eq, beq_iff_eq]
  constructor
  · rintro ⟨⟨hle, hb⟩, hu⟩
    match hrest : p.rest with
    | [] => rw [hrest] at hlen; simp only [length_nil] at hlen; omega
    | [_] => rw [hrest] at hlen; simp only [length_singleton] at hlen; omega
    | x :: y :: t =>
      rw [load_of_rest hrest] at hb
      have hy : p.load (p.pos + 1) = y := Cursor.getD_add_of_drop (w := [x]) 0 hrest
      rw [hy] at hu
      exact ⟨t, by rw [hb, hu]⟩
  · rintro ⟨t, ht⟩
    have hu : p.load (p.pos + 1) = 0x75 := Cursor.getD_add_of_drop (w := [backslash]) 0 ht
    rw [ht] at hlen
    simp only [length_cons] at hlen
    exact ⟨⟨by omega, load_of_rest ht⟩, hu⟩

lemma pairPoint_lt_of (hhi : isHigh hi = true) (hlo : isLow lo = true) :
    pairPoint hi lo < 0x110000 := by
  simp only [isHigh, isLow, Bool.and_eq_true, decide_eq_true_eq] at hhi hlo
  exact pairPoint_lt hhi.2 hlo.2

/-- The code point the escape stands for: one round of `lowSurrogate`. -/
lemma lowSurrogate_sound (h : lowSurrogate cp p = (some v, p')) :
    (v = cp ∧ p' = p ∧ (isHigh cp = true → ∀ t, p.rest ≠ backslash :: 0x75 :: t)) ∨
    ∃ a b c d lo, isHigh cp = true ∧ hex4? a b c d = some lo ∧ isLow lo = true ∧
      v = pairPoint cp lo ∧ Reads p (uni a b c d).text [] p' := by
  rw [lowSurrogate, show (decide (0xD800 ≤ cp) && decide (cp ≤ 0xDBFF)) = isHigh cp from rfl] at h
  cases hhi : isHigh cp with
  | false =>
    rw [hhi] at h
    cases h
    exact .inl ⟨rfl, rfl, fun h => by cases h⟩
  | true =>
    rw [hhi, if_pos rfl] at h
    split at h
    · rename_i hsees
      obtain ⟨t, ht⟩ := sees_unicode_iff.mp hsees
      have h1 : Reads p [backslash, 0x75] [] (p.advance 2) := .advance ht rfl
      cases hex : parse4hex (p.advance 2) with
      | mk res p2 =>
        cases res with
        | none => rw [hex] at h; cases h
        | some lo =>
          rw [hex] at h
          dsimp only at h
          obtain ⟨a, b, c, d, hv, h2⟩ := parse4hex_sound hex
          rw [show (decide (0xDC00 ≤ lo) && decide (lo ≤ 0xDFFF)) = isLow lo from rfl] at h
          cases hlo : isLow lo with
          | false => rw [hlo] at h; cases h
          | true =>
            rw [hlo, if_pos rfl] at h
            cases h
            refine .inr ⟨a, b, c, d, lo, rfl, hv, hlo, pairPoint_eq ?_, h1.trans h2⟩
            simp only [isLow, Bool.and_eq_true, decide_eq_true_eq] at hlo
            exact hlo.2
    · rename_i hsees
      cases h
      exact .inl ⟨rfl, rfl, fun _ t ht => hsees (sees_unicode_iff.mpr ⟨t, ht⟩)⟩

lemma unicodeEscape_sound {bytes : List UInt8} (h : unicodeEscape p = (some bytes, p'))
    {p0 : SaxParser D} (h0 : Reads p0 [backslash, 0x75] [] p) :
    ∃ toks, Escape toks bytes p'.rest ∧ Reads p0 (charsText toks) [] p' := by
  rw [unicodeEscape] at h
  cases hhex : parse4hex p with
  | mk res p1 =>
    cases res with
    | none => rw [hhex] at h; cases h
    | some cp =>
      rw [hhex] at h
      dsimp only at h
      obtain ⟨a, b, c, d, hv, h1⟩ := parse4hex_sound hhex
      cases hlow : lowSurrogate cp p1 with
      | mk res p2 =>
        cases res with
        | none => rw [hlow] at h; cases h
        | some v =>
          rw [hlow] at h
          dsimp only at h
          split at h
          · cases h
          · cases h
            have hcp := hex4?_lt hv
            have h2 := h0.trans h1
            rcases lowSurrogate_sound hlow with ⟨rfl, rfl, hu⟩ |
              ⟨a', b', c', d', lo, hhi, hv', hlo, hpoint, h3⟩
            · rw [encodeUtf8_eq (by omega)]
              exact ⟨_, .single hv hu, h2⟩
            · rw [hpoint, encodeUtf8_eq (pairPoint_lt_of hhi hlo)]
              exact ⟨_, .pair _ hv hv' hhi hlo, h2.trans h3⟩

lemma parseEscape_sound {bytes s : List UInt8} (hrest : p.rest = backslash :: s)
    (h : parseEscape p = (some bytes, p')) :
    ∃ toks, Escape toks bytes p'.rest ∧ Reads p (charsText toks) [] p' := by
  have h1 : Reads p [backslash] [] (p.advance 1) := .advance hrest rfl
  have hr1 := h1.rest_eq hrest
  rw [parseEscape] at h
  dsimp only at h
  cases s with
  | nil => rw [if_pos (rest_eq_nil_iff.mp hr1)] at h; cases h
  | cons e s =>
    rw [if_neg (Nat.not_le.mpr (lt_of_rest hr1)), load_of_rest hr1] at h
    have h2 : Reads p [backslash, e] [] ((p.advance 1).advance 1) := h1.trans (.advance hr1 rfl)
    cases he : escByte? e with
    | some x =>
      rw [he] at h
      cases h
      exact ⟨[.esc e], .short _ he, h2⟩
    | none =>
      rw [he] at h
      dsimp only at h
      split at h
      · rename_i hu
        obtain rfl := eq_of_beq hu
        exact unicodeEscape_sound h h2
      · cases h

lemma lowSurrogate_single (hu : isHigh cp = true → ∀ t, p.rest ≠ backslash :: 0x75 :: t) :
    lowSurrogate cp p = (some cp, p) := by
  rw [lowSurrogate, show (decide (0xD800 ≤ cp) && decide (cp ≤ 0xDBFF)) = isHigh cp from rfl]
  cases hhi : isHigh cp with
  | false => rfl
  | true =>
    rw [if_pos rfl, if_neg]
    intro hsees
    obtain ⟨t, ht⟩ := sees_unicode_iff.mp hsees
    exact hu hhi t ht

lemma lowSurrogate_pair {a b c d : UInt8} (hrest : p.rest = (uni a b c d).text ++ t)
    (hv : hex4? a b c d = some lo) (hhi : isHigh hi = true) (hlo : isLow lo = true) :
    ∃ p', lowSurrogate hi p = (some (pairPoint hi lo), p') ∧ Reads p (uni a b c d).text [] p' := by
  have h1 : Reads p [backslash, 0x75] [] (p.advance 2) := .advance hrest rfl
  obtain ⟨p', hex, h2⟩ := parse4hex_complete (h1.rest_eq hrest) hv
  refine ⟨p', ?_, h1.trans h2⟩
  have hle : lo ≤ 0xDFFF := by
    simp only [isLow, Bool.and_eq_true, decide_eq_true_eq] at hlo
    exact hlo.2
  rw [lowSurrogate, show (decide (0xD800 ≤ hi) && decide (hi ≤ 0xDBFF)) = isHigh hi from rfl, hhi,
    if_pos rfl, if_pos (sees_unicode_iff.mpr ⟨_, hrest⟩), hex]
  dsimp only
  rw [show (decide (0xDC00 ≤ lo) && decide (lo ≤ 0xDFFF)) = isLow lo from rfl, hlo, if_pos rfl,
    pairPoint_eq hle]

/-- The code point is encoded whatever it is. -/
lemma unicodeEscape_eq {p1 p2 : SaxParser D} (hex : parse4hex p = (some u, p1))
    (hlow : lowSurrogate u p1 = (some v, p2)) (hv : v < 0x110000) :
    unicodeEscape p = (some (utf8 v), p2) := by
  rw [unicodeEscape, hex]
  simp only [hlow, encodeUtf8_eq hv]
  rw [if_neg]
  simpa using utf8_ne_nil v

lemma parseEscape_eq {e : UInt8} {s : List UInt8} (hrest : p.rest = backslash :: e :: s) :
    parseEscape p =
      match escByte? e with
      | some x => (some [x], (p.advance 1).advance 1)
      | none =>
          if e == 0x75 then unicodeEscape ((p.advance 1).advance 1)
          else (none, (((p.advance 1).advance 1).setError .invalidEscape
            "Invalid escape character").2) := by
  have h1 : Reads p [backslash] [] (p.advance 1) := .advance hrest rfl
  have hr1 := h1.rest_eq hrest
  rw [parseEscape]
  dsimp only
  rewrite [if_neg (Nat.not_le.mpr (lt_of_rest hr1)), load_of_rest hr1]
  rfl

lemma parseEscape_complete {toks : List StrChar} {bytes r : List UInt8}
    (h : Escape toks bytes r) (hrest : p.rest = charsText toks ++ r) :
    ∃ p', parseEscape p = (some bytes, p') ∧ Reads p (charsText toks) [] p' := by
  have htwo : ∀ {e : UInt8} {t : List UInt8}, p.rest = backslash :: e :: t →
      Reads p [backslash, e] [] ((p.advance 1).advance 1) := by
    intro e t ht
    have h1 : Reads p [backslash] [] (p.advance 1) := .advance ht rfl
    exact h1.trans (.advance (h1.rest_eq ht) rfl)
  cases h with
  | @short c x r hc =>
    rw [parseEscape_eq hrest, hc]
    exact ⟨_, rfl, htwo hrest⟩
  | @pair a b c d a' b' c' d' hi lo r hv hv' hhi hlo =>
    have h2 := htwo hrest
    obtain ⟨p3, hex, h3⟩ := parse4hex_complete (h2.rest_eq hrest) hv
    have h4 := h2.trans h3
    obtain ⟨p5, hlow, h5⟩ := lowSurrogate_pair (h4.rest_eq hrest) hv' hhi hlo
    refine ⟨p5, ?_, h4.trans h5⟩
    rw [parseEscape_eq hrest]
    exact unicodeEscape_eq hex hlow (pairPoint_lt_of hhi hlo)
  | @single a b c d u r hv hu =>
    have h2 := htwo hrest
    obtain ⟨p3, hex, h3⟩ := parse4hex_complete (h2.rest_eq hrest) hv
    have h4 := h2.trans h3
    have hr4 : p3.rest = r := h4.rest_eq hrest
    have hcp := hex4?_lt hv
    refine ⟨p3, ?_, h4⟩
    rw [parseEscape_eq hrest]
    exact unicodeEscape_eq hex (lowSurrogate_single (by rwa [hr4])) (by omega)

/-! ## Runs of plain bytes -/

lemma stops_eq_false_iff {b : UInt8} : stops b = false ↔ (raw b).valid = true := by
  simp only [stops, valid, Bool.or_eq_false_iff, beq_eq_false_iff_ne, bne_iff_ne,
    Bool.and_eq_true, decide_eq_true_eq, decide_eq_false_iff_not, UInt8.not_lt]
  tauto

/-- Plain bytes as characters. -/
def raws (seg : List UInt8) : List StrChar := seg.map .raw

lemma charsText_raws (seg : List UInt8) : charsText (raws seg) = seg := by
  induction seg with
  | nil => rfl
  | cons b seg ih => rw [raws, map_cons, charsText, flatMap_cons]; exact congrArg _ ih

lemma raws_append (seg : List UInt8) (cs : List StrChar) :
    decode (raws seg ++ cs) = seg ++ decode cs ∧
      noBrokenPair (raws seg ++ cs) = noBrokenPair cs := by
  induction seg with
  | nil => exact ⟨rfl, rfl⟩
  | cons b seg ih =>
    exact ⟨congrArg (b :: ·) ih.1, ih.2⟩

lemma valid_raws (s : List UInt8) : ValidChars (raws (plainRun s)) := by
  intro c hc
  obtain ⟨b, hb, rfl⟩ := mem_map.mp hc
  exact stops_eq_false_iff.mp (by simpa using mem_takeWhile_imp hb)

/-! ## The slow path -/

/-- What the loop has read: the characters up to the closing quote, or up to
the end of the input. -/
def Ended (p : SaxParser D) (l : List UInt8) (p' : SaxParser D) : Prop :=
  Reads p (l ++ [quote]) [] p' ∨ (Reads p l [] p' ∧ p'.rest = [])

lemma Ended.cons {p1 : SaxParser D} {l l' : List UInt8} (h : Reads p l [] p1)
    (h' : Ended p1 l' p') : Ended p (l ++ l') p' := by
  rcases h' with h' | ⟨h', hnil⟩
  · exact .inl (append_assoc l l' [quote] ▸ h.trans h')
  · exact .inr ⟨h.trans h', hnil⟩

lemma Ended.exists_rest {l : List UInt8} (h : Ended p l p') : ∃ t, p.rest = l ++ t := by
  rcases h with h | ⟨h, -⟩
  · exact ⟨[quote] ++ p'.rest, by rw [h.rest, append_assoc]⟩
  · exact ⟨_, h.rest⟩

lemma stringLoop_sound (n : Nat) {out out' : List UInt8} {p p' : SaxParser D}
    (h : stringLoop n out p = (some out', p')) :
    ∃ cs, ValidChars cs ∧ noBrokenPair cs = true ∧ out' = out ++ decode cs ∧
      Ended p (charsText cs) p' := by
  induction n generalizing out p with
  | zero => cases h
  | succ n ih =>
    rw [stringLoop] at h
    cases hrest : p.rest with
    | nil =>
      rw [if_neg (Nat.not_lt.mpr (rest_eq_nil_iff.mp hrest))] at h
      cases h
      exact ⟨[], validChars_nil, rfl, (append_nil _).symm, .inr ⟨.refl _, hrest⟩⟩
    | cons b s =>
      rw [if_pos (lt_of_rest hrest), load_of_rest hrest] at h
      dsimp only at h
      split at h
      · rename_i hq
        obtain rfl := eq_of_beq hq
        cases h
        exact ⟨[], validChars_nil, rfl, (append_nil _).symm, .inl (.advance hrest rfl)⟩
      · rename_i hq
        split at h
        · rename_i hb
          obtain rfl := eq_of_beq hb
          cases hesc : parseEscape p with
          | mk res p1 =>
            cases res with
            | none => rw [hesc] at h; cases h
            | some bytes =>
              rw [hesc] at h
              obtain ⟨toks, hesc, h1⟩ := parseEscape_sound hrest hesc
              obtain ⟨cs, hv, hb, rfl, hend⟩ := ih h
              obtain ⟨t, ht⟩ := hend.exists_rest
              rw [ht] at hesc
              obtain ⟨hdec, hpair⟩ := hesc.decode_append
              refine ⟨toks ++ cs, validChars_append hesc.valid hv, hpair.trans hb, ?_, ?_⟩
              · rw [hdec, append_assoc]
              · rw [charsText_append]
                exact hend.cons h1
        · split at h
          · cases h
          · obtain ⟨htake, h1⟩ := reads_segment p
            rw [segLen_eq, htake] at h
            obtain ⟨cs, hv, hb, rfl, hend⟩ := ih h
            obtain ⟨hdec, hpair⟩ := raws_append (plainRun p.rest) cs
            refine ⟨raws (plainRun p.rest) ++ cs, validChars_append (valid_raws _) hv,
              hpair.trans hb, ?_, ?_⟩
            · rw [hdec, append_assoc]
            · rw [charsText_append, charsText_raws]
              exact hend.cons h1

/-- What comes after the characters of a literal: its closing quote, or the
end of the input. -/
inductive Tail : List UInt8 → Prop where
  | closed (r : List UInt8) : Tail (quote :: r)
  | cut : Tail []

lemma Tail.not_plain (h : Tail t) : plainRun t = [] := by
  cases h with
  | closed r => rfl
  | cut => rfl

/-- The characters of a literal up to the first escape. -/
lemma exists_raws (ht : Tail t) (cs : List StrChar) (hv : ValidChars cs) :
    ∃ cs', cs = raws (plainRun (charsText cs ++ t)) ++ cs' ∧ ∀ b, cs'.head? ≠ some (.raw b) := by
  induction cs with
  | nil =>
    refine ⟨[], ?_, by simp⟩
    rw [show charsText [] ++ t = t from rfl, ht.not_plain]
    rfl
  | cons c cs ih =>
    cases c with
    | raw b =>
      obtain ⟨cs', hcs, hhead⟩ := ih fun c hc => hv c (mem_cons_of_mem _ hc)
      have hb : stops b = false := stops_eq_false_iff.mpr (hv _ mem_cons_self)
      refine ⟨cs', ?_, hhead⟩
      rw [show charsText (.raw b :: cs) ++ t = b :: (charsText cs ++ t) from rfl, plainRun,
        takeWhile_cons, if_pos (by simp [hb])]
      exact congrArg (raw b :: ·) hcs
    | esc e => exact ⟨.esc e :: cs, rfl, by simp⟩
    | uni a b c d => exact ⟨.uni a b c d :: cs, rfl, by simp⟩

lemma exists_escape (ht : Tail t) (c : StrChar) (cs : List StrChar)
    (hv : ValidChars (c :: cs)) (hb : noBrokenPair (c :: cs) = true) (hc : ∀ b, c ≠ .raw b) :
    ∃ toks bytes cs', c :: cs = toks ++ cs' ∧ Escape toks bytes (charsText cs' ++ t) := by
  have hvc := hv c mem_cons_self
  cases c with
  | raw b => exact absurd rfl (hc b)
  | esc e =>
    obtain ⟨x, hx⟩ := isSome_iff_exists.mp hvc
    exact ⟨[.esc e], [x], cs, rfl, .short _ hx⟩
  | uni a b c d =>
    obtain ⟨u, hu⟩ := isSome_iff_exists.mp hvc
    have hunit := Escape.unit_eq hu
    have hsingle : (isHigh u = true → ∀ r, charsText cs ++ t ≠ backslash :: 0x75 :: r) →
        ∃ toks bytes cs', uni a b c d :: cs = toks ++ cs' ∧
          Escape toks bytes (charsText cs' ++ t) :=
      fun h => ⟨[.uni a b c d], _, cs, rfl, .single hu h⟩
    cases cs with
    | nil =>
      refine hsingle fun _ r hr => ?_
      cases ht <;> simp [charsText] at hr
    | cons x cs =>
      have hvx := hv x (by simp)
      cases x with
      | raw y =>
        refine hsingle fun _ r hr => ?_
        rw [charsText, flatMap_cons] at hr
        obtain rfl : y = backslash := by
          simpa [text] using (List.cons.inj hr).1
        exact absurd hvx (by decide)
      | esc y =>
        refine hsingle fun _ r hr => ?_
        rw [charsText, flatMap_cons] at hr
        obtain rfl : y = 0x75 := by
          simpa [text] using (List.cons.inj (List.cons.inj hr).2).1
        exact absurd hvx (by decide)
      | uni a' b' c' d' =>
        obtain ⟨u', hu'⟩ := isSome_iff_exists.mp hvx
        have hunit' := Escape.unit_eq hu'
        cases hhi : isHigh u with
        | false => exact hsingle fun h => by rw [hhi] at h; cases h
        | true =>
          rw [noBrokenPair, hunit, hhi, if_pos rfl, hunit', Bool.and_eq_true] at hb
          exact ⟨[.uni a b c d, .uni a' b' c' d'], _, cs, rfl, .pair _ hu hu' hhi hb.1⟩

lemma text_of_not_raw {c : StrChar} (hc : ∀ b, c ≠ .raw b) : ∃ t, c.text = backslash :: t := by
  cases c with
  | raw b => exact absurd rfl (hc b)
  | esc e | uni a b c d => exact ⟨_, rfl⟩

lemma stringLoop_complete (n : Nat) (out : List UInt8) {cs : List StrChar} {p : SaxParser D}
    (ht : Tail t) (hv : ValidChars cs) (hb : noBrokenPair cs = true)
    (hrest : p.rest = charsText cs ++ t) (hn : p.rest.length < n) :
    ∃ p', stringLoop n out p = (some (out ++ decode cs), p') ∧
      Reads p (charsText cs ++ t.take 1) [] p' := by
  induction n generalizing out cs p with
  | zero => omega
  | succ n ih =>
    rw [stringLoop]
    cases cs with
    | nil =>
      have hrest : p.rest = t := hrest
      rw [show out ++ decode [] = out from append_nil out]
      cases ht with
      | closed r =>
        rw [if_pos (lt_of_rest hrest), load_of_rest hrest]
        exact ⟨_, rfl, .advance hrest rfl⟩
      | cut =>
        rw [if_neg (Nat.not_lt.mpr (rest_eq_nil_iff.mp hrest))]
        exact ⟨_, rfl, .refl p⟩
    | cons c cs =>
      by_cases hraw : ∃ b, c = .raw b
      · obtain ⟨b, rfl⟩ := hraw
        obtain ⟨cs', hcs, -⟩ := exists_raws ht (.raw b :: cs) hv
        rw [← hrest] at hcs
        have hhead : p.rest = b :: (charsText cs ++ t) := hrest
        have hstop : stops b = false := stops_eq_false_iff.mpr (hv _ mem_cons_self)
        obtain ⟨htake, h1⟩ := reads_segment p
        have hseg : 0 < (plainRun p.rest).length := by
          rw [hhead, plainRun, takeWhile_cons, if_pos (by simp [hstop])]
          exact Nat.succ_pos _
        have hlen := h1.length_rest
        rw [hcs, charsText_append, charsText_raws, append_assoc] at hrest
        rw [hcs] at hv hb
        obtain ⟨hdec, hpair⟩ := raws_append (plainRun p.rest) cs'
        obtain ⟨p', hloop, h2⟩ := ih (out ++ plainRun p.rest)
          (fun c hc => hv c (mem_append.mpr (.inr hc))) (hpair ▸ hb) (h1.rest_eq hrest)
          (by omega)
        refine ⟨p', ?_, ?_⟩
        · simp only [stops, Bool.or_eq_false_iff, beq_eq_false_iff_ne, decide_eq_false_iff_not]
            at hstop
          rw [if_pos (lt_of_rest hhead), load_of_rest hhead]
          simp only [beq_iff_eq, hstop.1.1, hstop.1.2, hstop.2, if_false]
          rw [segLen_eq, htake, hloop, hcs, hdec, append_assoc]
        · rw [hcs, charsText_append, charsText_raws, append_assoc]
          exact h1.trans h2
      · have hnot : ∀ b, c ≠ .raw b := fun b hb => hraw ⟨b, hb⟩
        obtain ⟨toks, bytes, cs', hcs, hesc⟩ := exists_escape ht c cs hv hb hnot
        obtain ⟨e, he⟩ := text_of_not_raw hnot
        have hhead : p.rest = backslash :: (e ++ (charsText cs ++ t)) := by
          rw [hrest, charsText, flatMap_cons, he]
          simp [charsText]
        rw [hcs, charsText_append, append_assoc] at hrest
        rw [hcs] at hv hb
        obtain ⟨p1, hparse, h1⟩ := parseEscape_complete hesc hrest
        obtain ⟨hdec, hpair⟩ := hesc.decode_append
        have hpos := hesc.length_pos
        have hlen := h1.length_rest
        obtain ⟨p', hloop, h2⟩ := ih (out ++ bytes)
          (fun c hc => hv c (mem_append.mpr (.inr hc))) (hpair ▸ hb) (h1.rest_eq hrest)
          (by omega)
        refine ⟨p', ?_, ?_⟩
        · rw [if_pos (lt_of_rest hhead), load_of_rest hhead]
          simp only [hparse, hloop, hcs, hdec, append_assoc]
          rfl
        · rw [hcs, charsText_append, append_assoc]
          exact h1.trans h2

section Handler

variable {handler : Handler D}

/-! ## Whole strings -/

/-- The event for a key or a string. -/
def stringEvent (isKey : Bool) (s : List UInt8) : Event D := if isKey then .key s else .string s

lemma emitString_eq (isKey : Bool) (s : List UInt8) (p : SaxParser D) :
    emitString handler isKey s p =
      p.emit (handler.callback (stringEvent isKey s)) (stringEvent isKey s)
        "User aborted in string callback" := by
  cases isKey <;> rfl

lemma Reads.load_last {l : List UInt8} {b : UInt8} {es : List (Event D)}
    (h : Reads p (l ++ [b]) es p') : p'.load (p'.pos - 1) = b := by
  have hpos := h.pos
  rw [length_append, length_singleton, ← add_assoc] at hpos
  have hrest := h.rest
  rw [append_assoc] at hrest
  rw [hpos, Nat.add_sub_cancel, load, h.str]
  exact Cursor.getD_add_of_drop 0 hrest

/-- The characters of a literal that ends the input end in a quote only when
the last of them is an escaped quote. -/
def endsInQuote (cs : List StrChar) : Prop := cs = [] ∨ cs.getLast? = some (.esc quote)

lemma endsInQuote_iff {cs : List StrChar} (hv : ValidChars cs) {l : List UInt8} {b : UInt8}
    (h : quote :: charsText cs = l ++ [b]) : b = quote ↔ endsInQuote cs := by
  have hlast : (quote :: charsText cs).getLast? = some b := by rw [h, getLast?_concat]
  rcases eq_nil_or_concat' cs with rfl | ⟨cs', c, rfl⟩
  · exact iff_of_true (by simpa [charsText] using hlast.symm) (.inl rfl)
  · have hvc := hv c (by simp)
    rw [charsText_append, ← cons_append, show charsText [c] = c.text from append_nil _,
      getLast?_append] at hlast
    rw [endsInQuote, getLast?_concat]
    cases c with
    | raw x =>
      obtain rfl : x = b := by simpa [text] using hlast
      refine iff_of_false ?_ (by simp)
      rintro rfl
      exact absurd hvc (by decide)
    | esc e =>
      obtain rfl : e = b := by simpa [text] using hlast
      simp
    | uni w x y z =>
      obtain rfl : z = b := by simpa [text] using hlast
      obtain ⟨v, hv⟩ := isSome_iff_exists.mp hvc
      obtain ⟨-, -, -, _, -, -, -, hz, -⟩ := hex4?_eq_some hv
      refine iff_of_false ?_ (by simp)
      rintro rfl
      cases hz

/-- What `parse_string` accepts: a string, or one that the end of the input
cuts short after a quote. -/
inductive StringRead (handler : Handler D) (isKey : Bool) (p p' : SaxParser D) : Prop where
  | closed (cs : List StrChar) (hv : ValidChars cs) (hb : noBrokenPair cs = true)
      (h : Reads p (stringText cs) (handler.hears [stringEvent isKey (decode cs)]) p')
  | cut (cs : List StrChar) (hv : ValidChars cs) (hb : noBrokenPair cs = true)
      (hq : endsInQuote cs) (hnil : p'.rest = [])
      (h : Reads p (quote :: charsText cs) (handler.hears [stringEvent isKey (decode cs)]) p')

lemma emitString_sound {isKey : Bool} {s : List UInt8}
    (h : emitString handler isKey s p = (true, p')) :
    Reads p [] (handler.hears [stringEvent isKey s]) p' := by
  rw [emitString_eq] at h
  exact emit_sound h

lemma parseString_sound {isKey : Bool} (h : parseString handler isKey p = (true, p')) :
    StringRead handler isKey p p' := by
  rw [parseString] at h
  cases hrest : p.rest with
  | nil =>
    rw [if_pos (by simp [rest_eq_nil_iff.mp hrest])] at h
    cases h
  | cons b s =>
    split at h
    · cases h
    · rename_i hq
      rw [load_of_rest hrest] at hq
      obtain rfl : b = quote := by
        by_contra hne
        exact hq (by simp [hne])
      have h1 : Reads p [quote] [] (p.advance 1) := .advance hrest rfl
      generalize p.advance 1 = p1 at h h1
      obtain ⟨htake, h2⟩ := reads_segment p1
      dsimp only at h
      rw [segLen_eq, htake] at h
      have h3 := h1.trans h2
      generalize p1.advance (plainRun p1.rest).length = p2 at h h2 h3
      split at h
      · -- the fast path: the closing quote is the first byte that needs care
        rename_i hsees
        obtain ⟨t, ht⟩ := sees_iff.mp hsees
        have h4 : Reads p2 [quote] [] (p2.advance 1) := .advance ht rfl
        have h5 := (h3.trans h4).trans (emitString_sound h)
        obtain ⟨hdec, hpair⟩ := raws_append (plainRun p1.rest) []
        simp only [append_nil] at hdec hpair
        refine .closed (raws (plainRun p1.rest)) (valid_raws _) hpair ?_
        rw [stringText, charsText_raws, hdec]
        simpa [decode] using h5
      · cases hloop : stringLoop (p2.len - p2.pos + 1) (plainRun p1.rest) p2 with
        | mk res p3 =>
          cases res with
          | none => rw [hloop] at h; cases h
          | some out =>
            rw [hloop] at h
            dsimp only at h
            obtain ⟨cs, hv, hb, rfl, hend⟩ := stringLoop_sound _ hloop
            obtain ⟨hdec, hpair⟩ := raws_append (plainRun p1.rest) cs
            have hv' : ValidChars (raws (plainRun p1.rest) ++ cs) :=
              validChars_append (valid_raws _) hv
            have htext : charsText (raws (plainRun p1.rest) ++ cs) =
                plainRun p1.rest ++ charsText cs := by
              rw [charsText_append, charsText_raws]
            split at h
            · cases h
            · rename_i hlast
              have hemit := emitString_sound h
              rw [← hdec] at hemit
              rcases hend with hend | ⟨hend, hnil⟩
              · refine .closed _ hv' (hpair.trans hb) ?_
                have h5 := (h3.trans hend).trans hemit
                rw [stringText, htext]
                simpa using h5
              · have h5 := h3.trans hend
                rw [append_assoc, ← htext, singleton_append] at h5
                obtain ⟨l, b, hlb⟩ :=
                  (eq_nil_or_concat' (quote :: charsText _)).resolve_left (by simp)
                have hload := Reads.load_last (hlb ▸ h5)
                have hquote : b = quote := by
                  by_contra hne
                  exact hlast (by simp [hload, hne])
                refine .cut _ hv' (hpair.trans hb) ((endsInQuote_iff hv' hlb).mp hquote) ?_ ?_
                · rw [← hnil, hemit.rest]
                  rfl
                · simpa using h5.trans hemit

lemma parseString_complete (ha : handler.Accepts) (isKey : Bool) {cs : List StrChar}
    (ht : Tail t) (hq : t = [] → endsInQuote cs) (hv : ValidChars cs)
    (hb : noBrokenPair cs = true) (hrest : p.rest = quote :: (charsText cs ++ t)) :
    ∃ p', parseString handler isKey p = (true, p') ∧ Reads p (quote :: (charsText cs ++ t.take 1))
        (handler.hears [stringEvent isKey (decode cs)]) p' := by
  have h1 : Reads p [quote] [] (p.advance 1) := .advance hrest rfl
  have hr1 : (p.advance 1).rest = charsText cs ++ t := h1.rest_eq hrest
  rw [parseString, if_neg (by simp [lt_of_rest hrest, load_of_rest hrest])]
  generalize p.advance 1 = p1 at h1 hr1
  obtain ⟨htake, h2⟩ := reads_segment p1
  obtain ⟨cs', hcs, hhead⟩ := exists_raws ht cs hv
  rw [← hr1] at hcs
  dsimp only
  rw [segLen_eq, htake]
  generalize plainRun p1.rest = seg at *
  subst hcs
  obtain ⟨hdec, hpair⟩ := raws_append seg cs'
  rw [charsText_append, charsText_raws] at hr1 ⊢
  rw [hdec]
  rw [hpair] at hb
  have hv' : ValidChars cs' := fun c hc => hv c (mem_append.mpr (.inr hc))
  have h3 := h1.trans h2
  have hr2 := h2.rest_eq (hr1.trans (append_assoc ..))
  generalize p1.advance seg.length = p2 at h2 h3 hr2
  split
  · -- the closing quote is there: no escape came before it
    rename_i hsees
    obtain ⟨u, hu⟩ := sees_iff.mp hsees
    rw [hu] at hr2
    cases cs' with
    | cons c cs' =>
      obtain ⟨e, he⟩ := text_of_not_raw (c := c) fun b hb => hhead b (by rw [hb]; rfl)
      rw [charsText, flatMap_cons, he] at hr2
      exact absurd (List.cons.inj hr2).1 (by decide)
    | nil =>
      obtain rfl : t = quote :: u := hr2.symm
      have h4 : Reads p2 [quote] [] (p2.advance 1) := .advance hu rfl
      rw [show seg ++ decode [] = seg from append_nil seg, emitString_eq]
      obtain ⟨p', hemit, h5⟩ := emit_complete (p := p2.advance 1) ha (stringEvent isKey seg)
        "User aborted in string callback"
      exact ⟨p', hemit, by simpa [charsText] using (h3.trans h4).trans h5⟩
  · obtain ⟨p3, hloop, h4⟩ := stringLoop_complete (p2.len - p2.pos + 1) seg ht hv' hb hr2
      (by rw [length_rest]; omega)
    have h5 := h3.trans h4
    rw [hloop]
    dsimp only
    rw [if_neg, emitString_eq]
    · obtain ⟨p', hemit, h6⟩ := emit_complete (p := p3) ha (stringEvent isKey (seg ++ decode cs'))
        "User aborted in string callback"
      exact ⟨p', hemit, by simpa using h5.trans h6⟩
    · have hle := h5.pos_le (le_of_lt (lt_of_rest hrest))
      have hload : p3.load (p3.pos - 1) = quote := by
        cases ht with
        | closed r => exact Reads.load_last (l := [quote] ++ seg ++ charsText cs') (by simpa using h5)
        | cut =>
          have h6 : Reads p (quote :: charsText (raws seg ++ cs')) [] p3 := by
            rw [charsText_append, charsText_raws]
            simpa using h5
          obtain ⟨l, b, hlb⟩ :=
            (eq_nil_or_concat' (quote :: charsText (raws seg ++ cs'))).resolve_left (by simp)
          rw [Reads.load_last (hlb ▸ h6)]
          exact (endsInQuote_iff hv hlb).mpr (hq rfl)
      simp [hload, hle]

end Handler

end Cobalt.Json.Sax
