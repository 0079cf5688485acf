/-
Cobalt.Json.Lexical — facts about the lexemes of the grammar.

What both parsers need to know of white space, hexadecimal digits, UTF-8,
numbers and the first byte of a value.
-/
import Cobalt.Json.Grammar

namespace Cobalt.Json

open List

/-! ## White space -/

lemma ws_nil : Ws [] := fun _ h => absurd h not_mem_nil

variable {w e l : List UInt8}

lemma ws_append {w' : List UInt8} (hw : Ws w) (hw' : Ws w') : Ws (w ++ w') := by
  intro b hb
  exact (mem_append.mp hb).elim (hw b) (hw' b)

variable {b a c d : UInt8}

lemma ws_singleton (hb : isWs b = true) : Ws [b] := by
  intro x hx
  rwa [mem_singleton.mp hx]

/-- The text after its leading white space. -/
def skip (s : List UInt8) : List UInt8 := s.dropWhile isWs

lemma skip_append (hw : Ws w) (s : List UInt8) : skip (w ++ s) = skip s :=
  dropWhile_append_of_pos hw

lemma skip_cons_of_not (h : isWs b = false) (s : List UInt8) : skip (b :: s) = b :: s := by
  simp [skip, h]

lemma skip_ws (hw : Ws w) : skip w = [] := by
  have := skip_append hw []
  simpa [skip] using this

lemma skip_ws_cons (hw : Ws w) (h : isWs b = false) (s : List UInt8) :
    skip (w ++ b :: s) = b :: s := by
  rw [skip_append hw, skip_cons_of_not h]

lemma skip_skip (s : List UInt8) : skip (skip s) = skip s := dropWhile_idempotent isWs s

lemma skip_length_le (s : List UInt8) : (skip s).length ≤ s.length :=
  (dropWhile_suffix isWs).length_le

/-! ## Hexadecimal digits -/

lemma hex4?_eq_some {v : Nat} (h : hex4? a b c d = some v) :
    ∃ va vb vc vd, hexVal? a = some va ∧ hexVal? b = some vb ∧ hexVal? c = some vc
      ∧ hexVal? d = some vd ∧ v = ((va * 16 + vb) * 16 + vc) * 16 + vd := by
  simp only [hex4?, Option.bind_eq_bind, Option.pure_def, Option.bind_eq_some_iff,
    Option.some.injEq] at h
  obtain ⟨va, ha, vb, hb, vc, hc, vd, hd, rfl⟩ := h
  exact ⟨va, vb, vc, vd, ha, hb, hc, hd, rfl⟩

lemma hex4?_lt {v : Nat} (h : hex4? a b c d = some v) : v < 0x10000 := by
  obtain ⟨va, vb, vc, vd, ha, hb, hc, hd, rfl⟩ := hex4?_eq_some h
  have := hexVal?_lt ha
  have := hexVal?_lt hb
  have := hexVal?_lt hc
  have := hexVal?_lt hd
  omega

lemma unit_lt (a b c d : UInt8) : unit a b c d < 0x10000 := by
  rw [unit]
  cases h : hex4? a b c d with
  | none => decide
  | some v => exact hex4?_lt h

/-! ## UTF-8 -/

lemma or_eq_add {a b : Nat} (i : Nat) (hb : b < 2 ^ i) : 2 ^ i * a ||| b = 2 ^ i * a + b :=
  (Nat.two_pow_add_eq_or_of_lt hb a).symm

lemma and_low (u : Nat) : u &&& 0x3F = u % 0x40 := Nat.and_two_pow_sub_one_eq_mod u 6

lemma cont_byte (u : Nat) : 0x80 ||| u &&& 0x3F = 0x80 + u % 0x40 := by
  rw [and_low]
  exact or_eq_add (a := 2) 6 (Nat.mod_lt _ (by decide))

lemma shift_or {x y : Nat} (h : y < 2 ^ 10) : x <<< 10 ||| y = x * 0x400 + y := by
  rw [Nat.shiftLeft_eq, mul_comm, or_eq_add 10 h]

lemma pairPoint_eq {hi lo : Nat} (hlo : lo ≤ 0xDFFF) :
    0x10000 + ((hi - 0xD800) <<< 10 ||| (lo - 0xDC00)) = pairPoint hi lo := by
  have hlt : lo - 0xDC00 < 2 ^ 10 := by omega
  rw [shift_or hlt, ← add_assoc]
  rfl

lemma pairPoint_lt {hi lo : Nat} (hhi : hi ≤ 0xDBFF) (hlo : lo ≤ 0xDFFF) :
    pairPoint hi lo < 0x110000 := by
  unfold pairPoint
  omega

/-! ## Strings -/

lemma validChars_nil : ValidChars [] := fun _ h => absurd h not_mem_nil

lemma validChars_append {cs cs' : List StrChar} (h : ValidChars cs) (h' : ValidChars cs') :
    ValidChars (cs ++ cs') := by
  intro c hc
  exact (mem_append.mp hc).elim (h c) (h' c)

lemma charsText_append (cs cs' : List StrChar) :
    charsText (cs ++ cs') = charsText cs ++ charsText cs' := flatMap_append

/-! ## Numbers -/

/-- No byte of `s` would be taken for more of a number. -/
def NumberEnd (s : List UInt8) : Prop :=
  ∀ b ∈ s.head?, isDigit b = false ∧ b ≠ 0x2E ∧ b ≠ 0x65 ∧ b ≠ 0x45

lemma dropWhile_digits {ds s : List UInt8} (hd : ∀ b ∈ ds, isDigit b = true)
    (hs : ∀ b ∈ s.head?, isDigit b = false) : (ds ++ s).dropWhile isDigit = s := by
  rw [dropWhile_append_of_pos hd]
  cases s with
  | nil => rfl
  | cons b s => simp [hs b rfl]

lemma Exponent.head {s : List UInt8} (he : Exponent e) (hs : NumberEnd s) :
    NumberEnd (e ++ s) ∨ ∃ x t, e ++ s = x :: t ∧ (x = 0x65 ∨ x = 0x45) := by
  rcases he with rfl | ⟨x, sign, ds, rfl, hx, -, -⟩
  · exact .inl hs
  · exact .inr ⟨x, sign ++ ds ++ s, rfl, hx⟩

lemma Exponent.stop {s : List UInt8} (he : Exponent e) (hs : NumberEnd s) :
    ∀ b ∈ (e ++ s).head?, isDigit b = false ∧ b ≠ 0x2E := by
  intro b hb
  rcases he.head hs with hend | ⟨x, t, hx, hxe⟩
  · exact ⟨(hend b hb).1, (hend b hb).2.1⟩
  · rw [hx] at hb
    obtain rfl : x = b := by simpa using hb
    rcases hxe with rfl | rfl <;> decide

lemma Frac.head {f s : List UInt8} (hf : Frac f) (he : Exponent e) (hs : NumberEnd s) :
    ∀ b ∈ (f ++ (e ++ s)).head?, isDigit b = false := by
  intro b hb
  rcases hf with rfl | ⟨ds, rfl, -⟩
  · exact (he.stop hs b hb).1
  · obtain rfl : b = 0x2E := by simpa using hb.symm
    rfl

lemma IntPart.digits {i : List UInt8} (hi : IntPart i) : Digits i := by
  rcases hi with rfl | ⟨hd, -⟩
  · exact ⟨by simp, by simp [isDigit]⟩
  · exact hd

lemma Number.ne_nil (hl : Number l) : l ≠ [] := by
  obtain ⟨m, i, f, e, rfl, -, hi, -, -⟩ := hl
  simp [hi.digits.1]

lemma Number.head (hl : Number l) : ∃ b t, l = b :: t ∧ (b = 0x2D ∨ isDigit b = true) := by
  obtain ⟨m, i, f, e, rfl, hm, hi, -, -⟩ := hl
  obtain ⟨x, t, hx⟩ := exists_cons_of_ne_nil hi.digits.1
  rcases hm with rfl | rfl
  · exact ⟨x, t ++ (f ++ e), by simp [hx], .inr (hi.digits.2 x (by simp [hx]))⟩
  · exact ⟨0x2D, i ++ (f ++ e), rfl, .inl rfl⟩

lemma isDigit_ne (h : b = 0x2D ∨ isDigit b = true) :
    isWs b = false ∧ b ≠ lbrace ∧ b ≠ lbracket ∧ b ≠ quote ∧ b ≠ comma ∧ b ≠ rbrace
      ∧ b ≠ rbracket := by
  rcases h with rfl | h
  · decide
  · refine ⟨?_, ?_⟩
    · cases hb : isWs b with
      | false => rfl
      | true =>
        simp only [isWs, Bool.or_eq_true, beq_iff_eq] at hb
        rcases hb with ((rfl | rfl) | rfl) | rfl <;> exact absurd h (by decide)
    · refine ⟨?_, ?_, ?_, ?_, ?_, ?_⟩ <;> rintro rfl <;> exact absurd h (by decide)

/-- What may come after a value. -/
def Delim (r : List UInt8) : Prop :=
  ∀ b ∈ r.head?, isWs b = true ∨ b = comma ∨ b = rbracket ∨ b = rbrace

lemma Delim.numberEnd {r : List UInt8} (h : Delim r) : NumberEnd r := by
  intro b hb
  rcases h b hb with hw | rfl | rfl | rfl
  · simp only [isWs, Bool.or_eq_true, beq_iff_eq] at hw
    rcases hw with ((rfl | rfl) | rfl) | rfl <;> decide
  all_goals decide

lemma delim_ws (hw : Ws w) : Delim w := by
  intro b hb
  exact .inl (hw b (mem_of_mem_head? hb))

lemma delim_ws_cons (hw : Ws w) (hb : b = comma ∨ b = rbracket ∨ b = rbrace) (r : List UInt8) :
    Delim (w ++ b :: r) := by
  intro x hx
  cases w with
  | nil => exact .inr (by simpa using (by simpa using hx : b = x) ▸ hb)
  | cons y w =>
    obtain rfl : y = x := by simpa using hx
    exact .inl (hw y (by simp))

/-! ## The first byte of a value -/

variable {s r : List UInt8}

lemma Value.head {d : Doc} (h : Value s d r) :
    ∃ b t, s = b :: t ∧ isWs b = Bool.false ∧ b ≠ comma ∧ b ≠ colon ∧ b ≠ rbrace ∧ b ≠ rbracket := by
  cases h with
  | number r hl =>
    obtain ⟨b, t, rfl, hb⟩ := hl.head
    obtain ⟨hw, -, -, -, h1, h2, h3⟩ := isDigit_ne hb
    refine ⟨b, t ++ r, rfl, hw, h1, ?_, h2, h3⟩
    rintro rfl
    exact absurd hb (by decide)
  | _ => exact ⟨_, _, rfl, by decide⟩

lemma Value.skip_eq {d : Doc} (h : Value s d r) : skip s = s := by
  obtain ⟨b, t, rfl, hw, -⟩ := h.head
  exact skip_cons_of_not hw t

lemma skip_stringText (cs : List StrChar) (t : List UInt8) :
    skip (stringText cs ++ t) = stringText cs ++ t := by
  rw [stringText, cons_append, skip_cons_of_not (by decide)]

lemma Elements.head {ds : List Doc} (h : Elements s ds r) : (skip s).head? ≠ some rbracket := by
  cases h with
  | last hw _ hv | cons hw _ hv =>
    rw [skip_append hw, hv.skip_eq]
    obtain ⟨b, t, rfl, -, -, -, -, hb⟩ := hv.head
    simpa using hb

lemma Members.head {ms : List (List StrChar × Doc)} (h : Members s ms r) :
    (skip s).head? = some quote := by
  cases h with
  | last hw | cons hw => rw [skip_append hw]; rfl

lemma Members.ne_nil {ms : List (List StrChar × Doc)} (h : Members s ms r) : ms ≠ [] := by
  cases h <;> simp

lemma Elements.ne_nil {ds : List Doc} (h : Elements s ds r) : ds ≠ [] := by
  cases h <;> simp

end Cobalt.Json
