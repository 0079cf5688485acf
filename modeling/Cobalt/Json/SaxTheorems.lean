/-
Cobalt.Json.SaxTheorems — the streaming parser against the grammar.

A truncated text is never a JSON text: what the grammar allows ends, white
space apart, in the bracket or the quote that the truncated one lacks. So
the parser agrees with the grammar on every other input, the handler is
told of the events of the parse tree in pre-order, and on the truncated
inputs it answers `true` where the grammar has no parse.
-/
import Cobalt.Json.SaxAccepts

namespace Cobalt.Json

open List StrChar
open List (cons)

/-! ## The end of a text -/

mutual

lemma Value.exists_append {s r : List UInt8} {d : Doc} (h : Value s d r) : ∃ v, s = v ++ r := by
  cases h with
  | null | true | false | number | string => exact ⟨_, rfl⟩
  | @emptyArray w r => exact ⟨lbracket :: (w ++ [rbracket]), by simp⟩
  | @emptyObject w r => exact ⟨lbrace :: (w ++ [rbrace]), by simp⟩
  | array hs =>
    obtain ⟨t, rfl⟩ := hs.exists_append
    exact ⟨lbracket :: (t ++ [rbracket]), by simp⟩
  | object hs =>
    obtain ⟨t, rfl⟩ := hs.exists_append
    exact ⟨lbrace :: (t ++ [rbrace]), by simp⟩

lemma Elements.exists_append {s r : List UInt8} {ds : List Doc} (h : Elements s ds r) :
    ∃ t, s = t ++ rbracket :: r := by
  cases h with
  | @last w w' s r d _ _ hv =>
    obtain ⟨v, rfl⟩ := hv.exists_append
    exact ⟨w ++ (v ++ w'), by simp⟩
  | @cons w w' s s' r d ds _ _ hv hs =>
    obtain ⟨v, rfl⟩ := hv.exists_append
    obtain ⟨t, rfl⟩ := hs.exists_append
    exact ⟨w ++ (v ++ (w' ++ comma :: t)), by simp⟩

lemma Members.exists_append {s r : List UInt8} {ms : List (List StrChar × Doc)}
    (h : Members s ms r) : ∃ t, s = t ++ rbrace :: r := by
  cases h with
  | @last w wk wc w' s r k d _ _ _ _ _ hv =>
    obtain ⟨v, rfl⟩ := hv.exists_append
    exact ⟨w ++ (stringText k ++ (wk ++ colon :: (wc ++ (v ++ w')))), by simp⟩
  | @cons w wk wc w' s s' r k d ms _ _ _ _ _ hv hs =>
    obtain ⟨v, rfl⟩ := hv.exists_append
    obtain ⟨t, rfl⟩ := hs.exists_append
    exact ⟨w ++ (stringText k ++ (wk ++ colon :: (wc ++ (v ++ (w' ++ comma :: t))))), by simp⟩

end

/-- White space has no bracket, brace or comma in it. -/
lemma not_ws_append {t r : List UInt8} {b : UInt8} (hb : isWs b = false) : ¬ Ws (t ++ b :: r) := by
  intro hw
  rw [hw b (by simp)] at hb
  cases hb

/-- A bracket before white space is the last byte that is none; a comma at
the end is another. -/
lemma append_comma_ne {t t' r : List UInt8} {b : UInt8} (hb : b ≠ comma) (hr : Ws r) :
    t ++ [comma] ≠ t' ++ b :: r := by
  intro h
  have hlast := congrArg List.getLast? h
  rw [getLast?_concat, getLast?_append] at hlast
  rcases eq_nil_or_concat' r with rfl | ⟨r', x, rfl⟩
  · exact hb (by simpa using hlast.symm)
  · have hx : x = comma := by simpa [getLast?_cons] using hlast.symm
    have := hr x (by simp)
    rw [hx] at this
    exact absurd this (by decide)

/-! ## Literals that do not end -/

lemma StrChar.valid_head {c : StrChar} (hv : c.valid = true) :
    ∃ b t, c.text = b :: t ∧ b ≠ quote := by
  cases c with
  | raw b =>
    refine ⟨b, [], rfl, ?_⟩
    rintro rfl
    exact absurd hv (by decide)
  | esc c => exact ⟨backslash, [c], rfl, by decide⟩
  | uni a b c d => exact ⟨backslash, _, rfl, by decide⟩

/-- The spellings of the characters are prefix free. -/
lemma StrChar.text_append_inj {c c' : StrChar} {l l' : List UInt8} (hc : c.valid = true)
    (hc' : c'.valid = true) (h : c.text ++ l = c'.text ++ l') : l = l' := by
  have hraw : valid (.raw backslash) = false := by decide
  have hesc : valid (.esc 0x75) = false := by decide
  cases c <;> cases c' <;> simp only [text, cons_append, nil_append, cons.injEq] at h
  case raw.raw => exact h.2
  case raw.esc => rw [h.1, hraw] at hc; cases hc
  case raw.uni => rw [h.1, hraw] at hc; cases hc
  case esc.raw => rw [← h.1, hraw] at hc'; cases hc'
  case esc.esc => exact h.2.2
  case esc.uni => rw [h.2.1, hesc] at hc; cases hc
  case uni.raw => rw [← h.1, hraw] at hc'; cases hc'
  case uni.esc => rw [← h.2.1, hesc] at hc'; cases hc'
  case uni.uni => exact h.2.2.2.2.2.2

/-- Characters of a literal never spell a closing quote. -/
lemma charsText_ne {cs cs' : List StrChar} {r : List UInt8} (hv : ValidChars cs)
    (hv' : ValidChars cs') : charsText cs ≠ charsText cs' ++ quote :: r := by
  induction cs' generalizing cs with
  | nil =>
    intro h
    cases cs with
    | nil => cases h
    | cons c cs =>
      obtain ⟨b, t, hb, hne⟩ := valid_head (hv c mem_cons_self)
      rw [charsText, flatMap_cons, hb] at h
      exact hne (cons.inj h).1
  | cons c' cs' ih =>
    intro h
    have hc' := hv' c' mem_cons_self
    obtain ⟨b, t, hb, -⟩ := valid_head hc'
    rw [show charsText (c' :: cs') = c'.text ++ charsText cs' from flatMap_cons ..,
      append_assoc] at h
    cases cs with
    | nil => rw [hb] at h; cases h
    | cons c cs =>
      rw [show charsText (c :: cs) = c.text ++ charsText cs from flatMap_cons ..] at h
      exact ih (fun x hx => hv x (mem_cons_of_mem _ hx))
        (fun x hx => hv' x (mem_cons_of_mem _ hx))
        (text_append_inj (hv c mem_cons_self) hc' h)

namespace Sax

lemma ElementsCut.exists_append {s : List UInt8} {ds : List Doc} (h : ElementsCut s ds) :
    ∃ t, s = t ++ [comma] := by
  induction h with
  | @last w w' s d _ _ hv =>
    obtain ⟨v, rfl⟩ := hv.exists_append
    exact ⟨w ++ (v ++ w'), by simp⟩
  | @cons w w' s s' d ds _ _ hv _ ih =>
    obtain ⟨v, rfl⟩ := hv.exists_append
    obtain ⟨t, rfl⟩ := ih
    exact ⟨w ++ (v ++ (w' ++ comma :: t)), by simp⟩

lemma MembersCut.exists_append {s : List UInt8} {ms : List (List StrChar × Doc)}
    (h : MembersCut s ms) : ∃ t, s = t ++ [comma] := by
  induction h with
  | @last w wk wc w' s k d _ _ _ _ _ hv =>
    obtain ⟨v, rfl⟩ := hv.exists_append
    exact ⟨w ++ (stringText k ++ (wk ++ colon :: (wc ++ (v ++ w')))), by simp⟩
  | @cons w wk wc w' s s' k d ms _ _ _ _ _ hv _ ih =>
    obtain ⟨v, rfl⟩ := hv.exists_append
    obtain ⟨t, rfl⟩ := ih
    exact ⟨w ++ (stringText k ++ (wk ++ colon :: (wc ++ (v ++ (w' ++ comma :: t))))), by simp⟩

/-! ## The first byte decides the form of a value -/

lemma value_closes {b : UInt8} {s t r : List UInt8} {d : Doc} (h : Value s d r) (hs : s = b :: t) :
    (b = lbracket → ∃ u, t = u ++ rbracket :: r) ∧ (b = lbrace → ∃ u, t = u ++ rbrace :: r) ∧
      (b = quote → ∃ cs, ValidChars cs ∧ t = charsText cs ++ quote :: r) := by
  cases h with
  | null | true | false =>
    obtain ⟨rfl, -⟩ := cons.inj hs
    exact ⟨fun h => absurd h (by decide), fun h => absurd h (by decide),
      fun h => absurd h (by decide)⟩
  | number r hl =>
    obtain ⟨b', t', rfl, hb⟩ := hl.head
    obtain ⟨rfl, -⟩ := cons.inj hs
    obtain ⟨-, h1, h2, h3, -⟩ := isDigit_ne hb
    exact ⟨fun h => absurd h h2, fun h => absurd h h1, fun h => absurd h h3⟩
  | @string cs r hv =>
    rw [stringText, cons_append, append_assoc] at hs
    obtain ⟨rfl, rfl⟩ := cons.inj hs
    exact ⟨fun h => absurd h (by decide), fun h => absurd h (by decide), fun _ => ⟨cs, hv, rfl⟩⟩
  | @emptyArray w r _ =>
    obtain ⟨rfl, rfl⟩ := cons.inj hs
    exact ⟨fun _ => ⟨w, rfl⟩, fun h => absurd h (by decide), fun h => absurd h (by decide)⟩
  | array hes =>
    obtain ⟨rfl, rfl⟩ := cons.inj hs
    exact ⟨fun _ => hes.exists_append, fun h => absurd h (by decide), fun h => absurd h (by decide)⟩
  | @emptyObject w r _ =>
    obtain ⟨rfl, rfl⟩ := cons.inj hs
    exact ⟨fun h => absurd h (by decide), fun _ => ⟨w, rfl⟩, fun h => absurd h (by decide)⟩
  | object hms =>
    obtain ⟨rfl, rfl⟩ := cons.inj hs
    exact ⟨fun h => absurd h (by decide), fun _ => hms.exists_append, fun h => absurd h (by decide)⟩

lemma Truncated.not_value {k : Nat} {s r : List UInt8} {d : Doc} (h : Truncated k s)
    (hr : Ws r) : ¬ Value s d r := by
  intro hv
  cases h with
  | string hcs =>
    obtain ⟨cs', hcs', heq⟩ := (value_closes hv rfl).2.2 rfl
    exact charsText_ne hcs hcs' heq
  | bracket _ hw =>
    obtain ⟨t, rfl⟩ := (value_closes hv rfl).1 rfl
    exact not_ws_append (by decide) hw
  | elements hc =>
    obtain ⟨t, rfl⟩ := hc.exists_append
    obtain ⟨t', heq⟩ := (value_closes hv rfl).1 rfl
    exact append_comma_ne (by decide) hr heq
  | brace _ hw =>
    obtain ⟨t, rfl⟩ := (value_closes hv rfl).2.1 rfl
    exact not_ws_append (by decide) hw
  | members hc =>
    obtain ⟨t, rfl⟩ := hc.exists_append
    obtain ⟨t', heq⟩ := (value_closes hv rfl).2.1 rfl
    exact append_comma_ne (by decide) hr heq

/-! ## The whole input -/

/-- A JSON text within the limits of the parser, and its parse tree. -/
def Conforms (s : List UInt8) (d : Doc) : Prop := JsonText s d ∧ Fits 0 d

lemma conforms_iff {s : List UInt8} {d : Doc} :
    Conforms s d ↔ (∃ w, Ws w ∧ Value (skip s) d w) ∧ Fits 0 d := by
  refine and_congr_left fun _ => ?_
  constructor
  · rintro ⟨w, s', w', rfl, hw, hv, hw'⟩
    exact ⟨w', hw', by rwa [skip_append hw, hv.skip_eq]⟩
  · rintro ⟨w', hw', hv⟩
    obtain ⟨w, hw, hs⟩ := skip_split s
    exact ⟨w, skip s, w', hs, hw, hv, hw'⟩

variable {D : Type} {handler : Handler D} {strtod : List UInt8 → D} {s : List UInt8}
  {err : Option Error}

open SaxParser

lemma ws_of_skip_eq_nil {s : List UInt8} (h : skip s = []) : Ws s := by
  obtain ⟨w, hw, hs⟩ := skip_split s
  rw [h, append_nil] at hs
  exact hs ▸ hw

lemma rest_start : (start s err : SaxParser D).rest = s := rfl

/-- What is accepted is a text of the grammar or a truncated one. -/
lemma parseRoot_sound {p' : SaxParser D} (h : parseRoot handler strtod s err = (true, p')) :
    (∃ d, Conforms s d) ∨ Truncated 0 (skip s) := by
  rw [parseRoot] at h
  dsimp only at h
  split at h
  · cases h
  · obtain ⟨p1, hvalue, h⟩ := andThen_eq_true h
    have hnil : skip p1.rest = [] := by
      split at h
      · cases h
      · rename_i hge
        rw [← rest_skip]
        exact rest_eq_nil_iff.mpr (Nat.le_of_not_lt hge)
    have hk : (skipWhitespace (start s err : SaxParser D)).depth ≤ maxDepth :=
      depth_skip (start s err : SaxParser D) ▸ Nat.zero_le _
    cases ((parsersSound handler strtod _).value hk hvalue).skip with
    | @whole d _ hv hf _ =>
      exact .inl ⟨d, conforms_iff.mpr ⟨⟨p1.rest, ws_of_skip_eq_nil hnil, hv⟩, hf⟩⟩
    | cut hc _ _ => exact .inr hc

lemma parseRoot_takes {p : SaxParser D} {w : List UInt8} {es : List (Event D)} {b : UInt8}
    {t : List UInt8} (hp : skipWhitespace (start s err) = p) (hs : skip s = b :: t) (hw : Ws w)
    (h : Takes handler (parseValue handler strtod (valueFuel p) p) p w es) :
    ∃ p', parseRoot handler strtod s err = (true, p') ∧ p'.trace = handler.hears es := by
  subst hp
  have hr : (skipWhitespace (start s err : SaxParser D)).rest = b :: t := (rest_skip _).trans hs
  obtain ⟨p1, l, hvalue, hr1, h1⟩ := h.of_skip
  obtain ⟨w', -, h2, hr2⟩ := reads_skip p1
  have htrace : (skipWhitespace p1).trace = [] ++ (handler.hears es ++ []) := (h1.trans h2).trace
  refine ⟨skipWhitespace p1, ?_, by simpa using htrace⟩
  rw [parseRoot]
  dsimp only
  rw [if_neg (Nat.not_le.mpr (lt_of_rest hr)), hvalue]
  rw [hr1, skip_ws hw] at hr2
  exact if_neg (Nat.not_lt.mpr (rest_eq_nil_iff.mp hr2))

lemma fuel_start : 3 * (skipWhitespace (start s err : SaxParser D)).rest.length + 3 ≤
    valueFuel (skipWhitespace (start s err : SaxParser D)) := by
  rw [valueFuel, length_rest]

/-- A text of the grammar is accepted, with its events. -/
lemma parseRoot_complete (strtod : List UInt8 → D) (ha : handler.Accepts) {d : Doc} (h : Conforms s d) :
    ∃ p', parseRoot handler strtod s err = (true, p') ∧
      p'.trace = handler.hears (d.events strtod) := by
  obtain ⟨⟨w, hw, hv⟩, hf⟩ := conforms_iff.mp h
  obtain ⟨b, t, hb, -⟩ := hv.head
  refine parseRoot_takes rfl hb hw ?_
  exact value_complete ha hv (by rw [rest_skip, skip_skip, rest_start]) (delim_ws hw)
    (by rwa [depth_skip]) fuel_start

lemma parseRoot_truncated (strtod : List UInt8 → D) (ha : handler.Accepts) (h : Truncated 0 (skip s)) :
    ∃ p', parseRoot handler strtod s err = (true, p') := by
  obtain ⟨b, t, hb⟩ : ∃ b t, skip s = b :: t := by
    cases hs : skip s with
    | nil => rw [hs] at h; cases h
    | cons b t => exact ⟨b, t, rfl⟩
  have hk : (skipWhitespace (start s err : SaxParser D)).depth = 0 := depth_skip _
  obtain ⟨es, htakes⟩ := truncated_complete (p := skipWhitespace (start s err)) ha (hk.symm ▸ h)
    (by rw [rest_skip, skip_skip, rest_start]) fuel_start
  obtain ⟨p', hroot, -⟩ := parseRoot_takes rfl hb ws_nil htakes
  exact ⟨p', hroot⟩

/-- The streaming parser answers `true` on the JSON texts within its limits
and on no other input, and the handler hears the events of the text, unless
the input is a text that was truncated where the parser does not notice. -/
theorem cobaltJsonSaxParse_exact_iff (strtod : List UInt8 → D) (handler : Handler D)
    (ha : handler.Accepts) (s : List UInt8) (wantsErr : Bool) :
    (((cobaltJsonSaxParse strtod (some s) (some handler) wantsErr).ok = true ↔ ∃ d, Conforms s d) ∧
      ∀ d, Conforms s d → (cobaltJsonSaxParse strtod (some s) (some handler) wantsErr).trace =
        handler.hears (d.events strtod)) ↔ ¬ Truncated 0 (skip s) := by
  rw [cobaltJsonSaxParse]
  dsimp only
  constructor
  · rintro ⟨hok, -⟩ htrunc
    obtain ⟨p', hroot⟩ := parseRoot_truncated strtod ha htrunc
    rw [hroot] at hok
    obtain ⟨d, hd⟩ := hok.mp rfl
    obtain ⟨⟨w, hw, hv⟩, -⟩ := conforms_iff.mp hd
    exact htrunc.not_value hw hv
  · intro htrunc
    refine ⟨⟨fun hok => ?_, ?_⟩, ?_⟩
    · exact (parseRoot_sound (Prod.ext hok rfl)).resolve_right htrunc
    · rintro ⟨d, hd⟩
      obtain ⟨p', hroot, -⟩ := parseRoot_complete strtod ha hd
      rw [hroot]
    · intro d hd
      obtain ⟨p', hroot, htrace⟩ := parseRoot_complete strtod ha hd
      rw [hroot]
      exact htrace

/-- A handler that listens to everything and never aborts. -/
def listening (D : Type) : Handler D where
  onNull := some fun _ => true
  onBool := some fun _ => true
  onNumber := some fun _ => true
  onString := some fun _ => true
  onKey := some fun _ => true
  onStartObject := some fun _ => true
  onEndObject := some fun _ => true
  onStartArray := some fun _ => true
  onEndArray := some fun _ => true

lemma listening_accepts (D : Type) : (listening D).Accepts where
  onNull := by rintro _ ⟨⟩ _; rfl
  onBool := by rintro _ ⟨⟩ _; rfl
  onNumber := by rintro _ ⟨⟩ _; rfl
  onString := by rintro _ ⟨⟩ _; rfl
  onKey := by rintro _ ⟨⟩ _; rfl
  onStartObject := by rintro _ ⟨⟩ _; rfl
  onEndObject := by rintro _ ⟨⟩ _; rfl
  onStartArray := by rintro _ ⟨⟩ _; rfl
  onEndArray := by rintro _ ⟨⟩ _; rfl

/-- `[1]`, with lexemes for numbers. -/
theorem cobaltJsonSaxParse_exact_one :
    (listening (List UInt8)).Accepts ∧
      ((((cobaltJsonSaxParse id (some [0x5B, 0x31, 0x5D]) (some (listening (List UInt8)))
            true).ok = true ↔ ∃ d, Conforms [0x5B, 0x31, 0x5D] d) ∧
        ∀ d, Conforms [0x5B, 0x31, 0x5D] d →
          (cobaltJsonSaxParse id (some [0x5B, 0x31, 0x5D]) (some (listening (List UInt8)))
            true).trace = (listening (List UInt8)).hears (d.events id)) ↔
      ¬ Truncated 0 (skip [0x5B, 0x31, 0x5D])) :=
  ⟨listening_accepts _, cobaltJsonSaxParse_exact_iff id _ (listening_accepts _) _ true⟩

/-- `[` is accepted and is not a JSON text. -/
theorem cobaltJsonSaxParse_openBracket :
    (listening (List UInt8)).Accepts ∧
      (cobaltJsonSaxParse id (some [lbracket]) (some (listening (List UInt8))) false).ok = true ∧
      ¬ ∃ d, Conforms [lbracket] d := by
  refine ⟨listening_accepts _, by decide +kernel, ?_⟩
  rintro ⟨d, hd⟩
  obtain ⟨⟨w, hw, hv⟩, -⟩ := conforms_iff.mp hd
  have htrunc : Truncated 0 (skip [lbracket]) := .bracket (by decide) ws_nil
  exact htrunc.not_value hw hv

end Sax

end Cobalt.Json
