/-
Cobalt.Json.Compact — JSON text without white space.

`Doc.text` writes a parse tree down. For a tree whose lexemes and literals
are those of the grammar the result is a text of that tree (`value_text`),
so a reader of the grammar can be run on what a writer produced.
-/
import Cobalt.Json.Lexical

namespace Cobalt.Json

open List StrChar

lemma number_digit {b : UInt8} (hb : isDigit b = true) : Number [b] := by
  refine ⟨[], [b], [], [], rfl, .inl rfl, ?_, .inl rfl, .inl rfl⟩
  by_cases h0 : b = 0x30
  · exact .inl (by rw [h0])
  · exact .inr ⟨⟨by simp, by simpa using hb⟩, by simpa using h0⟩

namespace Doc

mutual

/-- The text of a tree without white space. -/
def text : Doc → List UInt8
  | .null => nullText
  | .true => trueText
  | .false => falseText
  | .number l => l
  | .string cs => stringText cs
  | .array ds => lbracket :: textElems ds
  | .object ms => lbrace :: textMembers ms

/-- The elements of an array with its closing bracket. -/
def textElems : List Doc → List UInt8
  | [] => [rbracket]
  | [d] => d.text ++ [rbracket]
  | d :: d' :: ds => d.text ++ comma :: textElems (d' :: ds)

/-- The members of an object with its closing brace. -/
def textMembers : List (List StrChar × Doc) → List UInt8
  | [] => [rbrace]
  | [(key, d)] => stringText key ++ colon :: (d.text ++ [rbrace])
  | (key, d) :: m :: ms => stringText key ++ colon :: (d.text ++ comma :: textMembers (m :: ms))

end

mutual

/-- The lexemes and literals of the tree are those of the grammar. -/
def WellFormed : Doc → Prop
  | .number l => Number l
  | .string cs => ValidChars cs
  | .array ds => WellFormedElems ds
  | .object ms => WellFormedMembers ms
  | _ => True

def WellFormedElems : List Doc → Prop
  | [] => True
  | d :: ds => d.WellFormed ∧ WellFormedElems ds

def WellFormedMembers : List (List StrChar × Doc) → Prop
  | [] => True
  | (key, d) :: ms => ValidChars key ∧ d.WellFormed ∧ WellFormedMembers ms

end

mutual

lemma value_text : (d : Doc) → d.WellFormed → (r : List UInt8) → Value (d.text ++ r) d r
  | .null, _, r => .null r
  | .true, _, r => .true r
  | .false, _, r => .false r
  | .number _, h, r => .number r h
  | .string _, h, r => .string r h
  | .array ds, h, r => by
      cases ds with
      | nil => exact .emptyArray (w := []) r ws_nil
      | cons d ds => exact .array (elements_text (d :: ds) (by simp) h r)
  | .object ms, h, r => by
      cases ms with
      | nil => exact .emptyObject (w := []) r ws_nil
      | cons m ms => exact .object (members_text (m :: ms) (by simp) h r)

lemma elements_text : (ds : List Doc) → ds ≠ [] → WellFormedElems ds →
    (r : List UInt8) → Elements (textElems ds ++ r) ds r
  | [], h, _, _ => absurd rfl h
  | [d], _, h, r => by
      have hv := value_text d h.1 (rbracket :: r)
      simpa [textElems] using @Elements.last [] [] _ _ _ ws_nil ws_nil hv
  | d :: d' :: ds, _, h, r => by
      have hv := value_text d h.1 (comma :: (textElems (d' :: ds) ++ r))
      simpa [textElems] using @Elements.cons [] [] _ _ _ _ _ ws_nil ws_nil hv
        (elements_text (d' :: ds) (by simp) h.2 r)

lemma members_text : (ms : List (List StrChar × Doc)) → ms ≠ [] →
    WellFormedMembers ms → (r : List UInt8) → Members (textMembers ms ++ r) ms r
  | [], h, _, _ => absurd rfl h
  | [(key, d)], _, h, r => by
      have hv := value_text d h.2.1 (rbrace :: r)
      simpa [textMembers] using @Members.last [] [] [] [] _ _ _ _ ws_nil h.1 ws_nil ws_nil ws_nil hv
  | (key, d) :: m :: ms, _, h, r => by
      have hv := value_text d h.2.1 (comma :: (textMembers (m :: ms) ++ r))
      simpa [textMembers] using @Members.cons [] [] [] [] _ _ _ _ _ _ ws_nil h.1 ws_nil ws_nil ws_nil hv
        (members_text (m :: ms) (by simp) h.2.2 r)

end

/-! ## No NUL in a text -/

lemma digits_ne_zero {l : List UInt8} (h : ∀ b ∈ l, isDigit b = Bool.true) : ∀ b ∈ l, b ≠ 0 := by
  rintro b hb rfl
  exact absurd (h 0 hb) (by decide)

lemma number_ne_zero {l : List UInt8} (h : Number l) : ∀ b ∈ l, b ≠ 0 := by
  obtain ⟨m, i, f, e, rfl, hm, hi, hf, he⟩ := h
  have hm' : ∀ b ∈ m, b ≠ 0 := by rcases hm with rfl | rfl <;> simp
  have hi' : ∀ b ∈ i, b ≠ 0 := by
    rcases hi with rfl | ⟨hd, -⟩
    · simp
    · exact digits_ne_zero hd.2
  have hf' : ∀ b ∈ f, b ≠ 0 := by
    rcases hf with rfl | ⟨ds, rfl, hd⟩
    · simp
    · rw [forall_mem_cons]
      exact ⟨by decide, digits_ne_zero hd.2⟩
  have he' : ∀ b ∈ e, b ≠ 0 := by
    rcases he with rfl | ⟨x, sign, ds, rfl, hx, hs, hd⟩
    · simp
    · rw [forall_mem_cons, forall_mem_append]
      refine ⟨by rcases hx with rfl | rfl <;> decide, ?_, digits_ne_zero hd.2⟩
      rcases hs with rfl | rfl | rfl <;> simp
  simp only [forall_mem_append]
  exact ⟨hm', hi', hf', he'⟩

lemma hexVal?_zero : hexVal? 0 = none := by decide

lemma strChar_ne_zero {c : StrChar} (h : c.valid = Bool.true) : ∀ b ∈ c.text, b ≠ 0 := by
  cases c with
  | raw b =>
    simp only [valid, Bool.and_eq_true, decide_eq_true_eq] at h
    simp only [StrChar.text, mem_singleton, forall_eq]
    rintro rfl
    exact absurd h.1.1 (by decide)
  | esc e =>
    simp only [StrChar.text, forall_mem_cons, not_mem_nil, false_implies, implies_true, and_true]
    refine ⟨by decide, ?_⟩
    rintro rfl
    exact absurd h (by decide)
  | uni a b c d =>
    simp only [valid, hex4?, Option.bind_eq_bind, Option.isSome_bind, Option.any_eq_true] at h
    obtain ⟨va, ha, vb, hb, vc, hc, vd, hd, -⟩ := h
    have hne : ∀ {x : UInt8} {v : Nat}, hexVal? x = some v → x ≠ 0 := by
      rintro x v hx rfl
      rw [hexVal?_zero] at hx
      cases hx
    simp only [StrChar.text, forall_mem_cons, not_mem_nil, false_implies, implies_true, and_true]
    exact ⟨by decide, by decide, hne ha, hne hb, hne hc, hne hd⟩

lemma stringText_ne_zero {cs : List StrChar} (h : ValidChars cs) : ∀ b ∈ stringText cs, b ≠ 0 := by
  have hcs : ∀ b ∈ charsText cs, b ≠ 0 := by
    intro b hb
    obtain ⟨c, hc, hb⟩ := mem_flatMap.mp hb
    exact strChar_ne_zero (h c hc) b hb
  rw [stringText, forall_mem_cons, forall_mem_append]
  exact ⟨by decide, hcs, by simp⟩

mutual

lemma text_ne_zero : (d : Doc) → d.WellFormed → ∀ b ∈ d.text, b ≠ 0
  | .null, _ => by simp [text, nullText]
  | .true, _ => by simp [text, trueText]
  | .false, _ => by simp [text, falseText]
  | .number _, h => number_ne_zero h
  | .string _, h => stringText_ne_zero h
  | .array ds, h => by
      rw [text, forall_mem_cons]
      exact ⟨by decide, textElems_ne_zero ds h⟩
  | .object ms, h => by
      rw [text, forall_mem_cons]
      exact ⟨by decide, textMembers_ne_zero ms h⟩

lemma textElems_ne_zero : (ds : List Doc) → WellFormedElems ds → ∀ b ∈ textElems ds, b ≠ 0
  | [], _ => by simp [textElems]
  | [d], h => by
      rw [textElems, forall_mem_append]
      exact ⟨text_ne_zero d h.1, by simp⟩
  | d :: d' :: ds, h => by
      rw [textElems, forall_mem_append, forall_mem_cons]
      exact ⟨text_ne_zero d h.1, by decide, textElems_ne_zero (d' :: ds) h.2⟩

lemma textMembers_ne_zero : (ms : List (List StrChar × Doc)) → WellFormedMembers ms →
    ∀ b ∈ textMembers ms, b ≠ 0
  | [], _ => by simp [textMembers]
  | [(key, d)], h => by
      rw [textMembers, forall_mem_append, forall_mem_cons, forall_mem_append]
      exact ⟨stringText_ne_zero h.1, by decide, text_ne_zero d h.2.1, by simp⟩
  | (key, d) :: m :: ms, h => by
      rw [textMembers, forall_mem_append, forall_mem_cons, forall_mem_append, forall_mem_cons]
      exact ⟨stringText_ne_zero h.1, by decide, text_ne_zero d h.2.1, by decide,
        textMembers_ne_zero (m :: ms) h.2.2⟩

end

lemma jsonText_text (d : Doc) (h : d.WellFormed) : JsonText d.text d :=
  ⟨[], d.text, [], rfl, ws_nil, by simpa using d.value_text h [], ws_nil⟩

end Doc

end Cobalt.Json
