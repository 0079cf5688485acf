/-
Cobalt.Json.SerializeText — what the serializer writes is JSON.

`docNode` is the parse tree of what `serialize_node` writes for a node. It
follows the links the serializer follows, so for an empty container in a
chain of siblings it holds the siblings that come after it.
`serializeNode_eq_text` says that the bytes written are the text of that
tree without white space.
-/
import Cobalt.Json.Compact
import Cobalt.Json.Serialize
import Cobalt.Json.DomSync

namespace Cobalt.Json

open List Bool

variable {D : Type}

/-! ## Strings -/

/-- The character of a literal a byte is written as. -/
def escapeChar (b : UInt8) : StrChar :=
  if b == quote then .esc quote
  else if b == backslash then .esc backslash
  else if b == 0x0A then .esc 0x6E
  else if b == 0x0D then .esc 0x72
  else if b == 0x09 then .esc 0x74
  else if b == 0x08 then .esc 0x62
  else if b == 0x0C then .esc 0x66
  else if b < 0x20 then .uni 0x30 0x30 (hexDigit (b.toNat / 16)) (hexDigit (b.toNat % 16))
  else .raw b

lemma text_escapeChar (b : UInt8) : (escapeChar b).text = escapeByte b := by
  simp only [escapeChar, escapeByte]
  repeat' split
  all_goals rfl

variable {b a c d : UInt8}

lemma escapeByte_of_plain (h : needsEscape b = false) : escapeByte b = [b] := by
  simp only [needsEscape, or_eq_false_iff, beq_eq_false_iff_ne, decide_eq_false_iff_not] at h
  obtain ⟨⟨hq, hs⟩, hlt⟩ := h
  have hne : ∀ x : UInt8, x < 0x20 → b ≠ x := by rintro x hx rfl; exact hlt hx
  simp [escapeByte, hq, hs, hlt, hne 0x0A (by decide), hne 0x0D (by decide), hne 0x09 (by decide),
    hne 0x08 (by decide), hne 0x0C (by decide)]

/-- The fast path writes what the slow path would. -/
lemma bufAppendEscapedString_eq (s : List UInt8) :
    bufAppendEscapedString s = stringText (s.map escapeChar) := by
  have hslow : charsText (s.map escapeChar) = s.flatMap escapeByte := by
    simp [charsText, flatMap_map, text_escapeChar]
  rw [bufAppendEscapedString, stringText, hslow]
  split
  · rfl
  · rename_i hany
    have hplain : ∀ b ∈ s, escapeByte b = [b] := by
      intro b hb
      apply escapeByte_of_plain
      rw [not_eq_true, any_eq_false] at hany
      simpa using hany b hb
    rw [flatMap_congr hplain]
    simp

lemma unit_escape (hb : b < 0x20) :
    hex4? 0x30 0x30 (hexDigit (b.toNat / 16)) (hexDigit (b.toNat % 16)) = some b.toNat := by
  have hlt : b.toNat < 32 := UInt8.lt_iff_toNat_lt.mp hb
  have hall : ∀ n < 32, hex4? 0x30 0x30 (hexDigit (n / 16)) (hexDigit (n % 16)) = some n := by
    decide
  exact hall _ hlt

lemma escapeChar_cases (b : UInt8) :
    (∃ e, escapeChar b = .esc e ∧ escByte? e = some b)
      ∨ (∃ x y, escapeChar b = .uni 0x30 0x30 x y ∧ hex4? 0x30 0x30 x y = some b.toNat
        ∧ b.toNat < 0x20)
      ∨ (escapeChar b = .raw b ∧ 0x20 ≤ b ∧ b ≠ quote ∧ b ≠ backslash) := by
  rw [escapeChar]
  split
  · rename_i h; simp only [beq_iff_eq] at h; subst h; exact .inl ⟨_, rfl, by decide⟩
  · rename_i hq
    split
    · rename_i h; simp only [beq_iff_eq] at h; subst h; exact .inl ⟨_, rfl, by decide⟩
    · rename_i hs
      iterate 5
        split
        · rename_i h; simp only [beq_iff_eq] at h; subst h; exact .inl ⟨_, rfl, by decide⟩
      split
      · rename_i hlt
        exact .inr (.inl ⟨_, _, rfl, unit_escape hlt, UInt8.lt_iff_toNat_lt.mp hlt⟩)
      · rename_i hge
        exact .inr (.inr ⟨rfl, UInt8.not_lt.mp hge, by simpa using hq, by simpa using hs⟩)

lemma decode_uni (h : isHigh (unit a b c d) = false) (cs : List StrChar) :
    decode (.uni a b c d :: cs) = utf8 (unit a b c d) ++ decode cs := by
  cases cs with
  | nil => rfl
  | cons x cs =>
    cases x with
    | uni a' b' c' d' =>
      rw [decode, if_neg]
      rw [h]
      simp
    | _ => rfl

lemma paired_uni (h : isHigh (unit a b c d) = false) (hl : isLow (unit a b c d) = false)
    (cs : List StrChar) : paired (.uni a b c d :: cs) = paired cs := by
  cases cs with
  | nil => simp [paired, h, hl]
  | cons x cs => cases x <;> simp [paired, h, hl]

lemma utf8_ascii (b : UInt8) (hb : b.toNat < 0x20) : utf8 b.toNat = [b] := by
  rw [utf8, if_pos (by omega), UInt8.ofNat_toNat]

/-- A byte that is not zero is written as a character that stands for it. -/
lemma escapeChar_spec (hb : b ≠ 0) (cs : List StrChar) :
    (escapeChar b).valid = true ∧ decode (escapeChar b :: cs) = b :: decode cs
      ∧ paired (escapeChar b :: cs) = paired cs
      ∧ noNulEscape (escapeChar b :: cs) = noNulEscape cs := by
  rcases escapeChar_cases b with ⟨e, he, hx⟩ | ⟨x, y, he, hx, hlt⟩ | ⟨he, hge, hq, hs⟩
  · rw [he]
    exact ⟨by simp [StrChar.valid, hx], by simp [decode, hx], rfl, rfl⟩
  · have hu : unit 0x30 0x30 x y = b.toNat := by rw [unit, hx]; rfl
    have hhi : isHigh (unit 0x30 0x30 x y) = false := by rw [hu]; simp [isHigh]; omega
    have hlo : isLow (unit 0x30 0x30 x y) = false := by rw [hu]; simp [isLow]; omega
    have h0 : b.toNat ≠ 0 := fun h => hb (UInt8.toNat_inj.mp h)
    rw [he]
    refine ⟨by simp [StrChar.valid, hx], ?_, paired_uni hhi hlo cs, ?_⟩
    · rw [decode_uni hhi, hu, utf8_ascii b hlt]
      rfl
    · simp [noNulEscape, hu, h0]
  · rw [he]
    exact ⟨by simp [StrChar.valid, hge, hq, hs], rfl, rfl, rfl⟩

/-- An escaped string reads back as the string. -/
lemma escaped_spec {s : List UInt8} (hs : ∀ b ∈ s, b ≠ 0) :
    ValidChars (s.map escapeChar) ∧ portable (s.map escapeChar) = true
      ∧ decode (s.map escapeChar) = s := by
  induction s with
  | nil => exact ⟨fun _ h => absurd h not_mem_nil, rfl, rfl⟩
  | cons b s ih =>
    obtain ⟨ihv, ihp, ihd⟩ := ih fun x hx => hs x (mem_cons_of_mem _ hx)
    obtain ⟨hv, hd, hp, hn⟩ := escapeChar_spec (hs b (mem_cons_self ..)) (s.map escapeChar)
    refine ⟨?_, ?_, ?_⟩
    · rw [map_cons, ValidChars, forall_mem_cons]
      exact ⟨hv, ihv⟩
    · rw [map_cons, portable, hp, hn]
      exact ihp
    · rw [map_cons, hd, ihd]

/-! ## The tree of what is written -/

section

variable (fmt : D → List UInt8)

/-- The literal of a C string. -/
def literal (s : List UInt8) : List StrChar := (cstr s).map escapeChar

/-- The tree of `fieldsText`. -/
def fieldsDoc (ty : NodeType) (v : NodeValue D) (elements : List Doc)
    (members : List (List StrChar × Doc)) : Doc :=
  match ty, v with
  | .null, _ => .null
  | .true, _ => .true
  | .false, _ => .false
  | .number, .number x => .number (fmt x)
  | .number, _ => .number [0x30]
  | .string, .string s => .string (literal s)
  | .string, _ => .string []
  | .array, _ => .array elements
  | .object, _ => .object members

mutual

def docNode : NodePtr D → Doc
  | .null => .null
  | .node ty v next child _ =>
      fieldsDoc fmt ty v (if child.isNull then docElements next else docElements child)
        (if child.isNull then docMembers next else docMembers child)

def docElements : NodePtr D → List Doc
  | .null => []
  | .node ty v next child _ =>
      fieldsDoc fmt ty v (if child.isNull then docElements next else docElements child)
        (if child.isNull then docMembers next else docMembers child)
      :: docElements next

def docMembers : NodePtr D → List (List StrChar × Doc)
  | .null => []
  | .node _ _ next child key =>
      (literal (key.getD []), if child.isNull then docNode next else docNode child)
      :: (if child.isNull then
            match next with
            | .null => []
            | .node _ _ next' _ _ => docMembers next'
          else docMembers next)

end

lemma docMembers_node (ty : NodeType) (v : NodeValue D) (next child : NodePtr D)
    (key : Option (List UInt8)) :
    docMembers fmt (.node ty v next child key)
      = (literal (key.getD []), if child.isNull then docNode fmt next else docNode fmt child)
        :: docMembers fmt (next.memberAfter child) := by
  cases next <;> cases child <;> rfl

lemma fieldsText_eq (ty : NodeType) (v : NodeValue D) {elements members : List UInt8}
    {ds : List Doc} {ms : List (List StrChar × Doc)}
    (he : elements ++ [rbracket] = Doc.textElems ds)
    (hm : members ++ [rbrace] = Doc.textMembers ms) :
    fieldsText fmt ty v elements members = (fieldsDoc fmt ty v ds ms).text := by
  cases ty with
  | array => rw [fieldsText, he]; rfl
  | object => rw [fieldsText, hm]; rfl
  | string =>
    cases v with
    | string s => rw [fieldsText, bufAppendEscapedString_eq]; rfl
    | _ => rfl
  | number => cases v <;> rfl
  | _ => rfl

lemma serializeElements_false (p : NodePtr D) :
    serializeElements fmt false p
      = if p.isNull then [] else comma :: serializeElements fmt true p := by
  cases p with
  | null => rfl
  | node => rw [serializeElements, serializeElements]; rfl

lemma serializeMembers_false (p : NodePtr D) :
    serializeMembers fmt false p
      = if p.isNull then [] else comma :: serializeMembers fmt true p := by
  cases p with
  | null => rfl
  | node => rw [serializeMembers_node, serializeMembers_node]; rfl

lemma textElems_cons (d : Doc) (p : NodePtr D)
    (h : serializeElements fmt true p ++ [rbracket] = Doc.textElems (docElements fmt p)) :
    d.text ++ (serializeElements fmt false p ++ [rbracket])
      = Doc.textElems (d :: docElements fmt p) := by
  rw [serializeElements_false]
  cases p with
  | null => rfl
  | node ty v next child key =>
    rw [docElements] at h ⊢
    rw [Doc.textElems, ← h]
    rfl

lemma textMembers_cons (key : List StrChar) (d : Doc) (p : NodePtr D)
    (h : serializeMembers fmt true p ++ [rbrace] = Doc.textMembers (docMembers fmt p)) :
    stringText key ++ colon :: (d.text ++ (serializeMembers fmt false p ++ [rbrace]))
      = Doc.textMembers ((key, d) :: docMembers fmt p) := by
  rw [serializeMembers_false]
  cases p with
  | null => rfl
  | node ty v next child key =>
    rw [docMembers_node] at h ⊢
    rw [Doc.textMembers, ← h]
    rfl

mutual

lemma serializeNode_eq_text : (p : NodePtr D) → serializeNode fmt p = (docNode fmt p).text
  | .null => rfl
  | .node ty v next child key => by
      rw [serializeNode, docNode]
      apply fieldsText_eq
      · split
        · exact serializeElements_eq_text next
        · exact serializeElements_eq_text child
      · split
        · exact serializeMembers_eq_text next
        · exact serializeMembers_eq_text child

lemma serializeElements_eq_text : (p : NodePtr D) →
    serializeElements fmt true p ++ [rbracket] = Doc.textElems (docElements fmt p)
  | .null => rfl
  | .node ty v next child key => by
      rw [serializeElements, docElements, ← textElems_cons fmt _ next
        (serializeElements_eq_text next)]
      simp only [separator, if_true, nil_append, append_assoc]
      congr 1
      apply fieldsText_eq
      · split
        · exact serializeElements_eq_text next
        · exact serializeElements_eq_text child
      · split
        · exact serializeMembers_eq_text next
        · exact serializeMembers_eq_text child

lemma serializeMembers_eq_text : (p : NodePtr D) →
    serializeMembers fmt true p ++ [rbrace] = Doc.textMembers (docMembers fmt p)
  | .null => rfl
  | .node ty v next child key => by
      have hkey : keyText key = stringText (literal (key.getD [])) := bufAppendEscapedString_eq _
      have hnode : (if child.isNull then serializeNode fmt next else serializeNode fmt child)
          = (if child.isNull then docNode fmt next else docNode fmt child).text := by
        split
        · exact serializeNode_eq_text next
        · exact serializeNode_eq_text child
      have hrest : serializeMembers fmt true (next.memberAfter child) ++ [rbrace]
          = Doc.textMembers (docMembers fmt (next.memberAfter child)) := by
        unfold NodePtr.memberAfter
        split
        · cases next with
          | null => rfl
          | node ty' v' next' child' key' => exact serializeMembers_eq_text next'
        · exact serializeMembers_eq_text next
      rw [serializeMembers_node, docMembers_node, ← textMembers_cons fmt _ _ _ hrest, hkey, hnode]
      simp [separator]

end

/-! ## The tree is well formed -/

/-- Every number a tree of nodes holds satisfies `p`. -/
def NodePtr.AllNumbers (p : D → Prop) : NodePtr D → Prop
  | .null => True
  | .node _ v next child _ =>
      (match v with
        | .number x => p x
        | _ => True) ∧ next.AllNumbers p ∧ child.AllNumbers p

def NodeValue.numbers : NodeValue D → List D
  | .number x => [x]
  | _ => []

/-- The numbers a tree of nodes holds. -/
def NodePtr.numbers : NodePtr D → List D
  | .null => []
  | .node _ v next child _ => v.numbers ++ (next.numbers ++ child.numbers)

lemma NodePtr.allNumbers_of_mem {p : D → Prop} :
    (node : NodePtr D) → (∀ x ∈ node.numbers, p x) → node.AllNumbers p
  | .null, _ => trivial
  | .node _ v next child _, h => by
      rw [numbers, forall_mem_append, forall_mem_append] at h
      refine ⟨?_, next.allNumbers_of_mem h.2.1, child.allNumbers_of_mem h.2.2⟩
      cases v with
      | number x => exact h.1 x (mem_singleton_self x)
      | _ => trivial

lemma literal_spec (s : List UInt8) :
    ValidChars (literal s) ∧ portable (literal s) = true ∧ decode (literal s) = cstr s :=
  escaped_spec cstr_ne_zero

lemma fieldsDoc_portable (ty : NodeType) (v : NodeValue D) {ds : List Doc}
    {ms : List (List StrChar × Doc)} (hd : Doc.allStringsElems portable ds = true)
    (hm : Doc.allStringsMembers portable ms = true) :
    (fieldsDoc fmt ty v ds ms).allStrings portable = true := by
  cases ty with
  | array => exact hd
  | object => exact hm
  | string =>
    cases v with
    | string s => exact (literal_spec s).2.1
    | _ => rfl
  | number => cases v <;> rfl
  | _ => rfl

mutual

lemma docNode_portable : (p : NodePtr D) → (docNode fmt p).allStrings portable = true
  | .null => rfl
  | .node ty v next child key => by
      rw [docNode]
      apply fieldsDoc_portable
      · split
        · exact docElements_portable next
        · exact docElements_portable child
      · split
        · exact docMembers_portable next
        · exact docMembers_portable child

lemma docElements_portable : (p : NodePtr D) →
    Doc.allStringsElems portable (docElements fmt p) = true
  | .null => rfl
  | .node ty v next child key => by
      rw [docElements, Doc.allStringsElems, and_eq_true]
      refine ⟨?_, docElements_portable next⟩
      apply fieldsDoc_portable
      · split
        · exact docElements_portable next
        · exact docElements_portable child
      · split
        · exact docMembers_portable next
        · exact docMembers_portable child

lemma docMembers_portable : (p : NodePtr D) →
    Doc.allStringsMembers portable (docMembers fmt p) = true
  | .null => rfl
  | .node ty v next child key => by
      have hrest : Doc.allStringsMembers portable (docMembers fmt (next.memberAfter child))
          = true := by
        unfold NodePtr.memberAfter
        split
        · cases next with
          | null => rfl
          | node ty' v' next' child' key' => exact docMembers_portable next'
        · exact docMembers_portable next
      rw [docMembers_node, Doc.allStringsMembers, and_eq_true, and_eq_true]
      refine ⟨⟨(literal_spec _).2.1, ?_⟩, hrest⟩
      split
      · exact docNode_portable next
      · exact docNode_portable child

end

section

variable {fmt} {finite : D → Prop}

lemma fieldsDoc_wellFormed (hfmt : ∀ x, finite x → Number (fmt x)) (ty : NodeType)
    {v : NodeValue D} {ds : List Doc} {ms : List (List StrChar × Doc)} (hv : match v with
      | .number x => finite x
      | _ => True)
    (hd : Doc.WellFormedElems ds) (hm : Doc.WellFormedMembers ms) :
    (fieldsDoc fmt ty v ds ms).WellFormed := by
  cases ty with
  | array => exact hd
  | object => exact hm
  | string =>
    cases v with
    | string s => exact (literal_spec s).1
    | _ => exact fun _ h => absurd h not_mem_nil
  | number =>
    cases v with
    | number x => exact hfmt x hv
    | _ => exact number_digit (by decide)
  | _ => trivial

mutual

lemma docNode_wellFormed (hfmt : ∀ x, finite x → Number (fmt x)) :
    (p : NodePtr D) → p.AllNumbers finite → (docNode fmt p).WellFormed
  | .null, _ => trivial
  | .node ty v next child key, ⟨hv, hn, hc⟩ => by
      rw [docNode]
      apply fieldsDoc_wellFormed hfmt ty hv
      · split
        · exact docElements_wellFormed hfmt next hn
        · exact docElements_wellFormed hfmt child hc
      · split
        · exact docMembers_wellFormed hfmt next hn
        · exact docMembers_wellFormed hfmt child hc

lemma docElements_wellFormed (hfmt : ∀ x, finite x → Number (fmt x)) :
    (p : NodePtr D) → p.AllNumbers finite →
    Doc.WellFormedElems (docElements fmt p)
  | .null, _ => trivial
  | .node ty v next child key, ⟨hv, hn, hc⟩ => by
      rw [docElements]
      refine ⟨?_, docElements_wellFormed hfmt next hn⟩
      apply fieldsDoc_wellFormed hfmt ty hv
      · split
        · exact docElements_wellFormed hfmt next hn
        · exact docElements_wellFormed hfmt child hc
      · split
        · exact docMembers_wellFormed hfmt next hn
        · exact docMembers_wellFormed hfmt child hc

lemma docMembers_wellFormed (hfmt : ∀ x, finite x → Number (fmt x)) :
    (p : NodePtr D) → p.AllNumbers finite →
    Doc.WellFormedMembers (docMembers fmt p)
  | .null, _ => trivial
  | .node ty v next child key, ⟨_, hn, hc⟩ => by
      have hrest : Doc.WellFormedMembers (docMembers fmt (next.memberAfter child)) := by
        unfold NodePtr.memberAfter
        split
        · cases next with
          | null => trivial
          | node ty' v' next' child' key' => exact docMembers_wellFormed hfmt next' hn.2.1
        · exact docMembers_wellFormed hfmt next hn
      rw [docMembers_node]
      refine ⟨(literal_spec _).1, ?_, hrest⟩
      split
      · exact docNode_wellFormed hfmt next hn
      · exact docNode_wellFormed hfmt child hc

end

end

/-- What `json_serialize` writes, as a tree. -/
lemma jsonSerialize_eq_text (p : NodePtr D) : jsonSerialize fmt p = (docNode fmt p).text := by
  rw [jsonSerialize]
  split
  · cases p with
    | null => rfl
    | node => rename_i h; cases h
  · exact serializeNode_eq_text fmt p

end

end Cobalt.Json
