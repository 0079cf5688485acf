/-
Cobalt.Json.SerializeTheorems — parsing what the serializer wrote.

An empty container has no `child`, so the serializer takes its `next`
link, and for an element of an array that is the next element: `[[],1]` is
written as `[[1],1]`. `docNode_expands` says that this is all that happens:
what is written expands the value, and it is the value itself exactly when
the value is `tight`, that is, when no array has an empty container before
its last element. Read back by `json_parse`, the text is the value again if
and only if it is `tight` and the parser keeps step with it.
-/
import Cobalt.Json.DomShape
import Cobalt.Json.DomTheorems
import Cobalt.Json.SerializeText

namespace Cobalt.Json

open List NodePtr
open NodePtr (Denotes DenotesMember null)
open Doc (valueElems valueMembers value)

variable {D : Type} {es : List (NodePtr D)}

namespace Val

/-- An array without elements or an object without members. -/
def isEmptyContainer : Val D → Bool
  | .array xs => xs.isEmpty
  | .object ms => ms.isEmpty
  | _ => Bool.false

mutual

/-- No array has an empty container before its last element. -/
def tight : Val D → Bool
  | .array xs => tightElems xs
  | .object ms => tightMembers ms
  | _ => Bool.true

def tightElems : List (Val D) → Bool
  | [] => Bool.true
  | x :: xs => x.tight && (xs.isEmpty || !x.isEmptyContainer) && tightElems xs

def tightMembers : List (List UInt8 × Val D) → Bool
  | [] => Bool.true
  | (_, x) :: ms => x.tight && tightMembers ms

end

mutual

/-- How many containers are inside one another. -/
def nesting : Val D → Nat
  | .array xs => 1 + nestingElems xs
  | .object ms => 1 + nestingMembers ms
  | _ => 0

def nestingElems : List (Val D) → Nat
  | [] => 0
  | x :: xs => max x.nesting (nestingElems xs)

def nestingMembers : List (List UInt8 × Val D) → Nat
  | [] => 0
  | (_, x) :: ms => max x.nesting (nestingMembers ms)

end

end Val

section

variable (strtod : List UInt8 → D)

mutual

lemma Doc.nesting_value : (d : Doc) → (d.value strtod).nesting = d.nesting
  | .null | .true | .false | .number _ | .string _ => rfl
  | .array ds => congrArg (1 + ·) (Doc.nesting_valueElems ds)
  | .object ms => congrArg (1 + ·) (Doc.nesting_valueMembers ms)

lemma Doc.nesting_valueElems : (ds : List Doc) →
    Val.nestingElems (valueElems strtod ds) = Doc.nestingElems ds
  | [] => rfl
  | d :: ds => congrArg₂ max (Doc.nesting_value d) (Doc.nesting_valueElems ds)

lemma Doc.nesting_valueMembers : (ms : List (List StrChar × Doc)) →
    Val.nestingMembers (valueMembers strtod ms) = Doc.nestingMembers ms
  | [] => rfl
  | (_, d) :: ms => congrArg₂ max (Doc.nesting_value d) (Doc.nesting_valueMembers ms)

end

end

lemma denotes_arrayNode_inv (hes : null ∉ es) {v : Val D}
    (h : (arrayNode es).Denotes v) : ∃ xs, v = .array xs ∧ List.Forall₂ Denotes es xs := by
  have hv := h
  rw [Denotes, arrayNode, denote, fieldsDenote] at hv
  obtain ⟨xs, -, rfl⟩ := Option.map_eq_some_iff.mp hv
  exact ⟨xs, rfl, (denotes_arrayNode hes xs).mp h⟩

lemma denotes_objectNode_inv {ms : List (List UInt8 × NodePtr D)} {v : Val D}
    (h : (objectNode ms).Denotes v) : ∃ xs, v = .object xs ∧ List.Forall₂ DenotesMember ms xs := by
  have hv := h
  rw [Denotes, objectNode, denote, fieldsDenote] at hv
  obtain ⟨xs, -, rfl⟩ := Option.map_eq_some_iff.mp hv
  exact ⟨xs, rfl, (denotes_objectNode ms xs).mp h⟩

lemma Forall₂.nestingElems_le {k : Nat} {xs : List (Val D)} (h : List.Forall₂ Denotes es xs)
    (hk : ∀ e ∈ es, ∀ v, e.Denotes v → v.nesting ≤ k) : Val.nestingElems xs ≤ k := by
  induction h with
  | nil => exact Nat.zero_le k
  | cons hd _ ih =>
    rw [Val.nestingElems]
    exact Nat.max_le.mpr ⟨hk _ (mem_cons_self ..) _ hd, ih fun e he => hk e (mem_cons_of_mem _ he)⟩

lemma Forall₂.nestingMembers_le {k : Nat} {ms : List (List UInt8 × NodePtr D)}
    {xs : List (List UInt8 × Val D)} (h : List.Forall₂ DenotesMember ms xs)
    (hk : ∀ m ∈ ms, ∀ v, m.2.Denotes v → v.nesting ≤ k) : Val.nestingMembers xs ≤ k := by
  induction h with
  | nil => exact Nat.zero_le k
  | @cons m x _ _ hd _ ih =>
    obtain ⟨key, x⟩ := x
    rw [Val.nestingMembers]
    exact Nat.max_le.mpr ⟨hk _ (mem_cons_self ..) _ hd.2,
      ih fun e he => hk e (mem_cons_of_mem _ he)⟩

lemma Built.nesting_le {k : Nat} {p : NodePtr D} (h : Built k p) :
    ∀ v, p.Denotes v → v.nesting ≤ k := by
  induction h with
  | null | true | false | number | string =>
    intro v hv
    cases hv
    exact Nat.zero_le _
  | @array k es h ih =>
    intro v hv
    have hnull : NodePtr.null ∉ es := fun hmem => (h _ hmem).ne_null rfl
    obtain ⟨xs, rfl, hxs⟩ := denotes_arrayNode_inv hnull hv
    have := Forall₂.nestingElems_le hxs ih
    rw [Val.nesting]
    omega
  | @object k ms h ih =>
    intro v hv
    obtain ⟨xs, rfl, hxs⟩ := denotes_objectNode_inv hv
    have := Forall₂.nestingMembers_le hxs ih
    rw [Val.nesting]
    omega

/-! ## Built trees and what is written for them -/

section

variable (fmt : D → List UInt8)

lemma docElements_setNext {e : NodePtr D} (he : e ≠ .null) (q : NodePtr D) :
    docElements fmt (e.setNext q) = docNode fmt (e.setNext q) :: docElements fmt q := by
  cases e with
  | null => exact absurd rfl he
  | node => rfl

lemma linkElements_isNull (hes : null ∉ es) : (linkElements es).isNull = es.isEmpty := by
  cases es with
  | nil => rfl
  | cons e es =>
    cases e with
    | null => exact absurd (mem_cons_self ..) hes
    | node => rfl

lemma docNode_array (hes : null ∉ es) (q : NodePtr D) :
    docNode fmt ((arrayNode es).setNext q)
      = .array (if es.isEmpty then docElements fmt q
        else docElements fmt (linkElements es)) := by
  rw [arrayNode, setNext, docNode, fieldsDoc, linkElements_isNull hes]

lemma docNode_object (ms : List (List UInt8 × NodePtr D)) (q : NodePtr D) :
    docNode fmt ((objectNode ms).setNext q)
      = .object (if ms.isEmpty then docMembers fmt q
        else docMembers fmt (linkMembers ms)) := by
  rw [objectNode, setNext, docNode, fieldsDoc]
  cases ms <;> rfl

/-- The `next` link of a value on its own adds nothing. -/
lemma Built.docNode_self {k : Nat} {p : NodePtr D} (h : Built k p) :
    docNode fmt p = docNode fmt (p.setNext .null) := by
  cases h with
  | null | true | false | number | string => rfl
  | @array k es h =>
    cases es with
    | nil => rfl
    | cons e es =>
      have hnull : NodePtr.null ∉ e :: es := fun hmem => (h _ hmem).ne_null rfl
      have hself := docNode_array fmt hnull (linkElements (e :: es))
      rw [docNode_array fmt hnull]
      exact hself
  | @object k ms h =>
    cases ms with
    | nil => rfl
    | cons m ms =>
      rw [docNode_object]
      exact docNode_object fmt (m :: ms) (linkMembers (m :: ms))

lemma docElements_ne_nil {q : NodePtr D} (h : q.isNull = false) : docElements fmt q ≠ [] := by
  cases q with
  | null => cases h
  | node => simp [docElements]

lemma docMembers_ne_nil {q : NodePtr D} (h : q.isNull = false) : docMembers fmt q ≠ [] := by
  cases q with
  | null => cases h
  | node => simp [docMembers_node]

variable {fmt} {strtod : List UInt8 → D} {finite : D → Prop}

/-- What is written for `p` expands `v`, and is `v` under the condition `c`. -/
def Writes (fmt : D → List UInt8) (strtod : List UInt8 → D) (p : NodePtr D) (v : Val D)
    (c : Prop) : Prop := Expands strtod (docNode fmt p) v ∧ ((docNode fmt p).value strtod = v ↔ c)

/-- The elements of an array, each written with the ones behind it at hand. -/
lemma docElements_link {xs : List (Val D)}
    (h : List.Forall₂ Denotes es xs)
    (ih : ∀ e ∈ es, ∀ (q : NodePtr D) (v : Val D), (e.setNext q).AllNumbers finite →
      e.Denotes v → Writes fmt strtod (e.setNext q) v
        (v.tight = true ∧ (q.isNull = true ∨ v.isEmptyContainer = false)))
    (hnum : (linkElements es).AllNumbers finite) :
    ExpandsElems strtod (docElements fmt (linkElements es)) xs
      ∧ (valueElems strtod (docElements fmt (linkElements es)) = xs
        ↔ Val.tightElems xs = true) := by
  induction h with
  | nil => exact ⟨.nil, by simp [linkElements, docElements, valueElems, Val.tightElems]⟩
  | @cons e x es xs hd hs ihs =>
    have he : e ≠ .null := hd.ne_null
    have hnull : null ∉ es := null_notMem hs
    have hrest : (linkElements es).AllNumbers finite := by
      rw [linkElements] at hnum
      cases e with
      | null => exact absurd rfl he
      | node => exact hnum.2.1
    obtain ⟨hx, hv⟩ := ih e (mem_cons_self ..) _ x hnum hd
    obtain ⟨hxs, hvs⟩ := ihs (fun e' he' => ih e' (mem_cons_of_mem _ he')) hrest
    have hempty : es.isEmpty = xs.isEmpty := by
      cases hs <;> rfl
    rw [linkElements_isNull hnull, hempty] at hv
    rw [linkElements, docElements_setNext fmt he, valueElems, List.cons.injEq, hv, hvs,
      Val.tightElems]
    refine ⟨.cons hx hxs, ?_⟩
    simp only [Bool.and_eq_true, Bool.or_eq_true, Bool.not_eq_true']

lemma docMembers_link {ms : List (List UInt8 × NodePtr D)} {xs : List (List UInt8 × Val D)}
    (h : List.Forall₂ DenotesMember ms xs)
    (ih : ∀ m ∈ ms, ∀ v : Val D, m.2.AllNumbers finite → m.2.Denotes v →
      Writes fmt strtod m.2 v (v.tight = true))
    (hnum : (linkMembers ms).AllNumbers finite) :
    ExpandsMembers strtod (docMembers fmt (linkMembers ms)) xs
      ∧ (valueMembers strtod (docMembers fmt (linkMembers ms)) = xs
        ↔ Val.tightMembers xs = true) := by
  induction h with
  | nil => exact ⟨.nil, by simp [linkMembers, docMembers, valueMembers, Val.tightMembers]⟩
  | @cons m x ms xs hd hs ihs =>
    obtain ⟨key, p⟩ := m
    obtain ⟨key', x⟩ := x
    obtain ⟨hkey, hd⟩ := hd
    simp only at hkey hd
    subst hkey
    rw [linkMembers] at hnum ⊢
    obtain ⟨hx, hv⟩ := ih _ (mem_cons_self ..) x hnum.2.2 hd
    obtain ⟨hxs, hvs⟩ := ihs (fun m' hm' => ih m' (mem_cons_of_mem _ hm')) hnum.2.1
    have hp : p.isNull = false := by
      cases p with
      | null => exact absurd rfl hd.ne_null
      | node => rfl
    have hdoc : docMembers fmt (.node .object .zero (linkMembers ms) p (some key))
        = (literal key, docNode fmt p) :: docMembers fmt (linkMembers ms) := by
      rw [docMembers_node, memberAfter_of_child hp, hp]
      rfl
    have hkey := (literal_spec key).2.2
    rw [hdoc, valueMembers, hkey, List.cons.injEq, Prod.mk.injEq, hv, hvs, Val.tightMembers,
      Bool.and_eq_true]
    refine ⟨?_, by simp⟩
    rw [← hkey]
    exact .cons _ hx hxs

variable (hfmt : ∀ x, finite x → strtod (fmt x) = x)

include hfmt

/-- What is written for a built tree in front of the siblings `q`. -/
lemma docNode_expands {k : Nat} {p : NodePtr D} (h : Built k p) :
    ∀ (q : NodePtr D) (v : Val D), (p.setNext q).AllNumbers finite → p.Denotes v →
      Writes fmt strtod (p.setNext q) v
        (v.tight = true ∧ (q.isNull = true ∨ v.isEmptyContainer = false)) := by
  induction h with
  | null =>
    rintro q v - hv
    cases hv
    exact ⟨.null, by simp [leaf, setNext, docNode, fieldsDoc, value, Val.tight,
      Val.isEmptyContainer]⟩
  | true =>
    rintro q v - hv
    cases hv
    exact ⟨.true, by simp [leaf, setNext, docNode, fieldsDoc, value, Val.tight,
      Val.isEmptyContainer]⟩
  | false =>
    rintro q v - hv
    cases hv
    exact ⟨.false, by simp [leaf, setNext, docNode, fieldsDoc, value, Val.tight,
      Val.isEmptyContainer]⟩
  | number k x =>
    rintro q v hnum hv
    cases hv
    have hx : strtod (fmt x) = x := hfmt x hnum.1
    refine ⟨?_, ?_⟩
    · have hnumber : Expands strtod (.number (fmt x)) (.number (strtod (fmt x))) := .number _
      rw [hx] at hnumber
      exact hnumber
    · simp [leaf, setNext, docNode, fieldsDoc, value, Val.tight, Val.isEmptyContainer, hx]
  | string k s =>
    rintro q v - hv
    cases hv
    have hs := (literal_spec s).2.2
    refine ⟨?_, ?_⟩
    · have hstring : Expands strtod (.string (literal s)) (.string (decode (literal s))) :=
        .string _
      rw [hs] at hstring
      exact hstring
    · simp [leaf, setNext, docNode, fieldsDoc, value, Val.tight, Val.isEmptyContainer, hs]
  | @array k es h ih =>
    intro q v hnum hv
    have hnull : null ∉ es := fun hmem => (h _ hmem).ne_null rfl
    obtain ⟨xs, rfl, hxs⟩ := denotes_arrayNode_inv hnull hv
    rw [Writes, docNode_array fmt hnull]
    cases hxs with
    | nil =>
      simp only [isEmpty_nil, if_true]
      cases hq : q.isNull with
      | true =>
        cases q with
        | null => exact ⟨.array .nil, by simp [docElements, value, valueElems, Val.tight,
            Val.tightElems]⟩
        | node => cases hq
      | false =>
        have hne := docElements_ne_nil fmt hq
        obtain ⟨d, ds, hds⟩ := exists_cons_of_ne_nil hne
        exact ⟨.filledArray hne, by simp [hds, value, valueElems, Val.isEmptyContainer]⟩
    | @cons e x es xs hd hs =>
      obtain ⟨hx, hval⟩ := docElements_link (.cons hd hs) ih hnum.2.2
      refine ⟨.array hx, ?_⟩
      simp only [isEmpty_cons, Bool.false_eq_true, if_false, value, Val.array.injEq, hval]
      simp [Val.tight, Val.isEmptyContainer]
  | @object k ms h ih =>
    intro q v hnum hv
    obtain ⟨xs, rfl, hxs⟩ := denotes_objectNode_inv hv
    rw [Writes, docNode_object fmt]
    cases hxs with
    | nil =>
      simp only [isEmpty_nil, if_true]
      cases hq : q.isNull with
      | true =>
        cases q with
        | null => exact ⟨.object .nil, by simp [docMembers, value, valueMembers, Val.tight,
            Val.tightMembers]⟩
        | node => cases hq
      | false =>
        have hne := docMembers_ne_nil fmt hq
        obtain ⟨⟨key, d⟩, ms, hms⟩ := exists_cons_of_ne_nil hne
        exact ⟨.filledObject hne, by simp [hms, value, valueMembers, Val.isEmptyContainer]⟩
    | @cons m x ms xs hd hs =>
      have hself : ∀ m' ∈ m :: ms, ∀ v : Val D, m'.2.AllNumbers finite → m'.2.Denotes v →
          Writes fmt strtod m'.2 v (v.tight = true) := by
        intro m' hm' v hnum' hv'
        have hnull : (m'.2.setNext .null).AllNumbers finite := by
          cases hp : m'.2 with
          | null => trivial
          | node => rw [hp] at hnum'; exact ⟨hnum'.1, trivial, hnum'.2.2⟩
        have hw := ih m' hm' .null v hnull hv'
        rw [Writes, ← (h m' hm').docNode_self fmt] at hw
        exact ⟨hw.1, hw.2.trans (by simp [isNull])⟩
      obtain ⟨hx, hval⟩ := docMembers_link (.cons hd hs) hself hnum.2.2
      refine ⟨.object hx, ?_⟩
      simp only [isEmpty_cons, Bool.false_eq_true, if_false, value, Val.object.injEq, hval]
      simp [Val.tight, Val.isEmptyContainer]

end

/-! ## The round trip -/

section

variable {strtod : List UInt8 → D} {fmt : D → List UInt8} {finite : D → Prop}

lemma jsonSerialize_ne_zero (hfmt : ∀ x, finite x → Number (fmt x)) {p : NodePtr D}
    (hp : ∀ x ∈ p.numbers, finite x) : ∀ b ∈ jsonSerialize fmt p, b ≠ 0 := by
  rw [jsonSerialize_eq_text]
  exact Doc.text_ne_zero _ (docNode_wellFormed hfmt p (p.allNumbers_of_mem hp))

/-- For a tree that `json_parse` returned: what `json_serialize` writes for
it reads back as the same value if and only if no array of the value has an
empty container before its last element, and the parser keeps step with the
value. A finite number is printed as a number of the grammar that `strtod`
reads back. -/
theorem jsonParse_jsonSerialize_iff (hnumber : ∀ x, finite x → Number (fmt x))
    (hstrtod : ∀ x, finite x → strtod (fmt x) = x) {text : CString}
    (ht : jsonParse strtod text ≠ .null) (hfin : ∀ x ∈ (jsonParse strtod text).numbers, finite x)
    (hfits : (jsonSerialize fmt (jsonParse strtod text)).length < 2 ^ 63) :
    ∃ v, (jsonParse strtod text).denote = some v
      ∧ ((jsonParse strtod ⟨jsonSerialize fmt (jsonParse strtod text),
          jsonSerialize_ne_zero hnumber hfin, hfits⟩).denote = (jsonParse strtod text).denote
        ↔ v.tight = true ∧ v.synced = true) := by
  have hbuilt : Built maxDepth (jsonParse strtod text) :=
    (jsonParseWithArena_built granting strtod text).resolve_left ht
  obtain ⟨v, hv⟩ := hbuilt.denotes
  refine ⟨v, hv, ?_⟩
  generalize jsonParse strtod text = t at *
  have hnum := t.allNumbers_of_mem hfin
  have hnull : (t.setNext .null).AllNumbers finite := by
    cases t with
    | null => trivial
    | node => exact ⟨hnum.1, trivial, hnum.2.2⟩
  have hwrites := docNode_expands hstrtod hbuilt .null v hnull hv
  rw [Writes, ← hbuilt.docNode_self fmt] at hwrites
  have hjson : JsonText (jsonSerialize fmt t) (docNode fmt t) := by
    rw [jsonSerialize_eq_text]
    exact Doc.jsonText_text _ (docNode_wellFormed hnumber t hnum)
  rw [hv, jsonParse_expands_iff strtod hjson hwrites.1 (docNode_portable fmt t), hwrites.2]
  simp only [isNull, true_or, and_true]
  -- a text of `v` is as deep as `v`, which the parser has built
  constructor
  · rintro ⟨htight, hsync, -⟩
    exact ⟨htight, hsync⟩
  · rintro ⟨htight, hsync⟩
    have hval := hwrites.2.mpr ⟨htight, .inl rfl⟩
    refine ⟨htight, hsync, ?_⟩
    rw [← Doc.nesting_value strtod, hval]
    exact hbuilt.nesting_le v hv

/-- `strtod` on one digit. -/
def digitValue : List UInt8 → Fin 10
  | [b] => Fin.ofNat 10 (b.toNat - 0x30)
  | _ => 0

/-- A digit as `%.17g` prints it. -/
def digitText (x : Fin 10) : List UInt8 := [UInt8.ofNat (0x30 + x)]

lemma digitText_number (x : Fin 10) : Number (digitText x) := number_digit (by decide +revert)

lemma digitValue_digitText (x : Fin 10) : digitValue (digitText x) = x := by decide +revert

/-- `[{"a":[1]},[]]` -/
def emptyLastText : CString where
  bytes := [0x5B, 0x7B, 0x22, 0x61, 0x22, 0x3A, 0x5B, 0x31, 0x5D, 0x7D, 0x2C, 0x5B, 0x5D, 0x5D]
  noNul := by simp
  fits := by norm_num

lemma jsonParse_emptyLast : jsonParse digitValue emptyLastText
    = .arrayNode [.objectNode [([0x61], .arrayNode [.leaf .number (.number 1)])],
      .arrayNode []] := by
  decide +kernel

lemma emptyLast_fits :
    (jsonSerialize digitText (jsonParse digitValue emptyLastText)).length < 2 ^ 63 := by
  rw [jsonParse_emptyLast]
  decide +kernel

/-- What is written for it. -/
def emptyLastWritten : CString where
  bytes := jsonSerialize digitText (jsonParse digitValue emptyLastText)
  noNul := @jsonSerialize_ne_zero _ digitText (fun _ => True) (fun x _ => digitText_number x) _
    fun _ _ => trivial
  fits := emptyLast_fits

theorem jsonSerialize_emptyLast :
    (jsonParse digitValue emptyLastWritten).denote
      = (jsonParse digitValue emptyLastText).denote := by
  have hne : jsonParse digitValue emptyLastText ≠ .null := by
    rw [jsonParse_emptyLast]
    simp [arrayNode]
  obtain ⟨v, hv, hiff⟩ := @jsonParse_jsonSerialize_iff (Fin 10) digitValue digitText
    (fun _ => True) (fun x _ => digitText_number x) (fun x _ => digitValue_digitText x)
    emptyLastText hne (fun _ _ => trivial) emptyLast_fits
  rw [jsonParse_emptyLast] at hv
  obtain rfl : v = .array [.object [([0x61], .array [.number 1])], .array []] :=
    (Option.some.inj hv).symm
  exact hiff.mpr ⟨rfl, rfl⟩

/-- `[[],1]` -/
def emptyFirstText : CString where
  bytes := [0x5B, 0x5B, 0x5D, 0x2C, 0x31, 0x5D]
  noNul := by simp
  fits := by norm_num

/-- `[[1],1]` -/
def filledFirstText : CString where
  bytes := [0x5B, 0x5B, 0x31, 0x5D, 0x2C, 0x31, 0x5D]
  noNul := by simp
  fits := by norm_num

/-- `[[],1]` is written as `[[1],1]`. -/
theorem jsonSerialize_emptyFirst :
    (∀ x, Number (digitText x)) ∧ (∀ x, digitValue (digitText x) = x)
      ∧ (jsonParse digitValue emptyFirstText).denote = some (.array [.array [], .number 1])
      ∧ jsonSerialize digitText (jsonParse digitValue emptyFirstText) = filledFirstText.bytes
      ∧ (jsonParse digitValue filledFirstText).denote
        = some (.array [.array [.number 1], .number 1])
      ∧ (jsonParse digitValue filledFirstText).denote
        ≠ (jsonParse digitValue emptyFirstText).denote := by
  have hparse : jsonParse digitValue emptyFirstText
      = .arrayNode [.arrayNode [], .leaf .number (.number 1)] := by
    decide +kernel
  have hback : jsonParse digitValue filledFirstText
      = .arrayNode [.arrayNode [.leaf .number (.number 1)], .leaf .number (.number 1)] := by
    decide +kernel
  have hden : (jsonParse digitValue emptyFirstText).denote
      = some (.array [.array [], .number 1]) := by
    rw [hparse]
    rfl
  have hden' : (jsonParse digitValue filledFirstText).denote
      = some (.array [.array [.number 1], .number 1]) := by
    rw [hback]
    rfl
  refine ⟨digitText_number, digitValue_digitText, hden, by rw [hparse]; decide +kernel, hden', ?_⟩
  rw [hden, hden']
  simp

end

end Cobalt.Json
