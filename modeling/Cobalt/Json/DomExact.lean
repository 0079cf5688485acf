/-
Cobalt.Json.DomExact — the DOM parser on texts it keeps step with.

`value_exact`, `elements_exact` and `members_exact` go over the grammar
together. Each says that the parser, started before a text of the grammar
that is `synced`, returns nodes that denote what the text denotes, and
where its cursor then stands: past the text and past the braces it takes
too many.
-/
import Cobalt.Json.DomSync

namespace Cobalt.Json

open List Bool
open Doc (valueMembers valueElems)

variable {D : Type}

/-! ## The cursor up to white space -/

/-- The cursor stands before `s`, or before white space that `s` follows. -/
def Ctx.Near (c : Ctx) (s : List UInt8) (k : Nat) : Prop := ∃ r, c.At r k ∧ skip r = s

section

variable {c : Ctx} {s : List UInt8} {b : UInt8} {k : Nat}

lemma Ctx.At.near (h : c.At s k) : c.Near (skip s) k := ⟨s, h, rfl⟩

lemma Ctx.At.near_skip (h : c.At (skip s) k) : c.Near (skip s) k := ⟨_, h, skip_skip s⟩

lemma Ctx.At.left (h : c.At s k) : c.left = s.length := by
  rw [Ctx.left, ← Ctx.length_rest, h.rest]

namespace Ctx.Near

lemma skipWhitespace (h : c.Near s k) : (jsonSkipWhitespace c).At s k := by
  obtain ⟨r, hr, rfl⟩ := h
  exact hr.skipWhitespace

lemma skip_eq (h : c.Near s k) : skip s = s := by
  obtain ⟨r, -, rfl⟩ := h
  exact skip_skip r

lemma skipTest (h : c.Near s k) (x : UInt8) :
    ∃ c', (jsonSkipWhitespace c).test x = (s.head? == some x, c') ∧ c'.At s k :=
  h.skipWhitespace.test x

lemma skipTest_of_head {x : UInt8} (h : c.Near (x :: s) k) :
    ∃ c', (jsonSkipWhitespace c).test x = (true, c') ∧ c'.At (x :: s) k := by
  obtain ⟨c', hc', h'⟩ := h.skipTest x
  exact ⟨c', by rw [hc']; simp, h'⟩

lemma skipTest_of_ne {x : UInt8} (h : c.Near s k) (hx : s.head? ≠ some x) :
    ∃ c', (jsonSkipWhitespace c).test x = (false, c') ∧ c'.At s k := by
  obtain ⟨c', hc', h'⟩ := h.skipTest x
  exact ⟨c', by rw [hc', beq_eq_false_iff_ne.mpr hx], h'⟩

lemma jalloc (h : c.Near s k) (size : Nat) :
    ∃ c', jalloc granting size c = (true, c') ∧ c'.Near s k := by
  obtain ⟨r, hr, rfl⟩ := h
  obtain ⟨c', hc', h'⟩ := hr.jalloc size
  exact ⟨c', hc', h'.near⟩

lemma leave (h : c.Near s (k + 1)) : c.leave.Near s k := by
  obtain ⟨r, hr, rfl⟩ := h
  exact hr.leave.near

end Ctx.Near

lemma Ctx.At.testBrace {j : Nat} {r : List UInt8} (h : c.At (eat j r) k) :
    ∃ x c', c.test rbrace = (x, c')
      ∧ (if x then c'.advance 1 else c').Near (eat (j + 1) r) k := by
  obtain ⟨c', hc', h'⟩ := h.test rbrace
  refine ⟨_, c', hc', ?_⟩
  have heat : eat (j + 1) r = eat 1 (eat j r) := by rw [eat_eat, add_comm]
  have hskip := skip_eat j r
  rw [heat]
  generalize eat j r = s at *
  cases s with
  | nil => exact ⟨[], h', by rfl⟩
  | cons b t =>
    by_cases hb : b = rbrace
    · subst hb
      simp only [head?_cons, beq_self_eq_true, if_true]
      exact ⟨t, h'.step, by simp [eat, hskip]⟩
    · simp only [head?_cons, beq_eq_false_iff_ne.mpr (fun h => hb (Option.some.inj h)),
        false_eq_true, if_false]
      exact ⟨b :: t, h', by rw [eat_of_head hskip hb, hskip]⟩

end

/-! ## Scalars -/

/-- A node for `v`, and the cursor before `s`. -/
def Exact (res : NodePtr D × Ctx) (v : Val D) (s : List UInt8) (k : Nat) : Prop :=
  res.1.Denotes v ∧ res.2.Near s k

section

variable (strtod : List UInt8 → D) {c : Ctx} {s r : List UInt8} {b : UInt8} {k n : Nat}

lemma jsonParseValue_dispatch (n : Nat) (h : c.Near (b :: s) k) :
    ∃ c1, c1.At (b :: s) k ∧ c1.left ≤ c.left ∧ jsonParseValue granting strtod (n + 1) c
      = if b == lbrace then jsonParseObject granting strtod n c1
        else if b == lbracket then jsonParseArray granting strtod n c1
        else if b == quote then jsonParseStringNode granting c1
        else if b == 0x2D || isDigit b then jsonParseNumber granting strtod c1
        else jsonParseWord granting c1 := by
  have h1 := h.skipWhitespace
  refine ⟨_, h1.record (.text (jsonSkipWhitespace c).pos 1), (ext_skip c).left, ?_⟩
  rw [jsonParseValue]
  simp only
  rw [if_neg (Nat.not_le.mpr h1.lt), h1.load]

lemma value_exact_null (h : c.Near (nullText ++ r) k) :
    Exact (jsonParseValue granting strtod (n + 1) c) .null (skip r) k := by
  obtain ⟨c1, h1, -, he⟩ := jsonParseValue_dispatch strtod n h
  obtain ⟨c2, hw, h2⟩ := jsonParseWord_null (D := D) h1
  rw [he]
  exact hw ▸ ⟨rfl, h2.near⟩

lemma value_exact_true (h : c.Near (trueText ++ r) k) :
    Exact (jsonParseValue granting strtod (n + 1) c) .true (skip r) k := by
  obtain ⟨c1, h1, -, he⟩ := jsonParseValue_dispatch strtod n h
  obtain ⟨c2, hw, h2⟩ := jsonParseWord_true (D := D) h1
  rw [he]
  exact hw ▸ ⟨rfl, h2.near⟩

lemma value_exact_false (h : c.Near (falseText ++ r) k) :
    Exact (jsonParseValue granting strtod (n + 1) c) .false (skip r) k := by
  obtain ⟨c1, h1, -, he⟩ := jsonParseValue_dispatch strtod n h
  obtain ⟨c2, hw, h2⟩ := jsonParseWord_false (D := D) h1
  rw [he]
  exact hw ▸ ⟨rfl, h2.near⟩

lemma value_exact_number {l : List UInt8} (hl : Number l) (hr : Delim r) (h : c.Near (l ++ r) k) :
    Exact (jsonParseValue granting strtod (n + 1) c) (.number (strtod l)) (skip r) k := by
  obtain ⟨b, t, rfl, hb⟩ := hl.head
  obtain ⟨c1, h1, -, he⟩ := jsonParseValue_dispatch strtod n h
  obtain ⟨c2, hw, h2⟩ := jsonParseNumber_lexeme strtod hl hr.numberEnd h1
  obtain ⟨-, hb1, hb2, hb3, -⟩ := isDigit_ne hb
  have hb' : (b == 0x2D || isDigit b) = true := by simpa using hb
  rw [he]
  simp only [beq_eq_false_iff_ne.mpr hb1, beq_eq_false_iff_ne.mpr hb2,
    beq_eq_false_iff_ne.mpr hb3, hb', false_eq_true, if_false, if_true, hw]
  exact ⟨rfl, h2.near⟩

lemma value_exact_string {cs : List StrChar} (hv : ValidChars cs) (hp : portable cs = true)
    (h : c.Near (stringText cs ++ r) k) :
    Exact (jsonParseValue granting strtod (n + 1) c) (.string (decode cs)) (skip r) k := by
  obtain ⟨c1, h1, -, he⟩ := jsonParseValue_dispatch strtod n h
  obtain ⟨c2, hw, h2⟩ := jsonParseString_literal hv (and_eq_true_iff.mp hp).2 h1
  obtain ⟨c3, hn, h3⟩ := h2.jsonNodeCreate (D := D) .string (.string (decode cs))
  have hnode : jsonParseStringNode (D := D) granting c1
      = (.leaf .string (.string (decode cs)), c3) := by
    rw [jsonParseStringNode, hw]
    exact hn
  rw [he]
  refine hnode ▸ ⟨?_, h3.near⟩
  change some (Val.string (cstr (decode cs))) = _
  rw [cstr_decode hv hp]

/-! ## Containers -/

lemma jsonParseValue_array (n : Nat) (h : c.Near (lbracket :: s) k) : ∃ c1, c1.At (lbracket :: s) k ∧
    c1.left ≤ c.left ∧ jsonParseValue granting strtod (n + 2) c =
      jsonParseContainer granting lbracket rbracket (jsonParseElements granting strtod n) .arrayNode c1 := by
  obtain ⟨c1, h1, hle, he⟩ := jsonParseValue_dispatch strtod (n + 1) h
  exact ⟨c1, h1, hle, by rw [← jsonParseArray_succ]; exact he⟩

lemma jsonParseValue_object (n : Nat) (h : c.Near (lbrace :: s) k) : ∃ c1, c1.At (lbrace :: s) k ∧
    c1.left ≤ c.left ∧ jsonParseValue granting strtod (n + 2) c =
      jsonParseContainer granting lbrace rbrace (jsonParseMembers granting strtod n) .objectNode c1 := by
  obtain ⟨c1, h1, hle, he⟩ := jsonParseValue_dispatch strtod (n + 1) h
  exact ⟨c1, h1, hle, by rw [← jsonParseObject_succ]; exact he⟩

section

variable {ι : Type} {last : UInt8} (loop : Ctx → List ι × Ctx) (node : List ι → NodePtr D)

lemma container_capped (h : c.At s maxDepth) :
    jsonParseContainer granting b last loop node c = (.null, { c with depthExceeded := true }) := by
  rw [jsonParseContainer, if_pos (le_of_eq h.depth.symm)]

variable (hb : isWs b = false) (hk : k < maxDepth) (h : c.At (b :: s) k)

include hb hk h

lemma container_empty (hs : skip s = last :: r) :
    ∃ c', jsonParseContainer granting b last loop node c = (node [], c') ∧ c'.At r k := by
  obtain ⟨c1, ht, h1⟩ := h.enter.skipTest b
  rw [skip_cons_of_not hb] at ht h1
  obtain ⟨c2, ha, h2⟩ := h1.step.jalloc nodeSize
  obtain ⟨c3, ht', h3⟩ := h2.skipTest last
  rw [hs] at ht' h3
  refine ⟨(c3.advance 1).leave, ?_, h3.step.leave⟩
  rw [jsonParseContainer, if_neg (by rw [h.depth]; omega)]
  simp only [ht, ht', ha, head?_cons, beq_self_eq_true]

lemma container_loop (hs : (skip s).head? ≠ some last) :
    ∃ c1, c1.At (skip s) (k + 1) ∧ ∀ x c2, (jsonSkipWhitespace (loop c1).2).test last = (x, c2) →
      jsonParseContainer granting b last loop node c
        = (node (loop c1).1, (if x then c2.advance 1 else c2).leave) := by
  obtain ⟨c1, ht, h1⟩ := h.enter.skipTest b
  rw [skip_cons_of_not hb] at ht h1
  obtain ⟨c2, ha, h2⟩ := h1.step.jalloc nodeSize
  obtain ⟨c3, ht', h3⟩ := h2.skipTest last
  rw [beq_eq_false_iff_ne.mpr hs] at ht'
  refine ⟨c3, h3, ?_⟩
  intro x c4 hx
  rw [jsonParseContainer, if_neg (by rw [h.depth]; omega)]
  simp only [ht, ht', ha, hx, head?_cons, beq_self_eq_true]
  cases x <;> rfl

end

variable {e : NodePtr D} {c1 c2 : Ctx}

/-- The loop of an array is done after an element with no comma behind it. -/
lemma jsonParseElements_stop (hv : jsonParseValue granting strtod n c = (e, c1)) (he : e ≠ .null)
    (h : c1.Near s k) (hs : s.head? ≠ some comma) :
    ∃ c2, c2.At s k ∧ jsonParseElements granting strtod (n + 1) c = ([e], c2) := by
  obtain ⟨c2, ht, h2⟩ := h.skipTest_of_ne hs
  refine ⟨c2, h2, ?_⟩
  cases e with
  | null => exact absurd rfl he
  | node => rw [jsonParseElements, hv]; simp only [ht]

lemma Ctx.Near.left_le (h : c.Near s k) : s.length ≤ c.left := by
  obtain ⟨r, hr, rfl⟩ := h
  rw [hr.left]
  exact (dropWhile_suffix isWs).length_le

/-- The loops go on behind a comma, with less text to come. -/
lemma left_lt_of_comma {t : List UInt8} (hv : jsonParseValue granting strtod n c = (e, c1))
    (h : c1.Near (comma :: t) k) (h2 : c2.At t k) : c2.left < c.left := by
  have hle := ((parsersReach granting strtod n).value c).ext.left
  rw [hv] at hle
  rw [h2.left]
  exact Nat.lt_of_lt_of_le h.left_le hle

lemma jsonParseElements_comma {t : List UInt8} (hv : jsonParseValue granting strtod n c = (e, c1))
    (he : e ≠ .null) (h : c1.Near (comma :: t) k) :
    ∃ c2, c2.At t k ∧ c2.left < c.left ∧ jsonParseElements granting strtod (n + 1) c
      = (e :: (jsonParseElements granting strtod n c2).1,
        (jsonParseElements granting strtod n c2).2) := by
  obtain ⟨c2, ht, h2⟩ := h.skipTest_of_head
  refine ⟨c2.advance 1, h2.step, left_lt_of_comma strtod hv h h2.step, ?_⟩
  cases e with
  | null => exact absurd rfl he
  | node => rw [jsonParseElements, hv]; simp only [ht]

lemma jsonParseKey_at {key : List StrChar} {wk : List UInt8} (hv : ValidChars key)
    (hp : portable key = true) (hwk : Ws wk) (h : c.Near (stringText key ++ (wk ++ colon :: s)) k) :
    ∃ c1, jsonParseKey granting c = (some (decode key), c1) ∧ c1.At s k := by
  obtain ⟨c1, ht, h1⟩ := h.skipTest_of_head
  obtain ⟨c2, hs, h2⟩ := jsonParseString_literal hv (and_eq_true_iff.mp hp).2 h1
  obtain ⟨c3, ht', h3⟩ := h2.skipTest colon
  rw [skip_ws_cons hwk (by decide)] at ht' h3
  refine ⟨c3.advance 1, ?_, h3.step⟩
  rw [jsonParseKey, ht]
  simp only [hs, ht', head?_cons, beq_self_eq_true]

/-- The loop of an object is done after a member with no comma behind it. -/
lemma jsonParseMembers_stop {key : List UInt8} (hk : jsonParseKey granting c = (some key, c1))
    (hv : jsonParseValue granting strtod n c1 = (e, c2)) (he : e ≠ .null) (h : c2.Near s k)
    (hs : s.head? ≠ some comma) :
    ∃ (c3 : Ctx) (x : Bool) (c4 : Ctx), c3.At s k ∧ c3.test rbrace = (x, c4)
      ∧ jsonParseMembers granting strtod (n + 1) c
        = ([(key, e)], if x then c4.advance 1 else c4) := by
  obtain ⟨c2', ha, h'⟩ := h.jalloc nodeSize
  obtain ⟨c3, ht, h3⟩ := h'.skipTest_of_ne hs
  refine ⟨c3, (c3.test rbrace).1, (c3.test rbrace).2, h3, rfl, ?_⟩
  cases e with
  | null => exact absurd rfl he
  | node =>
    rw [jsonParseMembers, hk]
    simp only [hv, ha, ht]
    rcases c3.test rbrace with ⟨_ | _, c4⟩ <;> rfl

lemma jsonParseMembers_comma {key t : List UInt8} (hk : jsonParseKey granting c = (some key, c1))
    (hv : jsonParseValue granting strtod n c1 = (e, c2)) (he : e ≠ .null)
    (h : c2.Near (comma :: t) k) :
    ∃ c3, c3.At t k ∧ c3.left < c1.left ∧ jsonParseMembers granting strtod (n + 1) c
        = ((key, e) :: (jsonParseMembers granting strtod n c3).1,
          (jsonParseMembers granting strtod n c3).2) := by
  obtain ⟨c2', ha, h'⟩ := h.jalloc nodeSize
  obtain ⟨c3, ht, h3⟩ := h'.skipTest_of_head
  refine ⟨c3.advance 1, h3.step, left_lt_of_comma strtod hv h h3.step, ?_⟩
  cases e with
  | null => exact absurd rfl he
  | node =>
    rw [jsonParseMembers, hk]
    simp only [hv, ha, ht]

/-! ## The induction over the grammar -/

lemma Exact.ne_null {res : NodePtr D × Ctx} {v : Val D} (h : Exact res v s k) :
    res.1 ≠ .null := h.1.ne_null

lemma Doc.valueMembers_closeRun_pos {ms : List (List StrChar × Doc)} (h : ms ≠ []) :
    0 < Val.closeRunMembers (valueMembers strtod ms) := by
  obtain ⟨⟨k, d⟩, ms, rfl⟩ := exists_cons_of_ne_nil h
  exact Val.closeRunMembers_pos _ _

lemma null_notMem {es : List (NodePtr D)} {xs : List (Val D)}
    (h : List.Forall₂ NodePtr.Denotes es xs) : NodePtr.null ∉ es := by
  induction h with
  | nil => simp
  | cons hd _ ih => exact fun hmem => (mem_cons.mp hmem).elim (Ne.symm hd.ne_null) ih

mutual

/-- A value that is in step. -/
lemma value_exact {s r : List UInt8} {d : Doc} {c : Ctx} {k n : Nat} (h : Value s d r)
    (hp : d.allStrings portable = true) (hk : k + d.nesting ≤ maxDepth) (hr : Delim r)
    (hsync : (d.value strtod).synced = true) (hclear : Clear (d.value strtod).closeRun r)
    (hc : c.Near s k) (hn : 3 * c.left + 3 ≤ n) :
    Exact (jsonParseValue granting strtod n c) (d.value strtod)
      (eat (d.value strtod).closeRun r) k := by
  obtain ⟨n, rfl⟩ : ∃ m, n = m + 2 := ⟨n - 2, by omega⟩
  cases h with
  | null => exact value_exact_null strtod hc
  | true => exact value_exact_true strtod hc
  | false => exact value_exact_false strtod hc
  | number r hl => exact value_exact_number strtod hl hr hc
  | string r hv => exact value_exact_string strtod hv hp hc
  | emptyArray r hw =>
    obtain ⟨c1, h1, -, he⟩ := jsonParseValue_array strtod n hc
    obtain ⟨c2, ha, h2⟩ := container_empty _ _ rfl hk h1 (skip_ws_cons hw (by decide) r)
    rw [he, ha]
    exact ⟨rfl, h2.near⟩
  | emptyObject r hw =>
    obtain ⟨c1, h1, -, he⟩ := jsonParseValue_object strtod n hc
    obtain ⟨c2, ha, h2⟩ := container_empty _ _ rfl hk h1 (skip_ws_cons hw (by decide) r)
    rw [he, ha]
    exact ⟨rfl, h2.near⟩
  | @array s r ds hs =>
    rw [Doc.nesting] at hk
    obtain ⟨c1, h1, hle, he⟩ := jsonParseValue_array strtod n hc
    obtain ⟨c2, h2, hloop⟩ := container_loop _ _ rfl (by omega) h1 hs.head
    have hlen := skip_length_le s
    have hleft := h1.left
    rw [length_cons] at hleft
    obtain ⟨hes, hnear⟩ := elements_exact (n := n) hs hp (by omega) hsync
      h2.near_skip (by rw [h2.left]; omega)
    obtain ⟨c3, ht, h3⟩ := hnear.skipTest_of_head
    rw [he, hloop _ _ ht]
    refine ⟨?_, h3.step.leave.near⟩
    exact (NodePtr.denotes_arrayNode (null_notMem hes) _).mpr hes
  | @object s r ms hs =>
    rw [Doc.nesting] at hk
    rw [Doc.value, Val.closeRun] at hclear
    obtain ⟨c1, h1, hle, he⟩ := jsonParseValue_object strtod n hc
    obtain ⟨c2, h2, hloop⟩ := container_loop _ _ rfl (by omega) h1
      (show _ ≠ some rbrace by rw [hs.head]; decide)
    have hlen := skip_length_le s
    have hleft := h1.left
    rw [length_cons] at hleft
    obtain ⟨hms, hnear⟩ := members_exact (n := n) hs hp (by omega) hsync hclear
      h2.near_skip (by rw [h2.left]; omega)
    obtain ⟨x, c3, ht, h3⟩ := hnear.skipWhitespace.testBrace
    have hpos := Doc.valueMembers_closeRun_pos strtod hs.ne_nil
    rw [Nat.sub_add_cancel hpos] at h3
    rw [he, hloop _ _ ht]
    refine ⟨?_, h3.leave⟩
    exact (NodePtr.denotes_objectNode _ _).mpr hms
termination_by n
decreasing_by all_goals omega

lemma elements_exact {s r : List UInt8} {ds : List Doc} {c : Ctx} {k n : Nat} (h : Elements s ds r)
    (hp : Doc.allStringsElems portable ds = true) (hk : k + Doc.nestingElems ds ≤ maxDepth)
    (hsync : Val.syncedElems (valueElems strtod ds) = true) (hc : c.Near (skip s) k)
    (hn : 3 * c.left + 4 ≤ n) :
    List.Forall₂ NodePtr.Denotes (jsonParseElements granting strtod n c).1
        (valueElems strtod ds)
      ∧ (jsonParseElements granting strtod n c).2.Near (rbracket :: r) k := by
  obtain ⟨n, rfl⟩ : ∃ m, n = m + 1 := ⟨n - 1, by omega⟩
  cases h with
  | @last w w' s r d hw hw' hv =>
    rw [skip_append hw, hv.skip_eq] at hc
    simp only [valueElems, Val.syncedElems, Bool.and_true, Bool.and_eq_true] at hsync
    have heat := eat_of_head (skip_ws_cons hw' (b := rbracket) (by decide) r) (by decide)
    obtain ⟨hden, hnear⟩ := value_exact (n := n) hv (by simpa [Doc.allStringsElems] using hp)
      (by simpa [Doc.nestingElems] using hk) (delim_ws_cons hw' (by simp) r) hsync.1
      (fun j _ => by rw [heat]; simp) hc (by omega)
    rw [heat] at hnear
    obtain ⟨c2, h2, hstop⟩ := jsonParseElements_stop strtod rfl hden.ne_null hnear (by simp)
    rw [hstop]
    exact ⟨.cons hden .nil, ⟨_, h2, hnear.skip_eq⟩⟩
  | @cons w w' s s' r d ds hw hw' hv hs =>
    rw [skip_append hw, hv.skip_eq] at hc
    simp only [valueElems, Val.syncedElems, and_eq_true] at hsync
    simp only [Doc.allStringsElems, and_eq_true] at hp
    simp only [Doc.nestingElems] at hk
    have heat := eat_of_head (skip_ws_cons hw' (b := comma) (by decide) s') (by decide)
    have hshallow : (d.value strtod).closeRun ≤ 1 := by
      rw [← Val.endsDeep_eq_false_iff]
      obtain ⟨d', ds', rfl⟩ := exists_cons_of_ne_nil hs.ne_nil
      simpa [valueElems] using hsync.1.2
    obtain ⟨hden, hnear⟩ := value_exact (n := n) hv hp.1 (by omega)
      (delim_ws_cons hw' (by simp) s') hsync.1.1 (clear_of_le_one hshallow _) hc (by omega)
    rw [heat] at hnear
    obtain ⟨c2, h2, hlt, hcomma⟩ := jsonParseElements_comma strtod rfl hden.ne_null hnear
    obtain ⟨hdens, hnear'⟩ := elements_exact (n := n) hs hp.2 (by omega) hsync.2 h2.near
      (by omega)
    rw [hcomma]
    exact ⟨.cons hden hdens, hnear'⟩
termination_by n
decreasing_by all_goals omega

lemma members_exact {s r : List UInt8} {ms : List (List StrChar × Doc)} {c : Ctx} {k n : Nat}
    (h : Members s ms r) (hp : Doc.allStringsMembers portable ms = true)
    (hk : k + Doc.nestingMembers ms ≤ maxDepth)
    (hsync : Val.syncedMembers (valueMembers strtod ms) = true)
    (hclear : Clear (Val.closeRunMembers (valueMembers strtod ms)) r)
    (hc : c.Near (skip s) k) (hn : 3 * c.left + 4 ≤ n) :
    List.Forall₂ NodePtr.DenotesMember (jsonParseMembers granting strtod n c).1
        (valueMembers strtod ms)
      ∧ (jsonParseMembers granting strtod n c).2.Near
        (eat (Val.closeRunMembers (valueMembers strtod ms) - 1) r) k := by
  obtain ⟨n, rfl⟩ : ∃ m, n = m + 1 := ⟨n - 1, by omega⟩
  cases h with
  | @last w wk wc w' s r key d hw hkey hwk hwc hw' hv =>
    rw [skip_append hw, skip_stringText] at hc
    simp only [valueMembers, Val.syncedMembers, Bool.and_true, Bool.and_eq_true] at hsync
    simp only [Doc.allStringsMembers, Bool.and_true, Bool.and_eq_true] at hp
    simp only [valueMembers, Val.closeRunMembers, Nat.add_sub_cancel_left] at hclear ⊢
    obtain ⟨c1, hkey', h1⟩ := jsonParseKey_at hkey hp.1 hwk hc
    have hnear1 := h1.near
    rw [skip_append hwc, hv.skip_eq] at hnear1
    have hext1 := (ext_parseKey hkey').left
    obtain ⟨hden, hnear⟩ := value_exact (n := n) hv hp.2
      (by simpa [Doc.nestingMembers] using hk) (delim_ws_cons hw' (by simp) r) hsync.1
      (hclear.inner hw') hnear1 (by omega)
    -- the loop takes the object's own brace or one more
    have hhead := hclear.head_inner hw'
    obtain ⟨c2, x, c3, h2, ht, hstop⟩ :=
      jsonParseMembers_stop strtod hkey' rfl hden.ne_null hnear hhead
    obtain ⟨x', c3', ht', h3⟩ := h2.testBrace
    rw [ht] at ht'
    cases ht'
    rw [eat_brace _ hw'] at h3
    rw [hstop]
    exact ⟨.cons ⟨cstr_decode hkey hp.1, hden⟩ .nil, h3⟩
  | @cons w wk wc w' s s' r key d ms hw hkey hwk hwc hw' hv hs =>
    rw [skip_append hw, skip_stringText] at hc
    simp only [valueMembers, Val.syncedMembers, and_eq_true] at hsync
    simp only [Doc.allStringsMembers, and_eq_true] at hp
    simp only [Doc.nestingMembers] at hk
    obtain ⟨c1, hkey', h1⟩ := jsonParseKey_at hkey hp.1.1 hwk hc
    have hnear1 := h1.near
    rw [skip_append hwc, hv.skip_eq] at hnear1
    have hext1 := (ext_parseKey hkey').left
    have heat := eat_of_head (skip_ws_cons hw' (b := comma) (by decide) s') (by decide)
    obtain ⟨⟨key', d'⟩, ms', rfl⟩ := exists_cons_of_ne_nil hs.ne_nil
    simp only [valueMembers, Val.closeRunMembers] at hclear ⊢
    have hshallow : (d.value strtod).closeRun ≤ 1 := by
      rw [← Val.endsDeep_eq_false_iff]
      simpa [valueMembers] using hsync.1.2
    obtain ⟨hden, hnear⟩ := value_exact (n := n) hv hp.1.2 (by omega)
      (delim_ws_cons hw' (by simp) s') hsync.1.1 (clear_of_le_one hshallow _) hnear1 (by omega)
    rw [heat] at hnear
    obtain ⟨c2, h2, hlt, hcomma⟩ := jsonParseMembers_comma strtod hkey' rfl hden.ne_null hnear
    obtain ⟨hdens, hnear'⟩ := members_exact (n := n) hs hp.2 (by omega) hsync.2 hclear h2.near
      (by omega)
    rw [hcomma]
    exact ⟨.cons ⟨cstr_decode hkey hp.1.1, hden⟩ hdens, hnear'⟩
termination_by n
decreasing_by all_goals omega

end

end

end Cobalt.Json
