/-
Cobalt.Json.DomAstray — the DOM parser on texts it does not keep step with.

When an object's loop meets a comma that is not its own, the tree that
comes out is never the right one. If the comma belongs to an enclosing
object, the loop takes that object's next member for its own. If it belongs
to an enclosing array, the loop stops on the next element, or takes a
string for a key and then finds no colon; either way the array loses an
element (`Lost`). `value_astray` carries this through the grammar.

`Expands d v` lets the text say more than the value it is compared with:
where `v` has an empty container the text may have a non-empty one. The
serializer produces such texts; a parse tree and its own value are the
special case `expands_self`.
-/
import Cobalt.Json.DomExact

namespace Cobalt.Json

open List Bool NodePtr
open Doc (allStringsElems allStringsMembers)

variable {D : Type}

/-! ## What comes after a value -/

/-- Whose comma comes next, closing braces aside. -/
inductive Next where
  | none
  | element (ds : List Doc)
  | member

/-- What may come after a value, and whose comma comes next. -/
inductive Follow : List UInt8 → Next → Prop where
  | done {w : List UInt8} (hw : Ws w) : Follow w .none
  | bracket {w : List UInt8} (hw : Ws w) (r : List UInt8) : Follow (w ++ rbracket :: r) .none
  | brace {w r : List UInt8} {f : Next} (hw : Ws w) (h : Follow r f) :
      Follow (w ++ rbrace :: r) f
  | element {w s r : List UInt8} {ds : List Doc} (hw : Ws w) (h : Elements s ds r)
      (hp : Doc.allStringsElems portable ds = true) : Follow (w ++ comma :: s) (.element ds)
  | member {w s r : List UInt8} {ms : List (List StrChar × Doc)} (hw : Ws w)
      (h : Members s ms r) (hp : Doc.allStringsMembers portable ms = true) :
      Follow (w ++ comma :: s) .member

lemma Follow.comma {r t : List UInt8} {f : Next} {j : Nat} (h : Follow r f)
    (hj : eat j r = comma :: t) :
    (∃ ds r', f = .element ds ∧ Elements t ds r' ∧ allStringsElems portable ds = true)
      ∨ (∃ ms r', f = .member ∧ Members t ms r' ∧ allStringsMembers portable ms = true) := by
  induction h generalizing j with
  | done hw => rw [eat_of_nil (skip_ws hw)] at hj; cases hj
  | bracket hw r => rw [eat_of_head (skip_ws_cons hw (by decide) r) (by decide)] at hj; cases hj
  | brace hw h ih =>
    cases j with
    | zero => rw [eat, skip_ws_cons hw (by decide)] at hj; cases hj
    | succ j => exact ih (eat_brace j hw _ ▸ hj)
  | @element w s r ds hw h hp =>
    rw [eat_of_head (skip_ws_cons hw (by decide) s) (by decide)] at hj
    cases hj
    exact .inl ⟨ds, r, rfl, h, hp⟩
  | @member w s r ms hw h hp =>
    rw [eat_of_head (skip_ws_cons hw (by decide) s) (by decide)] at hj
    cases hj
    exact .inr ⟨ms, r, rfl, h, hp⟩

/-- If the loops of the inner objects met no comma but a loop does, it is
the outermost one, right after its last member. -/
lemma comma_of_not_clear {m : Nat} {w r : List UInt8} (hw : Ws w) (h : ¬ Clear (1 + m) r) :
    ∃ t, eat m (w ++ rbrace :: r) = comma :: t := by
  rw [Clear] at h
  push Not at h
  obtain ⟨j, hj, hhead⟩ := h
  obtain ⟨m, rfl⟩ : ∃ i, m = i + 1 := ⟨m - 1, by omega⟩
  obtain ⟨t, ht⟩ := head?_eq_some_iff.mp hhead
  refine ⟨t, ?_⟩
  have hskip := skip_eat j r
  rw [eat_brace m hw, show m = (m - j) + j by omega, ← eat_eat, ht]
  exact eat_of_head (ht ▸ hskip) (by decide) _

/-! ## Values and the texts that expand them -/

section

variable (strtod : List UInt8 → D)

mutual

/-- `d` is a text of `v`, except that it may fill empty containers. -/
inductive Expands : Doc → Val D → Prop where
  | null : Expands .null .null
  | true : Expands .true .true
  | false : Expands .false .false
  | number (l : List UInt8) : Expands (.number l) (.number (strtod l))
  | string (cs : List StrChar) : Expands (.string cs) (.string (decode cs))
  | array {ds : List Doc} {xs : List (Val D)} (h : ExpandsElems ds xs) :
      Expands (.array ds) (.array xs)
  | object {ms : List (List StrChar × Doc)} {xs : List (List UInt8 × Val D)}
      (h : ExpandsMembers ms xs) : Expands (.object ms) (.object xs)
  | filledArray {ds : List Doc} (h : ds ≠ []) : Expands (.array ds) (.array [])
  | filledObject {ms : List (List StrChar × Doc)} (h : ms ≠ []) :
      Expands (.object ms) (.object [])

inductive ExpandsElems : List Doc → List (Val D) → Prop where
  | nil : ExpandsElems [] []
  | cons {d : Doc} {x : Val D} {ds : List Doc} {xs : List (Val D)} (h : Expands d x)
      (hs : ExpandsElems ds xs) : ExpandsElems (d :: ds) (x :: xs)

inductive ExpandsMembers : List (List StrChar × Doc) → List (List UInt8 × Val D) → Prop where
  | nil : ExpandsMembers [] []
  | cons (key : List StrChar) {d : Doc} {x : Val D} {ms : List (List StrChar × Doc)}
      {xs : List (List UInt8 × Val D)} (h : Expands d x) (hs : ExpandsMembers ms xs) :
      ExpandsMembers ((key, d) :: ms) ((decode key, x) :: xs)

end

mutual

lemma expands_self : (d : Doc) → Expands strtod d (d.value strtod)
  | .null => .null
  | .true => .true
  | .false => .false
  | .number l => .number l
  | .string cs => .string cs
  | .array ds => .array (expandsElems_self ds)
  | .object ms => .object (expandsMembers_self ms)

lemma expandsElems_self :
    (ds : List Doc) → ExpandsElems strtod ds (Doc.valueElems strtod ds)
  | [] => .nil
  | d :: ds => .cons (expands_self d) (expandsElems_self ds)

lemma expandsMembers_self :
    (ms : List (List StrChar × Doc)) → ExpandsMembers strtod ms (Doc.valueMembers strtod ms)
  | [] => .nil
  | (key, d) :: ms => .cons key (expands_self d) (expandsMembers_self ms)

end

lemma ExpandsElems.length_eq {ds : List Doc} {xs : List (Val D)}
    (h : ExpandsElems strtod ds xs) : ds.length = xs.length := by
  induction ds generalizing xs with
  | nil => cases h; rfl
  | cons d ds ih => cases h with | cons _ hs => simp [ih hs]

/-! ## Loops, whatever they meet -/

variable {c : Ctx} {s r : List UInt8} {k n : Nat} {ds : List Doc} {xs : List (Val D)}
  {ms : List (List StrChar × Doc)}

lemma jsonParseElements_after {e : NodePtr D} {c1 : Ctx}
    (hv : jsonParseValue granting strtod n c = (e, c1)) :
    (e = .null ∧ jsonParseElements granting strtod (n + 1) c = ([], c1))
      ∨ (e ≠ .null ∧ (∃ es, (jsonParseElements granting strtod (n + 1) c).1 = e :: es)
        ∧ c1.Ext (jsonParseElements granting strtod (n + 1) c).2) := by
  rw [jsonParseElements, hv]
  cases e with
  | null => exact .inl ⟨rfl, rfl⟩
  | node ty v next child key =>
    refine .inr ⟨by simp, ?_⟩
    dsimp only
    split
    · exact ⟨⟨_, rfl⟩, ((ext_skip_test ‹_›).2 rfl).1.trans ((parsersReach granting strtod n).elements _).ext⟩
    · exact ⟨⟨_, rfl⟩, (ext_skip_test ‹_›).1⟩

lemma jsonParseMembers_after {key : List UInt8} {e : NodePtr D} {c1 c2 : Ctx}
    (hk : jsonParseKey granting c = (some key, c1))
    (hv : jsonParseValue granting strtod n c1 = (e, c2)) :
    (e = .null ∧ jsonParseMembers granting strtod (n + 1) c = ([], c2))
      ∨ (e ≠ .null ∧ (∃ ms, (jsonParseMembers granting strtod (n + 1) c).1 = (key, e) :: ms)
        ∧ c2.Ext (jsonParseMembers granting strtod (n + 1) c).2) := by
  rw [jsonParseMembers, hk]
  simp only [hv]
  cases e with
  | null => exact .inl ⟨rfl, rfl⟩
  | node ty v next child key =>
    refine .inr ⟨by simp, ?_⟩
    have h1 := Ctx.Ext.jalloc granting nodeSize c2
    dsimp only [jalloc]
    split
    · exact ⟨⟨_, rfl⟩, (h1.trans ((ext_skip_test ‹_›).2 rfl).1).trans
        ((parsersReach granting strtod n).members _).ext⟩
    · have h2 := h1.trans (ext_skip_test ‹_›).1
      split
      · exact ⟨⟨_, rfl⟩, h2.trans (ext_test_step ‹_›).1⟩
      · exact ⟨⟨_, rfl⟩, h2.trans (ext_test ‹_›)⟩

lemma container_node {ι : Type} {b last : UInt8} {loop : Ctx → List ι × Ctx}
    {node : List ι → NodePtr D} (hb : isWs b = false) (hk : k ≤ maxDepth) (h : c.At (b :: s) k) :
    (∃ xs, (jsonParseContainer granting b last loop node c).1 = node xs)
      ∨ (jsonParseContainer granting b last loop node c).2.depthExceeded = true := by
  rcases lt_or_eq_of_le hk with hlt | rfl
  · left
    by_cases hs : (skip s).head? = some last
    · obtain ⟨r, hr⟩ := head?_eq_some_iff.mp hs
      obtain ⟨c', he, -⟩ := container_empty loop node hb hlt h hr
      exact ⟨_, congrArg Prod.fst he⟩
    · obtain ⟨c1, -, hloop⟩ := container_loop loop node hb hlt h hs
      exact ⟨_, congrArg Prod.fst (hloop _ _ rfl)⟩
  · right
    rw [container_capped _ _ h]

lemma jsonParseValue_lbrace (hk : k ≤ maxDepth) (h : c.Near (lbrace :: s) k) (n : Nat) :
    (∃ ms, (jsonParseValue granting strtod (n + 2) c).1 = .objectNode ms)
      ∨ (jsonParseValue granting strtod (n + 2) c).2.depthExceeded = true := by
  obtain ⟨c1, h1, -, he⟩ := jsonParseValue_object strtod n h
  rw [he]
  exact container_node rfl hk h1

lemma jsonParseValue_lbracket (hk : k ≤ maxDepth) (h : c.Near (lbracket :: s) k) (n : Nat) :
    (∃ es, (jsonParseValue granting strtod (n + 2) c).1 = .arrayNode es)
      ∨ (jsonParseValue granting strtod (n + 2) c).2.depthExceeded = true := by
  obtain ⟨c1, h1, -, he⟩ := jsonParseValue_array strtod n h
  rw [he]
  exact container_node rfl hk h1

/-- A node, which denotes a string only if `d` is one. -/
def NodeFor (e : NodePtr D) (d : Doc) : Prop :=
  e ≠ .null ∧ ∀ x, e.Denotes (.string x) → ∃ cs, d = .string cs

lemma nodeFor_object (ms : List (List UInt8 × NodePtr D)) (d : Doc) : NodeFor (.objectNode ms) d :=
  ⟨by simp [objectNode], fun x hx => by
    simp [NodePtr.Denotes, objectNode, denote, fieldsDenote] at hx⟩

lemma nodeFor_array (es : List (NodePtr D)) (d : Doc) : NodeFor (.arrayNode es) d :=
  ⟨by simp [arrayNode], fun x hx => by
    simp [NodePtr.Denotes, arrayNode, denote, fieldsDenote] at hx⟩

lemma value_node {d : Doc} (h : Value s d r) (hp : d.allStrings portable = true)
    (hk : k ≤ maxDepth) (hr : Delim r) (hc : c.Near s k) (hn : 2 ≤ n) :
    (jsonParseValue granting strtod n c).2.depthExceeded = true
      ∨ NodeFor (jsonParseValue granting strtod n c).1 d := by
  obtain ⟨n, rfl⟩ : ∃ m, n = m + 2 := ⟨n - 2, by omega⟩
  have hscalar : ∀ v s, Exact (jsonParseValue granting strtod (n + 2) c) v s k →
      (∀ x, v ≠ .string x) → NodeFor (jsonParseValue granting strtod (n + 2) c).1 d := by
    intro v s he hv
    exact ⟨he.ne_null, fun x hx => absurd (Option.some.inj (he.1.symm.trans hx)) (hv x)⟩
  cases h with
  | null => exact .inr (hscalar _ _ (value_exact_null strtod hc) (by simp))
  | true => exact .inr (hscalar _ _ (value_exact_true strtod hc) (by simp))
  | false => exact .inr (hscalar _ _ (value_exact_false strtod hc) (by simp))
  | number r hl => exact .inr (hscalar _ _ (value_exact_number strtod hl hr hc) (by simp))
  | string r hv => exact .inr ⟨(value_exact_string strtod hv hp hc).ne_null, fun _ _ => ⟨_, rfl⟩⟩
  | emptyArray | array =>
    exact (jsonParseValue_lbracket strtod hk hc n).symm.imp_right fun ⟨es, h⟩ =>
      h ▸ nodeFor_array es _
  | emptyObject | object =>
    exact (jsonParseValue_lbrace strtod hk hc n).symm.imp_right fun ⟨ms, h⟩ =>
      h ▸ nodeFor_object ms _

/-- The first element of a list, and the comma or the bracket behind it. -/
lemma Elements.first (h : Elements s ds r) (hp : allStringsElems portable ds = true) :
    ∃ d ds' w x t, ds = d :: ds' ∧ Value (skip s) d (w ++ x :: t) ∧ d.allStrings portable = true
      ∧ Ws w ∧ Delim (w ++ x :: t) ∧ skip (w ++ x :: t) = x :: t
      ∧ (x = rbracket ∧ t = r ∧ ds' = []
        ∨ x = comma ∧ Elements t ds' r ∧ allStringsElems portable ds' = true) := by
  cases h with
  | @last w w' s r d hw hw' hv =>
    refine ⟨d, [], w', rbracket, r, rfl, ?_, by simpa [allStringsElems] using hp, hw',
      delim_ws_cons hw' (by simp) r, skip_ws_cons hw' (by decide) r, .inl ⟨rfl, rfl, rfl⟩⟩
    rwa [skip_append hw, hv.skip_eq]
  | @cons w w' s t r d ds hw hw' hv hs =>
    simp only [allStringsElems, and_eq_true] at hp
    refine ⟨d, ds, w', comma, t, rfl, ?_, hp.1, hw', delim_ws_cons hw' (by simp) t,
      skip_ws_cons hw' (by decide) t, .inr ⟨rfl, hs, hp.2⟩⟩
    rwa [skip_append hw, hv.skip_eq]

/-- The first member of a list: its key is read, and the cursor stands before its value. -/
lemma Members.first (h : Members s ms r)
    (hp : allStringsMembers portable ms = true) (hc : c.Near (skip s) k) :
    ∃ key d ms' c1 s' w x t, ms = (key, d) :: ms' ∧ cstr (decode key) = decode key
      ∧ jsonParseKey granting c = (some (decode key), c1) ∧ c1.Near s' k ∧ c1.left ≤ c.left
      ∧ Value s' d (w ++ x :: t) ∧ d.allStrings portable = true ∧ Ws w ∧ Delim (w ++ x :: t)
      ∧ (x = rbrace ∧ t = r ∧ ms' = []
        ∨ x = comma ∧ Members t ms' r ∧ allStringsMembers portable ms' = true) := by
  cases h with
  | @last w wk wc w' s r key d hw hkey hwk hwc hw' hv =>
    simp only [allStringsMembers, Bool.and_true, Bool.and_eq_true] at hp
    rw [skip_append hw, skip_stringText] at hc
    obtain ⟨c1, hkey', h1⟩ := jsonParseKey_at hkey hp.1 hwk hc
    refine ⟨key, d, [], c1, s, w', rbrace, r, rfl, cstr_decode hkey hp.1, hkey', ?_,
      (ext_parseKey hkey').left, hv, hp.2, hw', delim_ws_cons hw' (by simp) r, .inl ⟨rfl, rfl, rfl⟩⟩
    exact ⟨_, h1, by rw [skip_append hwc, hv.skip_eq]⟩
  | @cons w wk wc w' s t r key d ms hw hkey hwk hwc hw' hv hs =>
    simp only [allStringsMembers, and_eq_true] at hp
    rw [skip_append hw, skip_stringText] at hc
    obtain ⟨c1, hkey', h1⟩ := jsonParseKey_at hkey hp.1.1 hwk hc
    refine ⟨key, d, ms, c1, s, w', comma, t, rfl, cstr_decode hkey hp.1.1, hkey', ?_,
      (ext_parseKey hkey').left, hv, hp.1.2, hw', delim_ws_cons hw' (by simp) t,
      .inr ⟨rfl, hs, hp.2⟩⟩
    exact ⟨_, h1, by rw [skip_append hwc, hv.skip_eq]⟩

lemma elements_nonempty (h : Elements s ds r) (hp : allStringsElems portable ds = true)
    (hk : k ≤ maxDepth) (hc : c.Near (skip s) k) (hn : 3 ≤ n) :
    (jsonParseElements granting strtod n c).2.depthExceeded = true
      ∨ (jsonParseElements granting strtod n c).1 ≠ [] := by
  obtain ⟨n, rfl⟩ : ∃ m, n = m + 1 := ⟨n - 1, by omega⟩
  obtain ⟨d, ds, w, x, t, rfl, hv, hp', -, hr, -, -⟩ := h.first hp
  have hnode := value_node strtod hv hp' hk hr hc (n := n) (by omega)
  rcases jsonParseElements_after strtod (n := n) (c := c) rfl with ⟨hnull, he⟩ | ⟨-, ⟨es, hes⟩, -⟩
  · rw [he]
    exact .inl (hnode.resolve_right fun h => h.1 hnull)
  · exact .inr (by simp [hes])

lemma members_nonempty (h : Members s ms r) (hp : allStringsMembers portable ms = true)
    (hk : k ≤ maxDepth) (hc : c.Near (skip s) k) (hn : 3 ≤ n) :
    (jsonParseMembers granting strtod n c).2.depthExceeded = true
      ∨ (jsonParseMembers granting strtod n c).1 ≠ [] := by
  obtain ⟨n, rfl⟩ : ∃ m, n = m + 1 := ⟨n - 1, by omega⟩
  obtain ⟨key, d, ms, c1, s', w, x, t, rfl, -, hkey, h1, -, hv, hp', -, hr, -⟩ := h.first hp hc
  have hnode := value_node strtod hv hp' hk hr h1 (n := n) (by omega)
  rcases jsonParseMembers_after strtod (n := n) hkey rfl with ⟨hnull, he⟩ | ⟨-, ⟨ms, hms⟩, -⟩
  · rw [he]
    exact .inl (hnode.resolve_right fun h => h.1 hnull)
  · exact .inr (by simp [hms])

/-! ## An object's loop on the elements of an array -/

/-- Literals only, and at least one. -/
def Literals (ds : List Doc) : Prop := ds ≠ [] ∧ ∀ d ∈ ds, ∃ cs, d = .string cs

/-- Where an object's loop leaves the cursor after it took the comma before
the elements `ds` of an enclosing array: on a value that is no string, or
after the strings it took for keys. -/
inductive Lost (c : Ctx) (k : Nat) : List Doc → Prop where
  | stuck {ds : List Doc} {b : UInt8} {s : List UInt8} (h : c.Near (b :: s) k)
      (hc : b ≠ comma) (hb : b ≠ rbrace) : Lost c k ds
  | closed {ds : List Doc} {r : List UInt8} (hl : Literals ds) (h : c.Near (rbracket :: r) k) :
      Lost c k ds
  | behind {ds ys : List Doc} {t r : List UInt8} (hl : Literals ds)
      (h : c.Near (comma :: t) k) (hys : Elements t ys r)
      (hp : Doc.allStringsElems portable ys = true) : Lost c k (ds ++ ys)

lemma Literals.append {ds ds' : List Doc} (h : Literals ds) (h' : Literals ds') :
    Literals (ds ++ ds') := ⟨by simp [h.1], fun d hd => (mem_append.mp hd).elim (h.2 d) (h'.2 d)⟩

lemma literals_singleton (cs : List StrChar) : Literals [.string cs] :=
  ⟨by simp, fun d hd => ⟨cs, by simpa using hd⟩⟩

namespace Lost

variable {ds ds' : List Doc}

lemma append (hl : Literals ds) (h : Lost c k ds') : Lost c k (ds ++ ds') := by
  cases h with
  | stuck h hc hb => exact .stuck h hc hb
  | closed hl' h => exact .closed (hl.append hl') h
  | behind hl' h hys hp =>
    rw [← append_assoc]
    exact .behind (hl.append hl') h hys hp

lemma leave (h : Lost c (k + 1) ds) : Lost c.leave k ds := by
  cases h with
  | stuck h hc hb => exact .stuck h.leave hc hb
  | closed hl h => exact .closed hl h.leave
  | behind hl h hys hp => exact .behind hl h.leave hys hp

lemma testBrace (h : Lost c k ds) :
    ∃ c', (jsonSkipWhitespace c).test rbrace = (false, c') ∧ Lost c' k ds := by
  cases h with
  | stuck h hc hb =>
    obtain ⟨c', ht, h'⟩ := h.skipTest_of_ne (x := rbrace) (by simpa using hb)
    exact ⟨c', ht, .stuck ⟨_, h', h.skip_eq⟩ hc hb⟩
  | closed hl h =>
    obtain ⟨c', ht, h'⟩ := h.skipTest_of_ne (x := rbrace) (by simp)
    exact ⟨c', ht, .closed hl ⟨_, h', h.skip_eq⟩⟩
  | behind hl h hys hp =>
    obtain ⟨c', ht, h'⟩ := h.skipTest_of_ne (x := rbrace) (by simp)
    exact ⟨c', ht, .behind hl ⟨_, h', h.skip_eq⟩ hys hp⟩

end Lost

lemma Value.head_string {b : UInt8} {t : List UInt8} {d : Doc} (h : Value (b :: t) d r)
    (hb : b = quote) : ∃ cs, d = .string cs := by
  subst hb
  generalize hs : quote :: t = s at h
  cases h with
  | string r hv => exact ⟨_, rfl⟩
  | number r hl =>
    obtain ⟨b, t', rfl, hb⟩ := hl.head
    obtain rfl : quote = b := by simpa using congrArg List.head? hs
    exact absurd hb (by decide)
  | _ => exact absurd (congrArg List.head? hs) (by simp [nullText, trueText, falseText])

lemma jsonParseKey_literal {cs : List StrChar} (hv : ValidChars cs) (hp : portable cs = true)
    (h : c.Near (stringText cs ++ s) k) (hs : (skip s).head? ≠ some colon) :
    ∃ c1, jsonParseKey granting c = (none, c1) ∧ c1.At (skip s) k := by
  obtain ⟨c1, ht, h1⟩ := h.skipTest_of_head
  obtain ⟨c2, hlit, h2⟩ := jsonParseString_literal hv (and_eq_true_iff.mp hp).2 h1
  obtain ⟨c3, ht', h3⟩ := h2.near.skipTest_of_ne hs
  refine ⟨c3, ?_, h3⟩
  rw [jsonParseKey, ht]
  simp only [hlit, ht']

lemma jsonParseKey_other {b : UInt8} (h : c.Near (b :: s) k) (hb : b ≠ quote) :
    ∃ c1, jsonParseKey granting c = (none, c1) ∧ c1.Near (b :: s) k := by
  obtain ⟨c1, ht, h1⟩ := h.skipTest_of_ne (x := quote) (by simpa using hb)
  exact ⟨c1, by rw [jsonParseKey, ht], ⟨_, h1, h.skip_eq⟩⟩

lemma members_on_elements (h : Elements s ds r)
    (hp : allStringsElems portable ds = true) (hc : c.Near (skip s) k) (n : Nat) :
    ∃ c', jsonParseMembers granting strtod (n + 1) c = ([], c') ∧ Lost c' k ds := by
  suffices hkey : ∃ c', jsonParseKey granting c = (none, c') ∧ Lost c' k ds by
    obtain ⟨c', hkey, hl⟩ := hkey
    exact ⟨c', by rw [jsonParseMembers, hkey], hl⟩
  obtain ⟨d, ds, w, x, t, rfl, hv, hp', -, -, hskip, htail⟩ := h.first hp
  obtain ⟨b, u, hb, -, h1, -, h2, -⟩ := hv.head
  by_cases hq : b = quote
  · obtain ⟨cs, rfl⟩ := Value.head_string (hb ▸ hv) hq
    generalize skip s = s at hv hc
    cases hv with
    | string _ hvalid =>
      have hcolon : (skip (w ++ x :: t)).head? ≠ some colon := by
        rw [hskip]
        rcases htail with ⟨rfl, -⟩ | ⟨rfl, -⟩ <;> simp
      obtain ⟨c', hkey, h'⟩ := jsonParseKey_literal hvalid hp' hc hcolon
      have hnear := h'.near
      rw [skip_skip, hskip] at hnear
      rcases htail with ⟨rfl, -, rfl⟩ | ⟨rfl, hs, hps⟩
      · exact ⟨c', hkey, .closed (literals_singleton cs) hnear⟩
      · exact ⟨c', hkey, .behind (literals_singleton cs) hnear hs hps⟩
  · obtain ⟨c', hkey, h'⟩ := jsonParseKey_other (hb ▸ hc) hq
    exact ⟨c', hkey, .stuck h' h1 h2⟩

lemma members_lost {key : List UInt8} {e : NodePtr D} {c1 c2 : Ctx}
    (hk : jsonParseKey granting c = (some key, c1))
    (hv : jsonParseValue granting strtod (n + 1) c1 = (e, c2)) (he : e ≠ .null) (h : Lost c2 k ds) :
    ∃ c', jsonParseMembers granting strtod (n + 2) c = ([(key, e)], c') ∧ Lost c' k ds := by
  cases h with
  | stuck h hc hb =>
    obtain ⟨c3, x, c4, h3, ht, hstop⟩ := jsonParseMembers_stop strtod hk hv he h (by simpa using hc)
    obtain ⟨c4', ht', h4⟩ := h3.test rbrace
    rw [ht, head?_cons, beq_eq_false_iff_ne.mpr (fun h => hb (Option.some.inj h))] at ht'
    cases ht'
    exact ⟨c4, hstop, .stuck ⟨_, h4, h.skip_eq⟩ hc hb⟩
  | closed hl h =>
    obtain ⟨c3, x, c4, h3, ht, hstop⟩ := jsonParseMembers_stop strtod hk hv he h (by simp)
    obtain ⟨c4', ht', h4⟩ := h3.test rbrace
    rw [ht] at ht'
    cases ht'
    exact ⟨c4, hstop, .closed hl ⟨_, h4, h.skip_eq⟩⟩
  | behind hl h hys hp =>
    obtain ⟨c3, h3, -, hcomma⟩ := jsonParseMembers_comma strtod hk hv he h
    obtain ⟨c', hloop, hlost⟩ := members_on_elements strtod hys hp h3.near n
    rw [hloop] at hcomma
    exact ⟨c', hcomma, hlost.append hl⟩

lemma jsonParseElements_flag (h : (jsonParseValue granting strtod n c).2.depthExceeded = true) :
    (jsonParseElements granting strtod (n + 1) c).2.depthExceeded = true := by
  rcases jsonParseElements_after strtod (n := n) (c := c) rfl with ⟨-, he⟩ | ⟨-, -, hext⟩
  · rw [he]; exact h
  · exact hext.capped h

/-- The loop is too deep, or does not return nodes for `xs`. -/
def WrongElements (res : List (NodePtr D) × Ctx) (xs : List (Val D)) : Prop :=
  res.2.depthExceeded = true ∨ ¬ List.Forall₂ NodePtr.Denotes res.1 xs

def WrongMembers (res : List (List UInt8 × NodePtr D) × Ctx) (xs : List (List UInt8 × Val D)) :
    Prop := res.2.depthExceeded = true ∨ ¬ List.Forall₂ NodePtr.DenotesMember res.1 xs

lemma WrongElements.cons {res : List (NodePtr D) × Ctx}
    (h : WrongElements res xs) (e : NodePtr D) (x : Val D) :
    WrongElements (e :: res.1, res.2) (x :: xs) :=
  h.imp_right fun hne hall => hne (List.forall₂_cons.mp hall).2

/-- A loop that stops after one element where more are due. -/
lemma wrongElements_stop {e : NodePtr D} {x : Val D} (hxs : 0 < xs.length) :
    WrongElements ([e], c) (x :: xs) := by
  refine .inr fun hall => ?_
  have := hall.length_eq
  simp only [length_cons, length_nil] at this
  omega

lemma elements_wrong {v : Val D}
    (h : (jsonParseValue granting strtod n c).2.depthExceeded = true
      ∨ ¬ (jsonParseValue granting strtod n c).1.Denotes v) :
    WrongElements (jsonParseElements granting strtod (n + 1) c) (v :: xs) := by
  refine h.imp (jsonParseElements_flag strtod) fun hne hall => ?_
  rcases jsonParseElements_after strtod (n := n) (c := c) rfl with ⟨-, he⟩ | ⟨-, ⟨es, hes⟩, -⟩
  · rw [he] at hall; cases hall
  · rw [hes] at hall
    exact hne (List.forall₂_cons.mp hall).1

/-- An array's loop that starts too late never makes up for the strings that
are lost. -/
lemma elements_late {s r : List UInt8} {ds ys : List Doc} {c : Ctx}
    {k n : Nat} (h : Elements s ys r) (hl : Literals ds)
    (hx : ExpandsElems strtod (ds ++ ys) xs) (hp : allStringsElems portable ys = true)
    (hk : k ≤ maxDepth) (hc : c.Near (skip s) k) (hn : 3 * c.left + 4 ≤ n) :
    WrongElements (jsonParseElements granting strtod n c) xs := by
  induction ys generalizing s ds xs c n with
  | nil => exact absurd rfl h.ne_nil
  | cons d ys ih =>
  obtain ⟨n, rfl⟩ : ∃ m, n = m + 2 := ⟨n - 2, by omega⟩
  obtain ⟨d0, ds, rfl⟩ := exists_cons_of_ne_nil hl.1
  obtain ⟨cs0, rfl⟩ := hl.2 d0 (by simp)
  cases hx with
  | @cons _ x0 _ xs hx0 hx =>
  cases hx0
  have hlen : ds.length + (ys.length + 1) = xs.length := by simpa using hx.length_eq
  obtain ⟨_, _, w, x, t, heq, hv, hpd, -, hr, hskip, htail⟩ := h.first hp
  cases heq
  by_cases hd : ∃ cs, d = .string cs
  swap
  · -- the first node stands in the place of a string
    exact elements_wrong strtod ((value_node strtod hv hpd hk hr hc (by omega)).imp_right
      fun h hden => hd (h.2 _ hden))
  obtain ⟨cs, rfl⟩ := hd
  generalize skip s = s at hv hc
  cases hv with
  | string _ hvalid =>
    obtain ⟨hden, hnear⟩ := value_exact_string strtod (n := n) hvalid hpd hc
    rw [hskip] at hnear
    rcases htail with ⟨rfl, -, rfl⟩ | ⟨rfl, hs, hps⟩
    · obtain ⟨c2, -, hstop⟩ := jsonParseElements_stop strtod rfl hden.ne_null hnear (by simp)
      rw [hstop]
      exact wrongElements_stop (by omega)
    · obtain ⟨c2, h2, hlt, hcomma⟩ := jsonParseElements_comma strtod rfl hden.ne_null hnear
      have hl' : Literals (ds ++ [.string cs]) :=
        ⟨by simp, fun d hd => (mem_append.mp hd).elim
          (fun hd => hl.2 d (mem_cons_of_mem _ hd)) ((literals_singleton cs).2 d)⟩
      rw [hcomma]
      exact (ih (n := n + 1) (c := c2) hs hl' (by simpa using hx) hps h2.near
        (by omega)).cons _ _

/-! ## The induction over the grammar -/

/-- The conditions of `value_exact`, for a text that expands `v`. -/
def InStep (d : Doc) (v : Val D) (k : Nat) (r : List UInt8) : Prop :=
  d.value strtod = v ∧ v.synced = true ∧ k + d.nesting ≤ maxDepth ∧ Clear v.closeRun r

/-- What comes out otherwise: too deep or a wrong tree, or the right tree
with the cursor lost among the elements of an enclosing array. -/
def Astray (res : NodePtr D × Ctx) (v : Val D) (f : Next) (k : Nat) : Prop :=
  res.2.depthExceeded = true ∨ ¬ res.1.Denotes v
    ∨ ∃ ds, f = .element ds ∧ res.1.Denotes v ∧ Lost res.2 k ds

def AstrayMembers (res : List (List UInt8 × NodePtr D) × Ctx) (xs : List (List UInt8 × Val D))
    (f : Next) (k : Nat) : Prop :=
  res.2.depthExceeded = true ∨ ¬ List.Forall₂ NodePtr.DenotesMember res.1 xs
    ∨ ∃ ds, f = .element ds ∧ List.Forall₂ NodePtr.DenotesMember res.1 xs ∧ Lost res.2 k ds

lemma null_notMem_elements (n : Nat) (c : Ctx) :
    null ∉ (jsonParseElements granting strtod n c).1 := by
  induction n generalizing c with
  | zero => simp [jsonParseElements]
  | succ n ih =>
    rw [jsonParseElements]
    split
    · simp
    · rename_i hne _
      have hhead : null ≠ _ := fun h => hne h.symm
      split
      · exact fun hmem => (mem_cons.mp hmem).elim hhead (ih _)
      · exact fun hmem => hhead (mem_singleton.mp hmem)

lemma array_astray {f : Next} (hk : k ≤ maxDepth)
    (hc : c.Near (lbracket :: s) k) (hs : (skip s).head? ≠ some rbracket)
    (hloop : k < maxDepth → ∀ c1 : Ctx, c1.At (skip s) (k + 1) → c1.left ≤ s.length →
      WrongElements (jsonParseElements granting strtod n c1) xs) :
    Astray (jsonParseValue granting strtod (n + 2) c) (.array xs) f k := by
  obtain ⟨c1, h1, -, he⟩ := jsonParseValue_array strtod n hc
  rw [he]
  rcases lt_or_eq_of_le hk with hlt | rfl
  · obtain ⟨c2, h2, hres⟩ := container_loop _ _ rfl hlt h1 hs
    rcases ht : (jsonSkipWhitespace (jsonParseElements granting strtod n c2).2).test rbracket
      with ⟨x, c3⟩
    have hext := (ext_skip_test ht).1
    rw [hres _ _ ht]
    refine (hloop hlt c2 h2 (h2.left ▸ skip_length_le s)).imp (fun hflag => ?_)
      fun hne => .inl fun hden => ?_
    · have := hext.capped hflag
      cases x <;> exact this
    · exact hne ((denotes_arrayNode (null_notMem_elements strtod n c2) xs).mp hden)
  · rw [container_capped _ _ h1]
    exact .inl rfl

lemma object_astray {xs : List (List UInt8 × Val D)} {f : Next} (hk : k ≤ maxDepth)
    (hc : c.Near (lbrace :: s) k) (hs : (skip s).head? ≠ some rbrace)
    (hloop : k < maxDepth → ∀ c1 : Ctx, c1.At (skip s) (k + 1) → c1.left ≤ s.length →
      AstrayMembers (jsonParseMembers granting strtod n c1) xs f (k + 1)) :
    Astray (jsonParseValue granting strtod (n + 2) c) (.object xs) f k := by
  obtain ⟨c1, h1, -, he⟩ := jsonParseValue_object strtod n hc
  rw [he]
  rcases lt_or_eq_of_le hk with hlt | rfl
  · obtain ⟨c2, h2, hres⟩ := container_loop _ _ rfl hlt h1 hs
    rcases ht : (jsonSkipWhitespace (jsonParseMembers granting strtod n c2).2).test rbrace
      with ⟨x, c3⟩
    have hext := (ext_skip_test ht).1
    have hres := hres _ _ ht
    rw [hres]
    rcases hloop hlt c2 h2 (h2.left ▸ skip_length_le s) with hflag | hne | ⟨ds, hf, hden, hlost⟩
    · have := hext.capped hflag
      exact .inl (by cases x <;> exact this)
    · exact .inr (.inl fun hd => hne ((denotes_objectNode _ xs).mp hd))
    · obtain ⟨c3', ht', hlost'⟩ := hlost.testBrace
      rw [ht] at ht'
      cases ht'
      exact .inr (.inr ⟨ds, hf, (denotes_objectNode _ xs).mpr hden, hlost'.leave⟩)
  · rw [container_capped _ _ h1]
    exact .inl rfl

lemma members_wrong {key : List UInt8} {x : List UInt8 × Val D} {xs : List (List UInt8 × Val D)}
    {c1 : Ctx} (hk : jsonParseKey granting c = (some key, c1))
    (h : (jsonParseValue granting strtod n c1).2.depthExceeded = true
      ∨ ¬ (jsonParseValue granting strtod n c1).1.Denotes x.2) :
    WrongMembers (jsonParseMembers granting strtod (n + 1) c) (x :: xs) := by
  rcases jsonParseMembers_after strtod (n := n) hk rfl with ⟨-, he⟩ | ⟨-, ⟨ms, hms⟩, hext⟩
  · exact .inr (by rw [he]; exact fun h => by cases h)
  · refine h.imp hext.capped fun hne hall => ?_
    rw [hms] at hall
    exact hne (List.forall₂_cons.mp hall).1.2

/-- An object's loop that takes a member of an enclosing object is wrong. -/
lemma members_surplus {key t r : List UInt8} {c1 : Ctx}
    {x : List UInt8 × Val D} (hkey : jsonParseKey granting c = (some key, c1))
    (hnull : (jsonParseValue granting strtod n c1).1 ≠ .null)
    (hnear : (jsonParseValue granting strtod n c1).2.Near (comma :: t) k) (h : Members t ms r)
    (hp : allStringsMembers portable ms = true) (hk : k ≤ maxDepth) (hn : 3 ≤ n) :
    WrongMembers (jsonParseMembers granting strtod (n + 1) c) [x] := by
  obtain ⟨c2, h2, -, hcomma⟩ := jsonParseMembers_comma strtod hkey rfl hnull hnear
  rw [hcomma]
  exact (members_nonempty strtod h hp hk h2.near hn).imp_right fun hne hall =>
    hne (List.forall₂_nil_right_iff.mp (List.forall₂_cons.mp hall).2)

lemma elements_lost {v : Val D} (hden : (jsonParseValue granting strtod n c).1.Denotes v)
    (h : Lost (jsonParseValue granting strtod n c).2 k ds) (hx : ExpandsElems strtod ds xs)
    (hds : ds ≠ []) (hk : k ≤ maxDepth) (hn : 3 * c.left + 4 ≤ n + 1) :
    WrongElements (jsonParseElements granting strtod (n + 1) c) (v :: xs) := by
  have hpos : 0 < xs.length := hx.length_eq ▸ length_pos_iff.mpr hds
  cases h with
  | stuck h hc _ =>
    obtain ⟨c2, -, he⟩ := jsonParseElements_stop strtod rfl hden.ne_null h (by simpa using hc)
    exact he ▸ wrongElements_stop hpos
  | closed _ h =>
    obtain ⟨c2, -, he⟩ := jsonParseElements_stop strtod rfl hden.ne_null h (by simp)
    exact he ▸ wrongElements_stop hpos
  | behind hl h hys hp =>
    obtain ⟨c2, h2, hlt, hcomma⟩ := jsonParseElements_comma strtod rfl hden.ne_null h
    rw [hcomma]
    exact (elements_late strtod (n := n) hys hl hx hp hk h2.near (by omega)).cons _ _

mutual

/-- A value that is not in step. -/
lemma value_astray {s r : List UInt8} {d : Doc} {v : Val D} {f : Next} {c : Ctx} {k n : Nat}
    (h : Value s d r) (hx : Expands strtod d v) (hp : d.allStrings portable = true)
    (hk : k ≤ maxDepth) (hf : Follow r f) (hno : ¬ InStep strtod d v k r)
    (hc : c.Near s k) (hn : 3 * c.left + 3 ≤ n) :
    Astray (jsonParseValue granting strtod n c) v f k := by
  obtain ⟨n, rfl⟩ : ∃ m, n = m + 2 := ⟨n - 2, by omega⟩
  have hleft := hc.left_le
  cases h with
  | null | true | false | number | string =>
    cases hx
    exact absurd ⟨rfl, rfl, hk, clear_of_le_one (Nat.zero_le 1) r⟩ hno
  | emptyArray r hw =>
    cases hx with
    | filledArray h => exact absurd rfl h
    | array hs =>
      cases hs
      rcases lt_or_eq_of_le hk with hlt | rfl
      · exact absurd ⟨rfl, rfl, hlt, clear_of_le_one (Nat.zero_le 1) r⟩ hno
      · obtain ⟨c1, h1, -, he⟩ := jsonParseValue_array strtod n hc
        rw [he, container_capped _ _ h1]
        exact .inl rfl
  | emptyObject r hw =>
    cases hx with
    | filledObject h => exact absurd rfl h
    | object hs =>
      cases hs
      rcases lt_or_eq_of_le hk with hlt | rfl
      · exact absurd ⟨rfl, rfl, hlt, clear_of_le_one (Nat.zero_le 1) r⟩ hno
      · obtain ⟨c1, h1, -, he⟩ := jsonParseValue_object strtod n hc
        rw [he, container_capped _ _ h1]
        exact .inl rfl
  | @array s _ ds hs =>
    rw [length_cons] at hleft
    cases hx with
    | filledArray h =>
      refine array_astray strtod hk hc hs.head fun hlt c1 h1 hle => ?_
      refine (elements_nonempty strtod hs hp hlt h1.near_skip (by omega)).imp_right fun hne hall => ?_
      exact hne (List.forall₂_nil_right_iff.mp hall)
    | @array _ xs hxs =>
      refine array_astray strtod hk hc hs.head fun hlt c1 h1 hle => ?_
      refine elements_astray hs hxs hp hlt ?_ h1.near_skip (by omega)
      rintro ⟨rfl, hsync, hnest⟩
      exact hno ⟨rfl, hsync, by rw [Doc.nesting]; omega, clear_of_le_one (Nat.zero_le 1) r⟩
  | @object s _ ms hs =>
    rw [length_cons] at hleft
    have hhead : (skip s).head? ≠ some rbrace := by rw [hs.head]; decide
    cases hx with
    | filledObject h =>
      refine object_astray strtod hk hc hhead fun hlt c1 h1 hle => ?_
      refine (members_nonempty strtod hs hp hlt h1.near_skip (by omega)).imp_right
        fun hne => .inl fun hall => ?_
      exact hne (List.forall₂_nil_right_iff.mp hall)
    | @object _ xs hxs =>
      refine object_astray strtod hk hc hhead fun hlt c1 h1 hle => ?_
      refine members_astray hs hxs hp hlt hf ?_ h1.near_skip (by omega)
      rintro ⟨rfl, hsync, hnest, hclear⟩
      exact hno ⟨rfl, hsync, by rw [Doc.nesting]; omega, hclear⟩
termination_by n
decreasing_by all_goals omega

lemma elements_astray {s r : List UInt8} {ds : List Doc} {xs : List (Val D)} {c : Ctx}
    {k n : Nat} (h : Elements s ds r) (hx : ExpandsElems strtod ds xs)
    (hp : allStringsElems portable ds = true) (hk : k ≤ maxDepth)
    (hno : ¬ (Doc.valueElems strtod ds = xs ∧ Val.syncedElems xs = true
      ∧ k + Doc.nestingElems ds ≤ maxDepth))
    (hc : c.Near (skip s) k) (hn : 3 * c.left + 4 ≤ n) :
    WrongElements (jsonParseElements granting strtod n c) xs := by
  obtain ⟨n, rfl⟩ : ∃ m, n = m + 1 := ⟨n - 1, by omega⟩
  obtain ⟨d, ds, w, y, t, rfl, hv, hpd, hw, hr, hskip, htail⟩ := h.first hp
  cases hx with
  | @cons _ x _ xs hx hxs =>
  rcases htail with ⟨rfl, -, rfl⟩ | ⟨rfl, hs, hps⟩
  · cases hxs
    have hstep : ¬ InStep strtod d x k (w ++ rbracket :: t) := by
      rintro ⟨rfl, hsync, hnest, -⟩
      refine hno ⟨rfl, by simpa [Val.syncedElems] using hsync, ?_⟩
      simpa [Doc.nestingElems] using hnest
    rcases or_assoc.mpr (value_astray (n := n) hv hx hpd hk (.bracket hw t) hstep hc (by omega))
      with hwrong | ⟨_, hf, -⟩
    · exact elements_wrong strtod hwrong
    · cases hf
  · by_cases hstep : InStep strtod d x k (w ++ comma :: t)
    · obtain ⟨rfl, hsync, hnest, hclear⟩ := hstep
      obtain ⟨hden, hnear⟩ := value_exact strtod (n := n) hv hpd hnest hr hsync hclear hc (by omega)
      rw [eat_of_head hskip (by decide)] at hnear
      obtain ⟨c2, h2, hlt, hcomma⟩ := jsonParseElements_comma strtod rfl hden.ne_null hnear
      rw [hcomma]
      refine (elements_astray (n := n) hs hxs hps hk ?_ h2.near (by omega)).cons _ _
      rintro ⟨rfl, hsyncs, hnests⟩
      refine hno ⟨rfl, ?_, by rw [Doc.nestingElems]; omega⟩
      rw [Val.syncedElems, hsync, hsyncs, hclear.shallow hw]
      simp
    · rcases or_assoc.mpr (value_astray (n := n) hv hx hpd hk (.element hw hs hps) hstep hc
        (by omega)) with hwrong | ⟨_, hf, hden, hlost⟩
      · exact elements_wrong strtod hwrong
      · cases hf
        exact elements_lost strtod hden hlost hxs hs.ne_nil hk hn
termination_by n
decreasing_by all_goals omega

lemma members_astray {s r : List UInt8} {ms : List (List StrChar × Doc)}
    {xs : List (List UInt8 × Val D)} {f : Next} {c : Ctx} {k n : Nat} (h : Members s ms r)
    (hx : ExpandsMembers strtod ms xs) (hp : allStringsMembers portable ms = true)
    (hk : k ≤ maxDepth) (hf : Follow r f)
    (hno : ¬ (Doc.valueMembers strtod ms = xs ∧ Val.syncedMembers xs = true
      ∧ k + Doc.nestingMembers ms ≤ maxDepth ∧ Clear (Val.closeRunMembers xs) r))
    (hc : c.Near (skip s) k) (hn : 3 * c.left + 4 ≤ n) :
    AstrayMembers (jsonParseMembers granting strtod n c) xs f k := by
  obtain ⟨n, rfl⟩ : ∃ m, n = m + 2 := ⟨n - 2, by omega⟩
  obtain ⟨key, d, ms, c1, s', w, y, t, rfl, hcstr, hkey, hnear1, hext1, hv, hpd, hw, hr, htail⟩ :=
    h.first hp hc
  cases hx with
  | @cons _ _ x _ xs hx hxs =>
  rcases htail with ⟨rfl, rfl, rfl⟩ | ⟨rfl, hs, hps⟩
  · cases hxs
    by_cases hstep : InStep strtod d x k (w ++ rbrace :: t)
    · -- the value is right, so the loop meets a comma after it
      obtain ⟨rfl, hsync, hnest, hclear⟩ := hstep
      obtain ⟨hden, hnear⟩ := value_exact strtod (n := n + 1) hv hpd hnest hr hsync hclear hnear1
        (by omega)
      obtain ⟨u, hu⟩ := comma_of_not_clear (m := (d.value strtod).closeRun) (r := t) hw (by
        intro hclear'
        refine hno ⟨rfl, by simpa [Val.syncedMembers] using hsync, ?_, hclear'⟩
        simpa [Doc.nestingMembers] using hnest)
      rw [hu] at hnear
      rcases (Follow.brace hw hf).comma hu with ⟨ds, r', rfl, hds, hpds⟩ | ⟨ms, r', rfl, hms, hpms⟩
      · obtain ⟨c2, h2, -, hcomma⟩ := jsonParseMembers_comma strtod hkey rfl hden.ne_null hnear
        obtain ⟨c', hloop, hlost⟩ := members_on_elements strtod hds hpds h2.near n
        rw [hcomma, hloop]
        exact .inr (.inr ⟨ds, rfl, .cons ⟨hcstr, hden⟩ .nil, hlost⟩)
      · exact (members_surplus strtod hkey hden.ne_null hnear hms hpms hk (by
          have := hnear1.left_le
          obtain ⟨b, t, rfl, -⟩ := hv.head
          rw [length_cons] at this
          omega)).imp_right .inl
    · rcases or_assoc.mpr (value_astray (n := n + 1) hv hx hpd hk (.brace hw hf) hstep hnear1
        (by omega)) with hwrong | ⟨ds, rfl, hden, hlost⟩
      · exact (members_wrong strtod hkey hwrong).imp_right .inl
      · obtain ⟨c', hres, hlost'⟩ := members_lost strtod hkey rfl hden.ne_null hlost
        rw [hres]
        exact .inr (.inr ⟨ds, rfl, .cons ⟨hcstr, hden⟩ .nil, hlost'⟩)
  · by_cases hstep : InStep strtod d x k (w ++ comma :: t)
    · obtain ⟨rfl, hsync, hnest, hclear⟩ := hstep
      obtain ⟨hden, hnear⟩ := value_exact strtod (n := n + 1) hv hpd hnest hr hsync hclear hnear1
        (by omega)
      rw [eat_of_head (skip_ws_cons hw (by decide) t) (by decide)] at hnear
      obtain ⟨c2, h2, hlt, hcomma⟩ := jsonParseMembers_comma strtod hkey rfl hden.ne_null hnear
      have hrest := members_astray (n := n + 1) hs hxs hps hk hf (by
        rintro ⟨rfl, hsyncs, hnests, hclears⟩
        refine hno ⟨rfl, ?_, by rw [Doc.nestingMembers]; omega, ?_⟩
        · rw [Val.syncedMembers, hsync, hsyncs, hclear.shallow hw]
          simp
        · obtain ⟨⟨key', d'⟩, ms', rfl⟩ := exists_cons_of_ne_nil hs.ne_nil
          exact hclears) h2.near (by omega)
      rw [hcomma]
      refine hrest.imp_right fun h => h.imp (fun hne hall => ?_) fun ⟨ds, hds, hall, hlost⟩ => ?_
      · exact hne (List.forall₂_cons.mp hall).2
      · exact ⟨ds, hds, .cons ⟨hcstr, hden⟩ hall, hlost⟩
    · rcases or_assoc.mpr (value_astray (n := n + 1) hv hx hpd hk (.member hw hs hps) hstep hnear1
        (by omega)) with hwrong | ⟨_, hf', -⟩
      · exact (members_wrong strtod hkey hwrong).imp_right .inl
      · cases hf'
termination_by n
decreasing_by all_goals omega

end

end

end Cobalt.Json
