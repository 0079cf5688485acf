/-
Cobalt.Json.SaxAccepts — the texts the streaming parser accepts.

The other direction of `parsersSound`, for a handler that never aborts: the
parser takes every text of the grammar that fits its limits, and every
truncated one. One lemma for each way a loop turns or a container opens,
given what the call below it takes; the two recursions over the grammar,
and those over the cut lists, are then read off.
-/
import Cobalt.Json.SaxRun

namespace Cobalt.Json.Sax

open SaxParser List

variable {D : Type} {handler : Handler D} {strtod : List UInt8 → D}

/-- The call succeeds, leaves `r` and tells the handler of `es`. -/
def Takes (handler : Handler D) (o : Out D) (p : SaxParser D) (r : List UInt8)
    (es : List (Event D)) : Prop :=
  ∃ p' l, o = (true, p') ∧ p'.rest = r ∧ Reads p l (handler.hears es) p'

variable {l : List UInt8}

namespace Takes

variable {o : Out D} {p : SaxParser D} {r r' : List UInt8} {es es' : List (Event D)}

lemma of_reads {p' : SaxParser D} (ho : o = (true, p')) (h : Reads p l (handler.hears es) p')
    (hr : p.rest = l ++ r) : Takes handler o p r es := ⟨p', l, ho, h.rest_eq hr, h⟩

/-- The call is made after bytes that tell the handler nothing. -/
lemma before {p0 : SaxParser D} (h0 : Reads p0 l [] p) (h : Takes handler o p r es) :
    Takes handler o p0 r es := by
  obtain ⟨p', l', ho, hr, h⟩ := h
  exact ⟨p', l ++ l', ho, hr, h0.trans h⟩

lemma of_skip (h : Takes handler o (skipWhitespace p) r es) : Takes handler o p r es := by
  obtain ⟨w, -, h0, -⟩ := reads_skip p
  exact h.before h0

lemma andThen {f : SaxParser D → Out D} (h : Takes handler o p r es)
    (hf : ∀ p', p'.rest = r → p'.depth = p.depth → p'.rest.length ≤ p.rest.length →
      Takes handler (f p') p' r' es') : Takes handler (o.andThen f) p r' (es ++ es') := by
  obtain ⟨p', l, rfl, hr, h⟩ := h
  have hlen := h.length_rest
  obtain ⟨p'', l', ho, hr', h'⟩ := hf p' hr h.depth (by omega)
  exact ⟨p'', l ++ l', ho, hr', hears_append es es' ▸ h.trans h'⟩

end Takes

variable {p : SaxParser D} {n : Nat} {w s t r : List UInt8} {es es' : List (Event D)}

lemma rest_skip (p : SaxParser D) : (skipWhitespace p).rest = skip p.rest := by
  obtain ⟨-, -, -, h⟩ := reads_skip p
  exact h

variable {b : UInt8}

/-- White space and the byte the loops look for after it. -/
lemma sees_skip (hw : Ws w) (hb : isWs b = false) (hrest : p.rest = w ++ b :: t) :
    (skipWhitespace p).rest = b :: t := by
  rw [rest_skip, hrest, skip_append hw, skip_cons_of_not hb]

lemma sees_of_rest {c : UInt8} (hrest : p.rest = b :: t) : p.sees c = (b == c) := by
  rw [sees_eq, hrest]
  rfl

lemma takes_advance (hrest : p.rest = b :: t) : Takes handler (true, p.advance 1) p t [] :=
  .of_reads (l := [b]) rfl (.advance hrest rfl) hrest

/-! ## The loops -/

lemma elements_end (hrest : p.rest = []) (hn : 0 < n) :
    Takes handler (parseElements handler strtod n p) p [] [] := by
  obtain ⟨n, rfl⟩ := Nat.exists_eq_add_one.mpr hn
  rw [parseElements, if_neg (Nat.not_lt.mpr (rest_eq_nil_iff.mp hrest))]
  exact .of_reads rfl (.refl p) hrest

lemma members_end (hrest : p.rest = []) (hn : 0 < n) :
    Takes handler (parseMembers handler strtod n p) p [] [] := by
  obtain ⟨n, rfl⟩ := Nat.exists_eq_add_one.mpr hn
  rw [parseMembers, if_neg (Nat.not_lt.mpr (rest_eq_nil_iff.mp hrest))]
  exact .of_reads rfl (.refl p) hrest

lemma elements_last (hp : p.pos < p.len) (hw : Ws w)
    (hvalue : Takes handler (parseValue handler strtod n (skipWhitespace p)) (skipWhitespace p)
      (w ++ rbracket :: r) es) : Takes handler (parseElements handler strtod (n + 1) p) p r es := by
  rw [parseElements, if_pos hp]
  apply Takes.of_skip
  rw [← append_nil es]
  apply hvalue.andThen
  intro p1 hr1 _ _
  have hr2 := sees_skip hw (by decide) hr1
  apply Takes.of_skip
  dsimp only
  rw [sees_of_rest hr2, sees_of_rest hr2]
  exact takes_advance hr2

lemma elements_comma (hp : p.pos < p.len) (hw : Ws w)
    (hvalue : Takes handler (parseValue handler strtod n (skipWhitespace p)) (skipWhitespace p)
      (w ++ comma :: t) es)
    (hloop : ∀ p', p'.rest = t → p'.depth = p.depth → p'.rest.length < p.rest.length →
      Takes handler (parseElements handler strtod n p') p' r es') :
    Takes handler (parseElements handler strtod (n + 1) p) p r (es ++ es') := by
  rw [parseElements, if_pos hp]
  apply Takes.of_skip
  apply hvalue.andThen
  intro p1 hr1 hk1 hle1
  have hskip := left_skip_le p
  have hr2 := sees_skip hw (by decide) hr1
  have h3 : Reads (skipWhitespace p1) [comma] [] ((skipWhitespace p1).advance 1) := .advance hr2 rfl
  have hr3 : ((skipWhitespace p1).advance 1).rest = t := h3.rest_eq hr2
  apply Takes.of_skip
  dsimp only
  rw [sees_of_rest hr2]
  apply Takes.before h3
  apply hloop _ hr3
  · rw [h3.depth, depth_skip, hk1, depth_skip]
  · rw [hr3]
    rw [hr1, length_append, length_cons] at hle1
    omega

lemma parseKey_complete (ha : handler.Accepts) {k : List StrChar} (hv : ValidChars k)
    (hb : noBrokenPair k = true) (hw : Ws w)
    (hrest : skip p.rest = stringText k ++ (w ++ colon :: t)) :
    Takes handler (parseKey handler p) p t [.key (decode k)] := by
  apply Takes.of_skip
  have hr1 := rest_skip p
  rw [hrest, stringText, cons_append, append_assoc] at hr1
  rw [parseKey]
  generalize skipWhitespace p = p1 at hr1
  obtain ⟨p2, hstring, h2⟩ := parseString_complete ha true (.closed _) (by simp) hv hb hr1
  have htake : Takes handler (parseString handler true p1) p1 (w ++ colon :: t)
      [.key (decode k)] := .of_reads hstring h2 (by simpa using hr1)
  rw [if_neg (by simp [lt_of_rest hr1, load_of_rest hr1])]
  rw [← append_nil [Event.key (decode k)]]
  apply htake.andThen
  intro p3 hr3 _ _
  have hr4 := sees_skip hw (by decide) hr3
  apply Takes.of_skip
  dsimp only
  rw [if_neg (by simp [lt_of_rest hr4, load_of_rest hr4])]
  exact takes_advance hr4

lemma members_last (hp : p.pos < p.len) (hw : Ws w)
    (hkey : Takes handler (parseKey handler p) p s es)
    (hvalue : ∀ p', p'.rest = s → p'.depth = p.depth → p'.rest.length ≤ p.rest.length →
      Takes handler (parseValue handler strtod n (skipWhitespace p')) (skipWhitespace p')
        (w ++ rbrace :: r) es') :
    Takes handler (parseMembers handler strtod (n + 1) p) p r (es ++ es') := by
  rw [parseMembers, if_pos hp]
  apply hkey.andThen
  intro p0 hr0 hk0 hle0
  apply Takes.of_skip
  rw [← append_nil es']
  apply (hvalue p0 hr0 hk0 hle0).andThen
  intro p1 hr1 _ _
  have hr2 := sees_skip hw (by decide) hr1
  apply Takes.of_skip
  dsimp only
  rw [sees_of_rest hr2, sees_of_rest hr2]
  exact takes_advance hr2

lemma members_comma {es'' : List (Event D)} (hp : p.pos < p.len) (hw : Ws w)
    (hkey : Takes handler (parseKey handler p) p s es)
    (hvalue : ∀ p', p'.rest = s → p'.depth = p.depth → p'.rest.length ≤ p.rest.length →
      Takes handler (parseValue handler strtod n (skipWhitespace p')) (skipWhitespace p')
        (w ++ comma :: t) es')
    (hloop : ∀ p', p'.rest = t → p'.depth = p.depth → p'.rest.length < p.rest.length →
      Takes handler (parseMembers handler strtod n p') p' r es'') :
    Takes handler (parseMembers handler strtod (n + 1) p) p r (es ++ (es' ++ es'')) := by
  rw [parseMembers, if_pos hp]
  apply hkey.andThen
  intro p0 hr0 hk0 hle0
  apply Takes.of_skip
  apply (hvalue p0 hr0 hk0 hle0).andThen
  intro p1 hr1 hk1 hle1
  have hskip := left_skip_le p0
  have hr2 := sees_skip hw (by decide) hr1
  have h3 : Reads (skipWhitespace p1) [comma] [] ((skipWhitespace p1).advance 1) := .advance hr2 rfl
  have hr3 : ((skipWhitespace p1).advance 1).rest = t := h3.rest_eq hr2
  apply Takes.of_skip
  dsimp only
  rw [sees_of_rest hr2]
  apply Takes.before h3
  apply hloop _ hr3
  · rw [h3.depth, depth_skip, hk1, depth_skip, hk0]
  · rw [hr3]
    rw [hr1, length_append, length_cons] at hle1
    omega

/-! ## The containers -/

/-- The bracket that opens a container, its callback, and the white space
after it. -/
lemma open_complete (ha : handler.Accepts) {body : SaxParser D → Out D} {e f : Event D}
    (hrest : p.rest = b :: s)
    (hbody : ∀ p1, (skipWhitespace p1).rest = skip s → (skipWhitespace p1).depth = p.depth + 1 →
      (skipWhitespace p1).rest.length < p.rest.length →
      ∃ q l msg, body p1 = { q with depth := q.depth - 1 }.emit (handler.callback f) f msg ∧
        q.rest = r ∧ Reads (skipWhitespace p1) l (handler.hears es) q) (msg : String) :
    Takes handler (({ p.advance 1 with depth := p.depth + 1 }.emit (handler.callback e) e
      msg).andThen body) p r (e :: (es ++ [f])) := by
  obtain ⟨p1, hemit, -⟩ := emit_complete (p := { p.advance 1 with depth := p.depth + 1 }) ha e msg
  have h1 := reads_open hrest hemit
  have hr1 : p1.rest = s := h1.rest_eq hrest
  obtain ⟨w, -, h2, hr2⟩ := reads_skip p1
  have h3 := h1.trans h2
  rw [hr1] at hr2
  have hlt : (skipWhitespace p1).rest.length < p.rest.length := by
    have hle := left_skip_le p1
    rw [hr1] at hle
    rw [hrest, length_cons]
    omega
  obtain ⟨q, l, msg', hbody, hq, h4⟩ := hbody _ hr2 h3.depth hlt
  obtain ⟨p', hemit', h5⟩ := emit_complete (p := { q with depth := q.depth - 1 }) ha f msg'
  refine ⟨p', _, ?_, (h5.rest.symm.trans hq : _), ((h3.trans h4).nest h5).events_eq ?_⟩
  · rw [hemit]
    exact hbody.trans hemit'
  · simp [← hears_append]

lemma array_empty (ha : handler.Accepts) (hk : p.depth < maxDepth) (hw : Ws w)
    (hrest : p.rest = lbracket :: (w ++ rbracket :: r)) :
    Takes handler (parseArray handler strtod (n + 1) p) p r
      (.startArray :: ([] ++ [.endArray])) := by
  rw [parseArray, if_neg (Nat.not_le.mpr hk)]
  refine open_complete (e := .startArray) (f := .endArray) ha hrest ?_ _
  intro p1 hr2 _ _
  rw [skip_append hw, skip_cons_of_not (by decide)] at hr2
  have h3 : Reads (skipWhitespace p1) [rbracket] [] ((skipWhitespace p1).advance 1) :=
    .advance hr2 rfl
  refine ⟨_, _, "User aborted in on_end_array", ?_, h3.rest_eq hr2, h3⟩
  dsimp only
  rw [sees_of_rest hr2]
  rfl

lemma array_elements (ha : handler.Accepts) (hk : p.depth < maxDepth)
    (hrest : p.rest = lbracket :: s) (hhead : (skip s).head? ≠ some rbracket)
    (hloop : ∀ p', p'.rest = skip s → p'.depth = p.depth + 1 → p'.rest.length < p.rest.length →
      Takes handler (parseElements handler strtod n p') p' r es) :
    Takes handler (parseArray handler strtod (n + 1) p) p r
      (.startArray :: (es ++ [.endArray])) := by
  rw [parseArray, if_neg (Nat.not_le.mpr hk)]
  refine open_complete (e := .startArray) (f := .endArray) ha hrest ?_ _
  intro p1 hr2 hk2 hlt2
  obtain ⟨q, l, hq, hr, h⟩ := hloop _ hr2 hk2 hlt2
  refine ⟨q, l, "User aborted in on_end_array", ?_, hr, h⟩
  dsimp only
  rw [sees_eq, hr2, if_neg (by simpa using hhead), hq]
  rfl

lemma object_empty (ha : handler.Accepts) (hk : p.depth < maxDepth) (hw : Ws w)
    (hrest : p.rest = lbrace :: (w ++ rbrace :: r)) :
    Takes handler (parseObject handler strtod (n + 1) p) p r
      (.startObject :: ([] ++ [.endObject])) := by
  rw [parseObject, if_neg (Nat.not_le.mpr hk)]
  refine open_complete (e := .startObject) (f := .endObject) ha hrest ?_ _
  intro p1 hr2 _ _
  rw [skip_append hw, skip_cons_of_not (by decide)] at hr2
  have h3 : Reads (skipWhitespace p1) [rbrace] [] ((skipWhitespace p1).advance 1) :=
    .advance hr2 rfl
  refine ⟨_, _, "User aborted in on_end_object", ?_, h3.rest_eq hr2, h3⟩
  dsimp only
  rw [sees_of_rest hr2]
  rfl

lemma object_members (ha : handler.Accepts) (hk : p.depth < maxDepth)
    (hrest : p.rest = lbrace :: s) (hhead : (skip s).head? ≠ some rbrace)
    (hloop : ∀ p', p'.rest = skip s → p'.depth = p.depth + 1 → p'.rest.length < p.rest.length →
      Takes handler (parseMembers handler strtod n p') p' r es) :
    Takes handler (parseObject handler strtod (n + 1) p) p r
      (.startObject :: (es ++ [.endObject])) := by
  rw [parseObject, if_neg (Nat.not_le.mpr hk)]
  refine open_complete (e := .startObject) (f := .endObject) ha hrest ?_ _
  intro p1 hr2 hk2 hlt2
  obtain ⟨q, l, hq, hr, h⟩ := hloop _ hr2 hk2 hlt2
  refine ⟨q, l, "User aborted in on_end_object", ?_, hr, h⟩
  dsimp only
  rw [sees_eq, hr2, if_neg (by simpa using hhead), hq]
  rfl

/-! ## A value -/

lemma parseValue_cons (hrest : skip p.rest = b :: s) :
    parseValue handler strtod (n + 1) p =
      if b == lbrace then parseObject handler strtod n (skipWhitespace p)
      else if b == lbracket then parseArray handler strtod n (skipWhitespace p)
      else if b == quote then parseString handler false (skipWhitespace p)
      else if b == 0x2D || isDigit b then parseNumber handler strtod (skipWhitespace p)
      else parseWord handler (skipWhitespace p) := by
  have hskip := (rest_skip p).trans hrest
  rw [parseValue]
  dsimp only
  rw [if_neg (Nat.not_le.mpr (lt_of_rest hskip)), load_of_rest hskip]

lemma parseValue_bracket (hrest : skip p.rest = lbracket :: s) :
    parseValue handler strtod (n + 1) p = parseArray handler strtod n (skipWhitespace p) :=
  parseValue_cons hrest

lemma parseValue_brace (hrest : skip p.rest = lbrace :: s) :
    parseValue handler strtod (n + 1) p = parseObject handler strtod n (skipWhitespace p) :=
  parseValue_cons hrest

lemma value_word (ha : handler.Accepts) {word : List UInt8} {e : Event D}
    (hword : (word = trueText ∧ e = .bool true) ∨ (word = falseText ∧ e = .bool false) ∨
      (word = nullText ∧ e = .null)) (hrest : skip p.rest = word ++ r) :
    Takes handler (parseValue handler strtod (n + 1) p) p r [e] := by
  obtain ⟨p', hparse, h⟩ := parseWord_complete (p := skipWhitespace p) ha hword
    ((rest_skip p).trans hrest)
  have htake : Takes handler (parseWord handler (skipWhitespace p)) (skipWhitespace p) r [e] :=
    .of_reads hparse h ((rest_skip p).trans hrest)
  have hvalue : parseValue handler strtod (n + 1) p = parseWord handler (skipWhitespace p) := by
    rcases hword with ⟨rfl, -⟩ | ⟨rfl, -⟩ | ⟨rfl, -⟩ <;> exact parseValue_cons hrest
  exact hvalue ▸ htake.of_skip

lemma value_number (ha : handler.Accepts) (hl : Number l) (hr : NumberEnd r)
    (hrest : skip p.rest = l ++ r) :
    Takes handler (parseValue handler strtod (n + 1) p) p r [.number (strtod l) l] := by
  have hr1 := (rest_skip p).trans hrest
  obtain ⟨p', hparse, h⟩ := parseNumber_complete strtod ha hl hr hr1
  obtain ⟨b, t, rfl, hb⟩ := hl.head
  obtain ⟨-, h1, h2, h3, -⟩ := isDigit_ne hb
  rw [parseValue_cons (s := t ++ r) hrest, if_neg (by simpa using h1), if_neg (by simpa using h2),
    if_neg (by simpa using h3), if_pos (by simpa using hb)]
  exact Takes.of_skip (.of_reads hparse h hr1)

lemma value_string (ha : handler.Accepts) {cs : List StrChar} (ht : Tail t)
    (hq : t = [] → endsInQuote cs) (hv : ValidChars cs) (hb : noBrokenPair cs = true)
    (hrest : skip p.rest = quote :: (charsText cs ++ t)) :
    Takes handler (parseValue handler strtod (n + 1) p) p t.tail [.string (decode cs)] := by
  have hr := (rest_skip p).trans hrest
  obtain ⟨p', hparse, h⟩ := parseString_complete ha false ht hq hv hb hr
  rw [parseValue_cons hrest]
  refine Takes.of_skip (.of_reads hparse h ?_)
  rw [hr]
  cases ht <;> simp

/-! ## Texts of the grammar -/

variable {k : Nat} {ds : List Doc} {ms : List (List StrChar × Doc)}

lemma fits_array : Fits k (.array ds) ↔ k < maxDepth ∧ FitsElems (k + 1) ds := by
  rw [Fits, FitsElems, Doc.nesting, Doc.allStrings]
  constructor
  · rintro ⟨hk, hs⟩
    exact ⟨by omega, by omega, hs⟩
  · rintro ⟨-, hk, hs⟩
    exact ⟨by omega, hs⟩

lemma fits_object : Fits k (.object ms) ↔ k < maxDepth ∧ FitsMembers (k + 1) ms := by
  rw [Fits, FitsMembers, Doc.nesting, Doc.allStrings]
  constructor
  · rintro ⟨hk, hs⟩
    exact ⟨by omega, by omega, hs⟩
  · rintro ⟨-, hk, hs⟩
    exact ⟨by omega, hs⟩

lemma lt_of_skip (h : skip p.rest = b :: t) : p.pos < p.len := by
  cases hrest : p.rest with
  | nil => rw [hrest] at h; cases h
  | cons x s => exact lt_of_rest hrest

mutual

lemma value_complete (ha : handler.Accepts) {s r : List UInt8} {d : Doc} {p : SaxParser D}
    {n : Nat} (h : Value s d r) (hrest : skip p.rest = s) (hr : Delim r) (hf : Fits p.depth d)
    (hn : 3 * p.rest.length + 3 ≤ n) :
    Takes handler (parseValue handler strtod n p) p r (d.events strtod) := by
  obtain ⟨n, rfl⟩ : ∃ m, n = m + 2 := ⟨n - 2, by omega⟩
  have hk := depth_skip p
  have hle := left_skip_le p
  cases h with
  | null => exact value_word ha (.inr (.inr ⟨rfl, rfl⟩)) hrest
  | true => exact value_word ha (.inl ⟨rfl, rfl⟩) hrest
  | false => exact value_word ha (.inr (.inl ⟨rfl, rfl⟩)) hrest
  | number r hl => exact value_number ha hl hr.numberEnd hrest
  | string r hv =>
    rw [stringText, cons_append, append_assoc] at hrest
    exact value_string ha (.closed r) (by simp) hv hf.2 hrest
  | emptyArray r hw =>
    rw [parseValue_bracket hrest]
    exact Takes.of_skip (array_empty ha (hk ▸ (fits_array.mp hf).1) hw ((rest_skip p).trans hrest))
  | emptyObject r hw =>
    rw [parseValue_brace hrest]
    exact Takes.of_skip
      (object_empty ha (hk ▸ (fits_object.mp hf).1) hw ((rest_skip p).trans hrest))
  | array hs =>
    obtain ⟨hlt, hfs⟩ := fits_array.mp hf
    rw [parseValue_bracket hrest]
    apply Takes.of_skip
    refine array_elements ha (hk ▸ hlt) ((rest_skip p).trans hrest) hs.head ?_
    intro p' hr' hk' hlt'
    exact elements_complete ha hs (by rw [hr', skip_skip]) (by rwa [hk', hk]) (by omega)
  | object hs =>
    obtain ⟨hlt, hfs⟩ := fits_object.mp hf
    rw [parseValue_brace hrest]
    apply Takes.of_skip
    refine object_members ha (hk ▸ hlt) ((rest_skip p).trans hrest) (by rw [hs.head]; decide) ?_
    intro p' hr' hk' hlt'
    exact members_complete ha hs (by rw [hr', skip_skip]) (by rwa [hk', hk]) (by omega)

lemma elements_complete (ha : handler.Accepts) {s r : List UInt8} {ds : List Doc}
    {p : SaxParser D} {n : Nat} (h : Elements s ds r) (hrest : skip p.rest = skip s)
    (hf : FitsElems p.depth ds) (hn : 3 * p.rest.length + 4 ≤ n) :
    Takes handler (parseElements handler strtod n p) p r (Doc.eventsElems strtod ds) := by
  obtain ⟨n, rfl⟩ : ∃ m, n = m + 1 := ⟨n - 1, by omega⟩
  have hle := left_skip_le p
  cases h with
  | @last w w' s r d hw hw' hv =>
    obtain ⟨hfd, -⟩ := fitsElems_cons.mp hf
    rw [skip_append hw, hv.skip_eq] at hrest
    obtain ⟨b, t, hb, -⟩ := hv.head
    rw [show Doc.eventsElems strtod [d] = d.events strtod from append_nil _]
    refine elements_last (lt_of_skip (hrest.trans hb)) hw' ?_
    exact value_complete ha hv (by rw [rest_skip, skip_skip, hrest])
      (delim_ws_cons hw' (.inr (.inl rfl)) _) (by rwa [depth_skip]) (by omega)
  | @cons w w' s s' r d ds hw hw' hv hs =>
    obtain ⟨hfd, hfs⟩ := fitsElems_cons.mp hf
    rw [skip_append hw, hv.skip_eq] at hrest
    obtain ⟨b, t, hb, -⟩ := hv.head
    refine elements_comma (t := s') (lt_of_skip (hrest.trans hb)) hw' ?_ ?_
    · exact value_complete ha hv (by rw [rest_skip, skip_skip, hrest])
        (delim_ws_cons hw' (.inl rfl) _) (by rwa [depth_skip]) (by omega)
    · intro p' hr' hk' hlt'
      exact elements_complete ha hs (by rw [hr']) (by rwa [hk']) (by omega)

lemma members_complete (ha : handler.Accepts) {s r : List UInt8} {ms : List (List StrChar × Doc)}
    {p : SaxParser D} {n : Nat} (h : Members s ms r) (hrest : skip p.rest = skip s)
    (hf : FitsMembers p.depth ms) (hn : 3 * p.rest.length + 4 ≤ n) :
    Takes handler (parseMembers handler strtod n p) p r (Doc.eventsMembers strtod ms) := by
  obtain ⟨n, rfl⟩ : ∃ m, n = m + 1 := ⟨n - 1, by omega⟩
  cases h with
  | @last w wk wc w' s r k d hw hkv hwk hwc hw' hv =>
    obtain ⟨hkb, hfd, -⟩ := fitsMembers_cons.mp hf
    rw [skip_append hw, skip_stringText] at hrest
    rw [show Doc.eventsMembers strtod [(k, d)] = [.key (decode k)] ++ d.events strtod by
      simp [Doc.eventsMembers]]
    refine members_last (lt_of_skip hrest) hw' (parseKey_complete ha hkv hkb hwk hrest) ?_
    intro p' hr' hk' hle'
    have hle := left_skip_le p'
    exact value_complete ha hv (by rw [rest_skip, skip_skip, hr', skip_append hwc, hv.skip_eq])
      (delim_ws_cons hw' (.inr (.inr rfl)) _) (by rwa [depth_skip, hk']) (by omega)
  | @cons w wk wc w' s s' r k d ms hw hkv hwk hwc hw' hv hs =>
    obtain ⟨hkb, hfd, hfs⟩ := fitsMembers_cons.mp hf
    rw [skip_append hw, skip_stringText] at hrest
    refine members_comma (t := s') (lt_of_skip hrest) hw' (parseKey_complete ha hkv hkb hwk hrest) ?_ ?_
    · intro p' hr' hk' hle'
      have hle := left_skip_le p'
      exact value_complete ha hv (by rw [rest_skip, skip_skip, hr', skip_append hwc, hv.skip_eq])
        (delim_ws_cons hw' (.inl rfl) _) (by rwa [depth_skip, hk']) (by omega)
    · intro p' hr' hk' hlt'
      exact members_complete ha hs (by rw [hr']) (by rwa [hk']) (by omega)

end

/-! ## Truncated texts -/

lemma elementsCut_complete (ha : handler.Accepts) (h : ElementsCut s ds)
    (hrest : skip p.rest = skip s) (hf : FitsElems p.depth ds) (hn : 3 * p.rest.length + 4 ≤ n) :
    Takes handler (parseElements handler strtod n p) p [] (Doc.eventsElems strtod ds) := by
  induction h generalizing p n with
  | @last w w' s d hw hw' hv =>
    obtain ⟨n, rfl⟩ : ∃ m, n = m + 1 := ⟨n - 1, by omega⟩
    have hle := left_skip_le p
    obtain ⟨hfd, -⟩ := fitsElems_cons.mp hf
    rw [skip_append hw, hv.skip_eq] at hrest
    obtain ⟨b, t, hb, -⟩ := hv.head
    refine elements_comma (t := []) (lt_of_skip (hrest.trans hb)) hw' ?_ ?_
    · exact value_complete ha hv (by rw [rest_skip, skip_skip, hrest])
        (delim_ws_cons hw' (.inl rfl) _) (by rwa [depth_skip]) (by omega)
    · intro p' hr' _ hlt'
      exact elements_end hr' (by omega)
  | @cons w w' s s' d ds hw hw' hv _ ih =>
    obtain ⟨n, rfl⟩ : ∃ m, n = m + 1 := ⟨n - 1, by omega⟩
    have hle := left_skip_le p
    obtain ⟨hfd, hfs⟩ := fitsElems_cons.mp hf
    rw [skip_append hw, hv.skip_eq] at hrest
    obtain ⟨b, t, hb, -⟩ := hv.head
    refine elements_comma (t := s') (lt_of_skip (hrest.trans hb)) hw' ?_ ?_
    · exact value_complete ha hv (by rw [rest_skip, skip_skip, hrest])
        (delim_ws_cons hw' (.inl rfl) _) (by rwa [depth_skip]) (by omega)
    · intro p' hr' hk' hlt'
      exact ih (by rw [hr']) (by rwa [hk']) (by omega)

lemma membersCut_complete (ha : handler.Accepts) (h : MembersCut s ms)
    (hrest : skip p.rest = skip s) (hf : FitsMembers p.depth ms) (hn : 3 * p.rest.length + 4 ≤ n) :
    Takes handler (parseMembers handler strtod n p) p [] (Doc.eventsMembers strtod ms) := by
  induction h generalizing p n with
  | @last w wk wc w' s k d hw hkv hwk hwc hw' hv =>
    obtain ⟨n, rfl⟩ : ∃ m, n = m + 1 := ⟨n - 1, by omega⟩
    obtain ⟨hkb, hfd, -⟩ := fitsMembers_cons.mp hf
    rw [skip_append hw, skip_stringText] at hrest
    refine members_comma (t := []) (lt_of_skip hrest) hw'
      (parseKey_complete ha hkv hkb hwk hrest) ?_ ?_
    · intro p' hr' hk' hle'
      have hle := left_skip_le p'
      exact value_complete ha hv (by rw [rest_skip, skip_skip, hr', skip_append hwc, hv.skip_eq])
        (delim_ws_cons hw' (.inl rfl) _) (by rwa [depth_skip, hk']) (by omega)
    · intro p' hr' _ hlt'
      exact members_end hr' (by omega)
  | @cons w wk wc w' s s' k d ms hw hkv hwk hwc hw' hv _ ih =>
    obtain ⟨n, rfl⟩ : ∃ m, n = m + 1 := ⟨n - 1, by omega⟩
    obtain ⟨hkb, hfd, hfs⟩ := fitsMembers_cons.mp hf
    rw [skip_append hw, skip_stringText] at hrest
    refine members_comma (t := s') (lt_of_skip hrest) hw'
      (parseKey_complete ha hkv hkb hwk hrest) ?_ ?_
    · intro p' hr' hk' hle'
      have hle := left_skip_le p'
      exact value_complete ha hv (by rw [rest_skip, skip_skip, hr', skip_append hwc, hv.skip_eq])
        (delim_ws_cons hw' (.inl rfl) _) (by rwa [depth_skip, hk']) (by omega)
    · intro p' hr' hk' hlt'
      exact ih (by rw [hr']) (by rwa [hk']) (by omega)

lemma ElementsCut.head (h : ElementsCut s ds) : (skip s).head? ≠ some rbracket := by
  cases h with
  | last hw _ hv | cons hw _ hv =>
    rw [skip_append hw, hv.skip_eq]
    obtain ⟨b, t, rfl, -, -, -, -, hb⟩ := hv.head
    simpa using hb

lemma MembersCut.head (h : MembersCut s ms) : (skip s).head? = some quote := by
  cases h with
  | last hw | cons hw => rw [skip_append hw]; rfl

/-- Every truncated text is taken to its end. -/
lemma truncated_complete (ha : handler.Accepts)
    (h : Truncated p.depth s) (hrest : skip p.rest = s) (hn : 3 * p.rest.length + 3 ≤ n) :
    ∃ es, Takes handler (parseValue handler strtod n p) p [] es := by
  obtain ⟨n, rfl⟩ : ∃ m, n = m + 2 := ⟨n - 2, by omega⟩
  have hk := depth_skip p
  have hle := left_skip_le p
  have hr := (rest_skip p).trans hrest
  cases h with
  | string hv hb hq =>
    rw [← append_nil (charsText _)] at hrest
    exact ⟨_, value_string ha .cut (fun _ => hq) hv hb hrest⟩
  | bracket hlt hw =>
    rw [parseValue_bracket hrest]
    refine ⟨.startArray :: ([] ++ [.endArray]),
      Takes.of_skip (array_elements ha (hk ▸ hlt) hr (by simp [skip_ws hw]) ?_)⟩
    intro p' hr' _ _
    exact elements_end (hr'.trans (skip_ws hw)) (by omega)
  | @elements s ds hc hf =>
    rw [parseValue_bracket hrest]
    have hlt : p.depth < maxDepth := lt_of_lt_of_le (Nat.lt_succ_self _)
      (Nat.le_of_add_right_le hf.1)
    refine ⟨.startArray :: (Doc.eventsElems strtod ds ++ [.endArray]),
      Takes.of_skip (array_elements ha (hk ▸ hlt) hr hc.head ?_)⟩
    intro p' hr' hk' hlt'
    exact elementsCut_complete ha hc (by rw [hr', skip_skip]) (by rwa [hk', hk]) (by omega)
  | brace hlt hw =>
    rw [parseValue_brace hrest]
    refine ⟨.startObject :: ([] ++ [.endObject]),
      Takes.of_skip (object_members ha (hk ▸ hlt) hr (by simp [skip_ws hw]) ?_)⟩
    intro p' hr' _ _
    exact members_end (hr'.trans (skip_ws hw)) (by omega)
  | @members s ms hc hf =>
    rw [parseValue_brace hrest]
    have hlt : p.depth < maxDepth := lt_of_lt_of_le (Nat.lt_succ_self _)
      (Nat.le_of_add_right_le hf.1)
    refine ⟨.startObject :: (Doc.eventsMembers strtod ms ++ [.endObject]),
      Takes.of_skip (object_members ha (hk ▸ hlt) hr (by rw [hc.head]; decide) ?_)⟩
    intro p' hr' hk' hlt'
    exact membersCut_complete ha hc (by rw [hr', skip_skip]) (by rwa [hk', hk]) (by omega)

end Cobalt.Json.Sax
