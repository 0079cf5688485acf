/-
Cobalt.Json.SaxValues — what the streaming parser accepts.

`Truncated` lists the inputs that are no JSON text and that the parser
takes for one: a container at the outermost level that the input ends in,
right after its opening bracket or right after a comma, and a string that
the input ends in, right after an escaped quote or its opening one. Below
the outermost level the enclosing loop looks for a comma or a bracket and
finds none.

`parsersSound` goes over the recursive functions at one fuel: when one of
them succeeds, it has read a text of the grammar and told the handler of
its events, or it has stopped at the end of a truncated one.
-/
import Cobalt.Json.SaxScalars

namespace Cobalt.Json

open List

/-! ## Events of a text -/

namespace Doc

variable {D : Type} (strtod : List UInt8 → D)

mutual

/-- The events of a parse tree in pre-order. -/
def events : Doc → List (Sax.Event D)
  | .null => [.null]
  | .true => [.bool Bool.true]
  | .false => [.bool Bool.false]
  | .number l => [.number (strtod l) l]
  | .string cs => [.string (decode cs)]
  | .array ds => .startArray :: (eventsElems ds ++ [.endArray])
  | .object ms => .startObject :: (eventsMembers ms ++ [.endObject])

def eventsElems : List Doc → List (Sax.Event D)
  | [] => []
  | d :: ds => events d ++ eventsElems ds

def eventsMembers : List (List StrChar × Doc) → List (Sax.Event D)
  | [] => []
  | (k, d) :: ms => .key (decode k) :: (events d ++ eventsMembers ms)

end

end Doc

namespace Sax

/-! ## Truncated texts -/

/-- Under `k` open containers the text stays within the nesting limit, and
no string of it has a high surrogate before another `\u` escape. -/
def Fits (k : Nat) (d : Doc) : Prop := k + d.nesting ≤ maxDepth ∧ d.allStrings noBrokenPair = true

def FitsElems (k : Nat) (ds : List Doc) : Prop :=
  k + Doc.nestingElems ds ≤ maxDepth ∧ Doc.allStringsElems noBrokenPair ds = true

def FitsMembers (k : Nat) (ms : List (List StrChar × Doc)) : Prop :=
  k + Doc.nestingMembers ms ≤ maxDepth ∧ Doc.allStringsMembers noBrokenPair ms = true

/-- Elements of an array up to the end of the input, with a comma last. -/
inductive ElementsCut : List UInt8 → List Doc → Prop where
  | last {w w' s : List UInt8} {d : Doc} (hw : Ws w) (hw' : Ws w')
      (h : Value s d (w' ++ [comma])) : ElementsCut (w ++ s) [d]
  | cons {w w' s s' : List UInt8} {d : Doc} {ds : List Doc} (hw : Ws w) (hw' : Ws w')
      (h : Value s d (w' ++ comma :: s')) (hs : ElementsCut s' ds) :
      ElementsCut (w ++ s) (d :: ds)

/-- Members of an object up to the end of the input, with a comma last. -/
inductive MembersCut : List UInt8 → List (List StrChar × Doc) → Prop where
  | last {w wk wc w' s : List UInt8} {k : List StrChar} {d : Doc}
      (hw : Ws w) (hk : ValidChars k) (hwk : Ws wk) (hwc : Ws wc) (hw' : Ws w')
      (h : Value s d (w' ++ [comma])) :
      MembersCut (w ++ (stringText k ++ (wk ++ colon :: (wc ++ s)))) [(k, d)]
  | cons {w wk wc w' s s' : List UInt8} {k : List StrChar} {d : Doc}
      {ms : List (List StrChar × Doc)}
      (hw : Ws w) (hk : ValidChars k) (hwk : Ws wk) (hwc : Ws wc) (hw' : Ws w')
      (h : Value s d (w' ++ comma :: s')) (hs : MembersCut s' ms) :
      MembersCut (w ++ (stringText k ++ (wk ++ colon :: (wc ++ s)))) ((k, d) :: ms)

/-- The input ends inside a value, under `k` open containers, at one of the
places where the parser does not notice. -/
inductive Truncated (k : Nat) : List UInt8 → Prop where
  | string {cs : List StrChar} (hv : ValidChars cs) (hb : noBrokenPair cs = true)
      (hq : endsInQuote cs) : Truncated k (quote :: charsText cs)
  | bracket {w : List UInt8} (hk : k < maxDepth) (hw : Ws w) : Truncated k (lbracket :: w)
  | elements {s : List UInt8} {ds : List Doc} (h : ElementsCut s ds)
      (hf : FitsElems (k + 1) ds) : Truncated k (lbracket :: s)
  | brace {w : List UInt8} (hk : k < maxDepth) (hw : Ws w) : Truncated k (lbrace :: w)
  | members {s : List UInt8} {ms : List (List StrChar × Doc)} (h : MembersCut s ms)
      (hf : FitsMembers (k + 1) ms) : Truncated k (lbrace :: s)

/-! ## What a successful call has read -/

open SaxParser

section Read

variable {D : Type} (handler : Handler D) (strtod : List UInt8 → D)

/-- A value has been read, white space before it included, or the input has
ended inside one. -/
inductive ValueRead (p p' : SaxParser D) : Prop where
  | whole {d : Doc} {l : List UInt8} (hv : Value (skip p.rest) d p'.rest) (hf : Fits p.depth d)
      (h : Reads p l (handler.hears (d.events strtod)) p')
  | cut {l : List UInt8} {es : List (Event D)} (hc : Truncated p.depth (skip p.rest))
      (hnil : p'.rest = []) (h : Reads p l es p')

/-- The rest of an array has been read, its closing bracket included, or the
input has ended at the start of an element. -/
inductive ElementsRead (p p' : SaxParser D) : Prop where
  | whole {ds : List Doc} {l : List UInt8} (hv : Elements p.rest ds p'.rest)
      (hf : FitsElems p.depth ds)
      (h : Reads p l (handler.hears (Doc.eventsElems strtod ds)) p')
  | cut {l : List UInt8} {es : List (Event D)}
      (hc : p.rest = [] ∨ ∃ ds, ElementsCut p.rest ds ∧ FitsElems p.depth ds)
      (hnil : p'.rest = []) (h : Reads p l es p')

inductive MembersRead (p p' : SaxParser D) : Prop where
  | whole {ms : List (List StrChar × Doc)} {l : List UInt8} (hv : Members p.rest ms p'.rest)
      (hf : FitsMembers p.depth ms)
      (h : Reads p l (handler.hears (Doc.eventsMembers strtod ms)) p')
  | cut {l : List UInt8} {es : List (Event D)}
      (hc : p.rest = [] ∨ ∃ ms, MembersCut p.rest ms ∧ FitsMembers p.depth ms)
      (hnil : p'.rest = []) (h : Reads p l es p')

end Read

variable {D : Type} {handler : Handler D} {strtod : List UInt8 → D} {p p' : SaxParser D}

lemma hears_append (es es' : List (Event D)) :
    handler.hears (es ++ es') = handler.hears es ++ handler.hears es' := filter_append ..

lemma Reads.events_eq {l : List UInt8} {es es' : List (Event D)} (h : Reads p l es p')
    (he : es = es') : Reads p l es' p' := he ▸ h

lemma skip_split (s : List UInt8) : ∃ w, Ws w ∧ s = w ++ skip s :=
  ⟨s.takeWhile isWs, fun _ hb => mem_takeWhile_imp hb, takeWhile_append_dropWhile.symm⟩

lemma ValueRead.skip (h : ValueRead handler strtod (skipWhitespace p) p') :
    ValueRead handler strtod p p' := by
  obtain ⟨w, -, hskip, hrest⟩ := reads_skip p
  cases h with
  | whole hv hf h =>
    rw [hrest, skip_skip] at hv
    rw [hskip.depth] at hf
    exact .whole hv hf (hskip.trans h)
  | cut hc hnil h =>
    rw [hrest, skip_skip, hskip.depth] at hc
    exact .cut hc hnil (hskip.trans h)

variable {k : Nat}

lemma fitsElems_cons {d : Doc} {ds : List Doc} :
    FitsElems k (d :: ds) ↔ Fits k d ∧ FitsElems k ds := by
  rw [FitsElems, Fits, FitsElems, Doc.nestingElems, Doc.allStringsElems, Bool.and_eq_true]
  constructor
  · rintro ⟨hn, hd, hds⟩
    exact ⟨⟨by omega, hd⟩, by omega, hds⟩
  · rintro ⟨⟨hn, hd⟩, hn', hds⟩
    exact ⟨by omega, hd, hds⟩

lemma fitsElems_nil (hk : k ≤ maxDepth) : FitsElems k [] := ⟨hk, rfl⟩


variable {ms : List (List StrChar × Doc)}

lemma fitsMembers_cons {key : List StrChar} {d : Doc} : FitsMembers k ((key, d) :: ms) ↔
      noBrokenPair key = true ∧ Fits k d ∧ FitsMembers k ms := by
  rw [FitsMembers, Fits, FitsMembers, Doc.nestingMembers, Doc.allStringsMembers,
    Bool.and_eq_true, Bool.and_eq_true]
  constructor
  · rintro ⟨hn, ⟨hk, hd⟩, hms⟩
    exact ⟨hk, ⟨by omega, hd⟩, by omega, hms⟩
  · rintro ⟨hk, ⟨hn, hd⟩, hn', hms⟩
    exact ⟨by omega, ⟨hk, hd⟩, hms⟩

lemma fitsMembers_nil (hk : k ≤ maxDepth) : FitsMembers k [] := ⟨hk, rfl⟩

lemma sees_skip_of_nil (h : p.rest = []) (b : UInt8) : (skipWhitespace p).sees b = false := by
  obtain ⟨-, -, -, hrest⟩ := reads_skip p
  rw [sees_eq, hrest, h]
  rfl

lemma depth_skip (p : SaxParser D) : (skipWhitespace p).depth = p.depth := by
  obtain ⟨_, _, h, _⟩ := reads_skip p
  exact h.depth

/-- Everything the recursive functions accept, at one fuel. -/
structure ParsersSound (handler : Handler D) (strtod : List UInt8 → D) (n : Nat) : Prop where
  object : ∀ {p p' : SaxParser D} {s : List UInt8}, p.rest = lbrace :: s →
    parseObject handler strtod n p = (true, p') → ValueRead handler strtod p p'
  members : ∀ {p p' : SaxParser D}, p.depth ≤ maxDepth →
    parseMembers handler strtod n p = (true, p') → MembersRead handler strtod p p'
  array : ∀ {p p' : SaxParser D} {s : List UInt8}, p.rest = lbracket :: s →
    parseArray handler strtod n p = (true, p') → ValueRead handler strtod p p'
  elements : ∀ {p p' : SaxParser D}, p.depth ≤ maxDepth →
    parseElements handler strtod n p = (true, p') → ElementsRead handler strtod p p'
  value : ∀ {p p' : SaxParser D}, p.depth ≤ maxDepth →
    parseValue handler strtod n p = (true, p') → ValueRead handler strtod p p'

lemma Reads.nest {q : SaxParser D} {l l' : List UInt8} {es es' : List (Event D)}
    (h : Reads { p with depth := p.depth + 1 } l es q)
    (h' : Reads { q with depth := q.depth - 1 } l' es' p') :
    Reads p (l ++ l') (es ++ es') p' where
  str := h'.str.trans h.str
  rest := by
    have h1 : p.rest = l ++ q.rest := h.rest
    have h2 : q.rest = l' ++ p'.rest := h'.rest
    rw [h1, h2, append_assoc]
  pos := by
    have h1 : q.pos = p.pos + l.length := h.pos
    have h2 : p'.pos = q.pos + l'.length := h'.pos
    rw [h2, h1, length_append, add_assoc]
  depth := by
    have h1 : q.depth = p.depth + 1 := h.depth
    have h2 : p'.depth = q.depth - 1 := h'.depth
    rw [h2, h1, Nat.add_sub_cancel]
  trace := by
    have h1 : q.trace = p.trace ++ es := h.trace
    have h2 : p'.trace = q.trace ++ es' := h'.trace
    rw [h2, h1, append_assoc]

variable {s w r : List UInt8}

lemma reads_open {b : UInt8} {e : Event D} {msg : String} (hrest : p.rest = b :: s)
    (h : { p.advance 1 with depth := p.depth + 1 }.emit (handler.callback e) e msg = (true, p')) :
    Reads { p with depth := p.depth + 1 } [b] (handler.hears [e]) p' := by
  have h1 : Reads { p with depth := p.depth + 1 } [b] []
      { p.advance 1 with depth := p.depth + 1 } := .advance hrest rfl
  exact h1.trans (emit_sound h)

lemma elements_ws {ds : List Doc} (hw : Ws w) (h : Elements s ds r) : Elements (w ++ s) ds r := by
  cases h with
  | last hw' hw'' hv => rw [← append_assoc]; exact .last (ws_append hw hw') hw'' hv
  | cons hw' hw'' hv hs => rw [← append_assoc]; exact .cons (ws_append hw hw') hw'' hv hs

lemma members_ws (hw : Ws w) (h : Members s ms r) : Members (w ++ s) ms r := by
  cases h with
  | last hw' hk hwk hwc hw'' hv =>
    rw [← append_assoc]
    exact .last (ws_append hw hw') hk hwk hwc hw'' hv
  | cons hw' hk hwk hwc hw'' hv hs =>
    rw [← append_assoc]
    exact .cons (ws_append hw hw') hk hwk hwc hw'' hv hs

lemma elementsCut_ws {ds : List Doc} (hw : Ws w) (h : ElementsCut s ds) :
    ElementsCut (w ++ s) ds := by
  cases h with
  | last hw' hw'' hv => rw [← append_assoc]; exact .last (ws_append hw hw') hw'' hv
  | cons hw' hw'' hv hs => rw [← append_assoc]; exact .cons (ws_append hw hw') hw'' hv hs

lemma membersCut_ws (hw : Ws w) (h : MembersCut s ms) : MembersCut (w ++ s) ms := by
  cases h with
  | last hw' hk hwk hwc hw'' hv =>
    rw [← append_assoc]
    exact .last (ws_append hw hw') hk hwk hwc hw'' hv
  | cons hw' hk hwk hwc hw'' hv hs =>
    rw [← append_assoc]
    exact .cons (ws_append hw hw') hk hwk hwc hw'' hv hs

lemma parseKey_sound (h : parseKey handler p = (true, p')) :
    ∃ w k wk, Ws w ∧ ValidChars k ∧ noBrokenPair k = true ∧ Ws wk ∧
      Reads p (w ++ (stringText k ++ (wk ++ [colon]))) (handler.hears [.key (decode k)]) p' := by
  obtain ⟨w, hw, h1, -⟩ := reads_skip p
  rw [parseKey] at h
  generalize skipWhitespace p = p1 at h h1
  split at h
  · cases h
  · obtain ⟨p2, hstring, h⟩ := andThen_eq_true h
    obtain ⟨wk, hwk, h3, -⟩ := reads_skip p2
    dsimp only at h
    generalize skipWhitespace p2 = p3 at h h3
    cases hr3 : p3.rest with
    | nil => rw [if_pos (by simp [rest_eq_nil_iff.mp hr3])] at h; cases h
    | cons b t =>
      cases parseString_sound hstring with
      | cut k _ _ _ hnil =>
        rw [h3.rest, hr3] at hnil
        simp at hnil
      | closed k hv hb h2 =>
        rw [load_of_rest hr3] at h
        split at h
        · cases h
        · rename_i hcolon
          obtain rfl : b = colon := by
            by_contra hne
            exact hcolon (by simp [hne])
          cases h
          have h4 : Reads p3 [colon] [] (p3.advance 1) := .advance hr3 rfl
          exact ⟨w, k, wk, hw, hv, hb, hwk,
            (h1.trans (h2.trans (h3.trans h4))).events_eq (by simp [stringEvent])⟩

namespace ParsersSound

variable {n : Nat}

lemma zero : ParsersSound handler strtod 0 where
  object _ h := by cases h
  members _ h := by cases h
  array _ h := by cases h
  elements _ h := by cases h
  value _ h := by cases h

variable (ih : ParsersSound handler strtod n)

include ih

lemma elements_succ (hk : p.depth ≤ maxDepth)
    (h : parseElements handler strtod (n + 1) p = (true, p')) :
    ElementsRead handler strtod p p' := by
  rw [parseElements] at h
  cases hrest : p.rest with
  | nil =>
    rw [if_neg (Nat.not_lt.mpr (rest_eq_nil_iff.mp hrest))] at h
    cases h
    exact .cut (.inl hrest) hrest (.refl p)
  | cons b t =>
    rw [if_pos (lt_of_rest hrest)] at h
    obtain ⟨p1, hvalue, h⟩ := andThen_eq_true h
    cases (ih.value (depth_skip p ▸ hk) hvalue).skip with
    | cut hc hnil h1 =>
      dsimp only at h
      rw [sees_skip_of_nil hnil, sees_skip_of_nil hnil] at h
      cases h
    | @whole d l hv hf h1 =>
      obtain ⟨w, hw, hsplit⟩ := skip_split p.rest
      obtain ⟨w', hw', h2, -⟩ := reads_skip p1
      rw [h2.rest] at hv
      have h3 := h1.trans h2
      dsimp only at h
      generalize skipWhitespace p1 = p2 at h h2 h3 hv
      split at h
      · rename_i hsees
        obtain ⟨t, ht⟩ := sees_iff.mp hsees
        have h4 : Reads p2 [comma] [] (p2.advance 1) := .advance ht rfl
        have hr4 : (p2.advance 1).rest = t := h4.rest_eq ht
        have h5 := h3.trans h4
        rw [ht] at hv
        cases ih.elements (h5.depth ▸ hk) h with
        | @whole ds _ hvs hfs h6 =>
          rw [hr4] at hvs
          rw [h5.depth] at hfs
          have hall : Elements p.rest (d :: ds) p'.rest := hsplit ▸ .cons hw hw' hv hvs
          exact .whole hall (fitsElems_cons.mpr ⟨hf, hfs⟩)
            ((h5.trans h6).events_eq (by simp [Doc.eventsElems, hears_append]))
        | cut hc hnil h6 =>
          rw [hr4, h5.depth] at hc
          refine .cut (.inr ?_) hnil (h5.trans h6)
          rw [hsplit]
          rcases hc with rfl | ⟨ds, hcut, hfs⟩
          · exact ⟨[d], .last hw hw' hv, fitsElems_cons.mpr ⟨hf, fitsElems_nil hk⟩⟩
          · exact ⟨d :: ds, .cons hw hw' hv hcut, fitsElems_cons.mpr ⟨hf, hfs⟩⟩
      · split at h
        · rename_i hsees
          obtain ⟨t, ht⟩ := sees_iff.mp hsees
          have h4 : Reads p2 [rbracket] [] (p2.advance 1) := .advance ht rfl
          have hr4 : (p2.advance 1).rest = t := h4.rest_eq ht
          cases h
          rw [ht, ← hr4] at hv
          have hall : Elements p.rest [d] (p2.advance 1).rest := hsplit ▸ .last hw hw' hv
          exact .whole hall (fitsElems_cons.mpr ⟨hf, fitsElems_nil hk⟩)
            ((h3.trans h4).events_eq (by simp [Doc.eventsElems]))
        · cases h

lemma members_succ (hk : p.depth ≤ maxDepth)
    (h : parseMembers handler strtod (n + 1) p = (true, p')) : MembersRead handler strtod p p' := by
  rw [parseMembers] at h
  cases hrest : p.rest with
  | nil =>
    rw [if_neg (Nat.not_lt.mpr (rest_eq_nil_iff.mp hrest))] at h
    cases h
    exact .cut (.inl hrest) hrest (.refl p)
  | cons b t =>
    rw [if_pos (lt_of_rest hrest)] at h
    obtain ⟨p0, hkey, h⟩ := andThen_eq_true h
    obtain ⟨w, k, wk, hw, hkv, hkb, hwk, h0⟩ := parseKey_sound hkey
    obtain ⟨p1, hvalue, h⟩ := andThen_eq_true h
    cases (ih.value (depth_skip p0 ▸ h0.depth ▸ hk) hvalue).skip with
    | cut hc hnil h1 =>
      dsimp only at h
      rw [sees_skip_of_nil hnil, sees_skip_of_nil hnil] at h
      cases h
    | @whole d l hv hf h1 =>
      obtain ⟨wc, hwc, hsplit⟩ := skip_split p0.rest
      obtain ⟨w', hw', h2, -⟩ := reads_skip p1
      rw [h2.rest] at hv
      rw [h0.depth] at hf
      have htext : p.rest = w ++ (stringText k ++ (wk ++ colon :: (wc ++ skip p0.rest))) := by
        rw [← hsplit, h0.rest]
        simp
      have h3 := h0.trans (h1.trans h2)
      dsimp only at h
      generalize skipWhitespace p1 = p2 at h h2 h3 hv
      split at h
      · rename_i hsees
        obtain ⟨t, ht⟩ := sees_iff.mp hsees
        have h4 : Reads p2 [comma] [] (p2.advance 1) := .advance ht rfl
        have hr4 : (p2.advance 1).rest = t := h4.rest_eq ht
        have h5 := h3.trans h4
        rw [ht] at hv
        cases ih.members (h5.depth ▸ hk) h with
        | @whole ms _ hvs hfs h6 =>
          rw [hr4] at hvs
          rw [h5.depth] at hfs
          have hall : Members p.rest ((k, d) :: ms) p'.rest :=
            htext ▸ .cons hw hkv hwk hwc hw' hv hvs
          exact .whole hall (fitsMembers_cons.mpr ⟨hkb, hf, hfs⟩)
            ((h5.trans h6).events_eq (by simp [Doc.eventsMembers, ← hears_append]))
        | cut hc hnil h6 =>
          rw [hr4, h5.depth] at hc
          refine .cut (.inr ?_) hnil (h5.trans h6)
          rw [htext]
          rcases hc with rfl | ⟨ms, hcut, hfs⟩
          · exact ⟨[(k, d)], .last hw hkv hwk hwc hw' hv,
              fitsMembers_cons.mpr ⟨hkb, hf, fitsMembers_nil hk⟩⟩
          · exact ⟨(k, d) :: ms, .cons hw hkv hwk hwc hw' hv hcut,
              fitsMembers_cons.mpr ⟨hkb, hf, hfs⟩⟩
      · split at h
        · rename_i hsees
          obtain ⟨t, ht⟩ := sees_iff.mp hsees
          have h4 : Reads p2 [rbrace] [] (p2.advance 1) := .advance ht rfl
          have hr4 : (p2.advance 1).rest = t := h4.rest_eq ht
          cases h
          rw [ht, ← hr4] at hv
          have hall : Members p.rest [(k, d)] (p2.advance 1).rest :=
            htext ▸ .last hw hkv hwk hwc hw' hv
          exact .whole hall (fitsMembers_cons.mpr ⟨hkb, hf, fitsMembers_nil hk⟩)
            ((h3.trans h4).events_eq (by simp [Doc.eventsMembers, ← hears_append]))
        · cases h

lemma array_succ (hrest : p.rest = lbracket :: s)
    (h : parseArray handler strtod (n + 1) p = (true, p')) : ValueRead handler strtod p p' := by
  have hskip : skip p.rest = lbracket :: s := by rw [hrest, skip_cons_of_not (by decide)]
  rw [parseArray] at h
  split at h
  · cases h
  · rename_i hk
    obtain ⟨p1, hemit, h⟩ := andThen_eq_true h
    have h1 : Reads { p with depth := p.depth + 1 } [lbracket] (handler.hears [.startArray]) p1 :=
      reads_open hrest hemit
    have hr1 : p1.rest = s := h1.rest_eq hrest
    obtain ⟨w, hw, h2, -⟩ := reads_skip p1
    have hs := h2.rest
    rw [hr1] at hs
    have h3 := h1.trans h2
    dsimp only at h
    generalize skipWhitespace p1 = p2 at h h2 h3 hs
    have hk2 : p2.depth = p.depth + 1 := h3.depth
    split at h
    · rename_i hsees
      obtain ⟨t, ht⟩ := sees_iff.mp hsees
      have h4 : Reads p2 [rbracket] [] (p2.advance 1) := .advance ht rfl
      have h5 : Reads _ [] (handler.hears [.endArray]) p' := emit_sound h
      have hr5 : p'.rest = t := (h4.rest_eq ht).symm.trans h5.rest |>.symm
      have hval : Value (skip p.rest) (.array []) p'.rest := by
        rw [hskip, hs, ht, hr5]
        exact .emptyArray t hw
      exact .whole hval ⟨by simp [Doc.nesting, Doc.nestingElems]; omega, rfl⟩
        (((h3.trans h4).nest h5).events_eq (by simp [Doc.events, Doc.eventsElems, ← hears_append]))
    · obtain ⟨p3, helems, h⟩ := andThen_eq_true h
      have h5 : Reads _ [] (handler.hears [.endArray]) p' := emit_sound h
      have hr5 : p3.rest = p'.rest := h5.rest
      cases ih.elements (by omega) helems with
      | @whole ds _ hv hf h4 =>
        rw [hk2] at hf
        have hval : Value (skip p.rest) (.array ds) p'.rest := by
          rw [hskip, hs, ← hr5]
          exact .array (elements_ws hw hv)
        refine .whole hval ⟨?_, hf.2⟩ (((h3.trans h4).nest h5).events_eq ?_)
        · have := hf.1
          rw [Doc.nesting]
          omega
        · simp only [Doc.events, append_nil, ← hears_append]
          simp
      | cut hc hnil h4 =>
        refine .cut ?_ (hr5 ▸ hnil) ((h3.trans h4).nest h5)
        rw [hskip, hs]
        rcases hc with hnil' | ⟨ds, hcut, hf⟩
        · rw [hnil', append_nil]
          exact .bracket (by omega) hw
        · exact .elements (elementsCut_ws hw hcut) (hk2 ▸ hf)

lemma object_succ (hrest : p.rest = lbrace :: s)
    (h : parseObject handler strtod (n + 1) p = (true, p')) : ValueRead handler strtod p p' := by
  have hskip : skip p.rest = lbrace :: s := by rw [hrest, skip_cons_of_not (by decide)]
  rw [parseObject] at h
  split at h
  · cases h
  · rename_i hk
    obtain ⟨p1, hemit, h⟩ := andThen_eq_true h
    have h1 : Reads { p with depth := p.depth + 1 } [lbrace] (handler.hears [.startObject]) p1 :=
      reads_open hrest hemit
    have hr1 : p1.rest = s := h1.rest_eq hrest
    obtain ⟨w, hw, h2, -⟩ := reads_skip p1
    have hs := h2.rest
    rw [hr1] at hs
    have h3 := h1.trans h2
    dsimp only at h
    generalize skipWhitespace p1 = p2 at h h2 h3 hs
    have hk2 : p2.depth = p.depth + 1 := h3.depth
    split at h
    · rename_i hsees
      obtain ⟨t, ht⟩ := sees_iff.mp hsees
      have h4 : Reads p2 [rbrace] [] (p2.advance 1) := .advance ht rfl
      have h5 : Reads _ [] (handler.hears [.endObject]) p' := emit_sound h
      have hr5 : p'.rest = t := (h4.rest_eq ht).symm.trans h5.rest |>.symm
      have hval : Value (skip p.rest) (.object []) p'.rest := by
        rw [hskip, hs, ht, hr5]
        exact .emptyObject t hw
      exact .whole hval ⟨by simp [Doc.nesting, Doc.nestingMembers]; omega, rfl⟩
        (((h3.trans h4).nest h5).events_eq (by simp [Doc.events, Doc.eventsMembers, ← hears_append]))
    · obtain ⟨p3, hmembers, h⟩ := andThen_eq_true h
      have h5 : Reads _ [] (handler.hears [.endObject]) p' := emit_sound h
      have hr5 : p3.rest = p'.rest := h5.rest
      cases ih.members (by omega) hmembers with
      | @whole ms _ hv hf h4 =>
        rw [hk2] at hf
        have hval : Value (skip p.rest) (.object ms) p'.rest := by
          rw [hskip, hs, ← hr5]
          exact .object (members_ws hw hv)
        refine .whole hval ⟨?_, hf.2⟩ (((h3.trans h4).nest h5).events_eq ?_)
        · have := hf.1
          rw [Doc.nesting]
          omega
        · simp only [Doc.events, append_nil, ← hears_append]
          simp
      | cut hc hnil h4 =>
        refine .cut ?_ (hr5 ▸ hnil) ((h3.trans h4).nest h5)
        rw [hskip, hs]
        rcases hc with hnil' | ⟨ms, hcut, hf⟩
        · rw [hnil', append_nil]
          exact .brace (by omega) hw
        · exact .members (membersCut_ws hw hcut) (hk2 ▸ hf)

lemma value_succ (hk : p.depth ≤ maxDepth)
    (h : parseValue handler strtod (n + 1) p = (true, p')) : ValueRead handler strtod p p' := by
  obtain ⟨w, -, h0, hrest⟩ := reads_skip p
  apply ValueRead.skip
  rw [parseValue] at h
  dsimp only at h
  have hskip : skip (skipWhitespace p).rest = (skipWhitespace p).rest := by rw [hrest, skip_skip]
  rw [← h0.depth] at hk
  generalize skipWhitespace p = p at h hskip hk
  cases hrest : p.rest with
  | nil => rw [if_pos (rest_eq_nil_iff.mp hrest)] at h; cases h
  | cons b s =>
    rw [if_neg (Nat.not_le.mpr (lt_of_rest hrest)), load_of_rest hrest] at h
    split at h
    · rename_i hb
      obtain rfl := eq_of_beq hb
      exact ih.object hrest h
    · split at h
      · rename_i hb
        obtain rfl := eq_of_beq hb
        exact ih.array hrest h
      · split at h
        · cases parseString_sound h with
          | closed cs hv hb h1 =>
            have hval : Value (skip p.rest) (.string cs) p'.rest := by
              rw [hskip, h1.rest]
              exact .string _ hv
            exact .whole hval ⟨hk, hb⟩ h1
          | cut cs hv hb hq hnil h1 =>
            refine .cut ?_ hnil h1
            rw [hskip, h1.rest, hnil, append_nil]
            exact .string hv hb hq
        · split at h
          · obtain ⟨l, hl, h1⟩ := parseNumber_sound strtod hrest h
            have hval : Value (skip p.rest) (.number l) p'.rest := by
              rw [hskip, h1.rest]
              exact .number _ hl
            exact .whole hval ⟨hk, rfl⟩ h1
          · obtain ⟨word, e, hword, h1⟩ := parseWord_sound h
            have hrest1 := h1.rest
            rw [← hskip] at hrest1
            rcases hword with ⟨rfl, rfl⟩ | ⟨rfl, rfl⟩ | ⟨rfl, rfl⟩
            · have hval : Value (skip p.rest) .true p'.rest := hrest1 ▸ .true _
              exact .whole hval ⟨hk, rfl⟩ h1
            · have hval : Value (skip p.rest) .false p'.rest := hrest1 ▸ .false _
              exact .whole hval ⟨hk, rfl⟩ h1
            · have hval : Value (skip p.rest) .null p'.rest := hrest1 ▸ .null _
              exact .whole hval ⟨hk, rfl⟩ h1

end ParsersSound

/-- Whatever the fuel and the handler, a call that succeeds has read a text
of the grammar or has stopped at the end of a truncated one. -/
lemma parsersSound (handler : Handler D) (strtod : List UInt8 → D) (n : Nat) :
    ParsersSound handler strtod n := by
  induction n with
  | zero => exact .zero
  | succ n ih =>
    exact ⟨ih.object_succ, ih.members_succ, ih.array_succ, ih.elements_succ, ih.value_succ⟩

end Sax

end Cobalt.Json
