/-
Cobalt.Json.StringAgree — the two string parsers on one text.

`json_parse_string` of the DOM parser and `parse_string` of the streaming
parser read the same literals of the grammar, as long as these have no
`\u0000` escape, which ends the C string the first one returns, and no
unpaired surrogate escape, which the first one refuses. Outside the grammar
each has a language of its own: the DOM parser takes control characters,
unknown escapes and whatever `strtol` makes of four bytes; the streaming
parser takes a literal that the end of the input cuts off after a quote.
-/
import Cobalt.Json.DomMemory
import Cobalt.Json.DomSync
import Cobalt.Json.SaxTheorems

namespace Cobalt.Json

open List Option Bool
open List (cons)

/-! ## What the parsers answer -/

/-- The string that `json_parse_string` returns for a text, and where it stops. -/
def domString (s : List UInt8) : Option (List UInt8 × Nat) :=
  match jsonParseString granting ⟨s, 0, 0, false, 0, []⟩ with
  | (some bytes, c) => some (cstr bytes, c.pos)
  | (none, _) => none

/-- The bytes that a callback for a key or a string is given. -/
def Sax.Event.bytes? {D : Type} : Sax.Event D → Option (List UInt8)
  | .string val => some val
  | .key val => some val
  | _ => none

/-- The string that `parse_string` hands to its callback for a text, and where it stops. -/
def saxString (isKey : Bool) (s : List UInt8) : Option (List UInt8 × Nat) :=
  match Sax.parseString (Sax.listening Unit) isKey ⟨s, 0, 1, 1, none, 0, false, []⟩ with
  | (true, p) => (p.trace.getLast?.bind Sax.Event.bytes?).map fun bytes => (bytes, p.pos)
  | (false, _) => none

/-! ## The literals of the DOM parser -/

/-- What the DOM parser reads after an opening quote: the bytes it decodes, up to a closing quote,
and what is left after that. -/
inductive DomReads : List UInt8 → List UInt8 → List UInt8 → Prop where
  | close (r : List UInt8) : DomReads (quote :: r) [] r
  | plain {b : UInt8} {s o r : List UInt8} (hq : b ≠ quote) (hb : b ≠ backslash)
      (h : DomReads s o r) : DomReads (b :: s) (b :: o) r
  | escape {s e t o r : List UInt8} (he : escapeOf s = some (e, t)) (h : DomReads t o r) :
      DomReads (backslash :: s) (e ++ o) r

namespace DomReads

variable {b : UInt8} {s e t o r : List UInt8}

lemma plain_inv (hq : b ≠ quote) (hb : b ≠ backslash) (h : DomReads (b :: s) o r) :
    ∃ o', DomReads s o' r := by
  cases h with
  | close => exact absurd rfl hq
  | plain _ _ h => exact ⟨_, h⟩
  | escape => exact absurd rfl hb

lemma escape_inv (h : DomReads (backslash :: s) o r) :
    ∃ e t o', escapeOf s = some (e, t) ∧ o = e ++ o' ∧ DomReads t o' r := by
  cases h with
  | plain _ hb => exact absurd rfl hb
  | escape he h => exact ⟨_, _, _, he, rfl, h⟩

end DomReads

section Loop

variable {buf : StrBuf} {c : Ctx} {s : List UInt8}

lemma jrealloc_granting (c : Ctx) {newSize : Nat} (hn : buf.bytes.length ≤ newSize / 2) :
    ∃ c', jrealloc granting buf newSize c = (some ⟨newSize, buf.bytes⟩, c') ∧ c'.str = c.str ∧
      c'.pos = c.pos := by
  refine ⟨(jrealloc granting buf newSize c).2, ?_, rfl, rfl⟩
  simp only [jrealloc, jalloc, if_true, take_of_length_le hn]

/-- A buffer that grows for an escape keeps its bytes, and the cursor stays. -/
lemma growForEscape_granting (c : Ctx) (hb : buf.bytes.length < 2 ^ 63) {elen : Nat}
    (he : elen ≤ 4) : ∃ cap c', growForEscape granting buf elen c = (some ⟨cap, buf.bytes⟩, c') ∧
      buf.bytes.length + elen + 1 ≤ cap ∧ c'.str = c.str ∧ c'.pos = c.pos := by
  rw [growForEscape]
  split
  · obtain ⟨hcap, hhalf⟩ := escapeCap_ge hb he
    obtain ⟨c', hc', hstr, hpos⟩ := jrealloc_granting c hhalf
    exact ⟨_, c', hc', hcap, hstr, hpos⟩
  · exact ⟨buf.cap, c, rfl, by omega, rfl, rfl⟩

lemma growForByte_granting (c : Ctx) (hb : buf.bytes.length < 2 ^ 63) (hr : buf.Room) :
    ∃ cap c', growForByte granting buf c = (some ⟨cap, buf.bytes⟩, c') ∧
      buf.bytes.length + 2 ≤ cap ∧ c'.str = c.str ∧ c'.pos = c.pos := by
  rw [growForByte]
  split
  · obtain ⟨hcap, hhalf⟩ := byteCap_ge hb hr
    obtain ⟨c', hc', hstr, hpos⟩ := jrealloc_granting c hhalf
    exact ⟨_, c', hc', hcap, hstr, hpos⟩
  · exact ⟨buf.cap, c, rfl, by omega, rfl, rfl⟩

/-- The loop of `json_parse_string` on a text: it comes to the closing quote of a literal, or there
is none, and then it gives up or runs to the end of the text. -/
inductive Closes (buf : StrBuf) (c : Ctx) (s : List UInt8) (res : Option StrBuf × Ctx) : Prop where
  | closed (o r : List UInt8) (cap : Nat) (c' : Ctx) (h : DomReads s o r)
      (hres : res = (some ⟨cap, buf.bytes ++ o⟩, c')) (hrest : c'.rest = quote :: r)
      (hstr : c'.str = c.str)
  | never (h : ∀ o r, ¬ DomReads s o r) (hres : ∀ buf', res.1 = some buf' → res.2.rest = [])

lemma Closes.plain {b : UInt8} (cap : Nat) {c1 : Ctx} {res : Option StrBuf × Ctx}
    (hq : b ≠ quote) (hb : b ≠ backslash) (hstr : c1.str = c.str)
    (h : Closes ⟨cap, buf.bytes ++ [b]⟩ c1 s res) : Closes buf c (b :: s) res := by
  cases h with
  | closed o r cap' c' h hres hrest hstr' =>
    refine .closed (b :: o) r cap' c' (.plain hq hb h) ?_ hrest (hstr'.trans hstr)
    rw [hres, append_assoc, singleton_append]
  | never h hres =>
    refine .never (fun o r hr => ?_) hres
    obtain ⟨o', ho'⟩ := hr.plain_inv hq hb
    exact h o' r ho'

lemma Closes.escape {e t : List UInt8} (cap : Nat) {c1 : Ctx} {res : Option StrBuf × Ctx}
    (he : escapeOf s = some (e, t)) (hstr : c1.str = c.str)
    (h : Closes ⟨cap, buf.bytes ++ e⟩ c1 t res) : Closes buf c (backslash :: s) res := by
  cases h with
  | closed o r cap' c' h hres hrest hstr' =>
    refine .closed (e ++ o) r cap' c' (.escape he h) ?_ hrest (hstr'.trans hstr)
    rw [hres, append_assoc]
  | never h hres =>
    refine .never (fun o r hr => ?_) hres
    obtain ⟨e', t', o', he', -, ho'⟩ := hr.escape_inv
    rw [he] at he'
    cases he'
    exact h o' r ho'

lemma jsonParseStringLoop_closes (buf : StrBuf) (n : Nat) (hn : s.length < n)
    (hlen : buf.bytes.length + s.length < 2 ^ 63) (hroom : buf.Room) (hrest : c.rest = s) :
    Closes buf c s (jsonParseStringLoop granting n buf c) := by
  induction n generalizing buf c s with
  | zero => omega
  | succ n ih =>
    rw [jsonParseStringLoop]
    cases s with
    | nil =>
      rw [if_neg (Nat.not_lt.mpr (Ctx.rest_eq_nil_iff.mp hrest))]
      exact .never (fun o r h => by cases h) fun _ _ => hrest
    | cons b s =>
      rw [if_pos (Ctx.lt_of_rest hrest), Ctx.load, Ctx.getD_of_rest hrest]
      simp only [length_cons] at hn hlen
      dsimp only
      by_cases hq : b = quote
      · subst hq
        rw [if_pos (by decide)]
        refine .closed [] s buf.cap (c.record (.text c.pos 1)) (.close s) ?_ hrest rfl
        rw [append_nil]
      rw [if_neg (by simpa using hq)]
      by_cases hb : b = backslash
      · subst hb
        rw [if_pos (by decide)]
        have hrest1 : ((c.record (.text c.pos 1)).advance 1).rest = s :=
          Ctx.rest_advance 1 (w := [backslash]) hrest rfl
        rw [appendEscape]
        dsimp only
        cases s with
        | nil =>
          rw [if_pos (Ctx.rest_eq_nil_iff.mp hrest1)]
          refine .never (fun o r h => ?_) fun buf' h => by cases h
          obtain ⟨e, t, o', he, -⟩ := h.escape_inv
          cases he
        | cons e s =>
          rw [if_neg (Nat.not_le.mpr (Ctx.lt_of_rest hrest1)), Ctx.load, Ctx.getD_of_rest hrest1]
          dsimp only
          generalize hc2 : ((c.record (.text c.pos 1)).advance 1).record
            (.text ((c.record (.text c.pos 1)).advance 1).pos 1) = c2
          have hrest2 : c2.rest = e :: s := by rw [← hc2]; exact hrest1
          have hstr2 : c2.str = c.str := by rw [← hc2]; rfl
          obtain ⟨hbytes, hclean, -, htail⟩ := jsonEscape_spec hrest2
          cases hesc : jsonEscape e c2 with
          | mk out c3 =>
            rw [hesc] at hbytes hclean htail
            cases hof : escapeOf (e :: s) with
            | none =>
              rw [hof] at hbytes
              obtain rfl : out = none := hbytes
              refine .never (fun o r h => ?_) fun buf' h => by cases h
              obtain ⟨e', t, o', he, -⟩ := h.escape_inv
              rw [hof] at he
              cases he
            | some et =>
              obtain ⟨esc, t⟩ := et
              rw [hof] at hbytes
              obtain rfl : out = some esc := hbytes
              obtain ⟨hle, hshort⟩ := escapeOf_length hof
              simp only [length_cons] at hshort hn hlen
              have hfits : buf.bytes.length < 2 ^ 63 := by omega
              obtain ⟨cap, c4, hgrow, hcap, hstr, hpos⟩ := growForEscape_granting c3 hfits hle
              simp only [hgrow]
              have hrest4 : ((c4.touch cap buf.bytes.length esc.length).advance 1).rest = t := by
                rw [← htail esc t hof]
                change c4.str.drop (c4.pos + 1) = c3.str.drop (c3.pos + 1)
                rw [hstr, hpos]
              refine Closes.escape cap hof ?_ (ih _ ?_ ?_ ?_ hrest4)
              · exact hstr.trans (hclean.str.trans hstr2)
              · omega
              · simp only [length_append]
                omega
              · simp only [StrBuf.Room, length_append]
                omega
      · obtain ⟨cap, c1, hgrow, hcap, hstr, hpos⟩ :=
          growForByte_granting (c.record (.text c.pos 1)) (by omega) hroom
        rw [if_neg (by simpa using hb)]
        simp only [appendByte, hgrow]
        have hrest1 : ((c1.touch cap buf.bytes.length 1).advance 1).rest = s := by
          refine Ctx.rest_advance 1 (w := [b]) ?_ rfl
          change c1.str.drop c1.pos = b :: s
          rw [hstr, hpos]
          exact hrest
        refine Closes.plain cap hq hb ?_ (ih _ ?_ ?_ ?_ hrest1)
        · exact hstr
        · omega
        · simp only [length_append, length_singleton]
          omega
        · simp only [StrBuf.Room, length_append, length_singleton]
          omega

end Loop

namespace DomReads

variable {s o o' r r' : List UInt8}

lemma unique (h : DomReads s o r) (h' : DomReads s o' r') : o = o' ∧ r = r' := by
  induction h generalizing o' r' with
  | close r =>
    cases h' with
    | close => exact ⟨rfl, rfl⟩
    | plain hq => exact absurd rfl hq
  | plain hq hb _ ih =>
    cases h' with
    | close => exact absurd rfl hq
    | plain _ _ h' => exact ⟨congrArg _ (ih h').1, (ih h').2⟩
    | escape => exact absurd rfl hb
  | escape he _ ih =>
    obtain ⟨e', t', o'', he', rfl, h'⟩ := h'.escape_inv
    rw [he] at he'
    cases he'
    exact ⟨congrArg _ (ih h').1, (ih h').2⟩

end DomReads

lemma jsonParseString_quote {t : List UInt8} (hfits : (quote :: t).length < 2 ^ 63) :
    ∃ c : Ctx, c.str = quote :: t ∧
    Closes ⟨64, []⟩ c t (jsonParseStringLoop granting (t.length + 1) ⟨64, []⟩ c) ∧
    jsonParseString granting ⟨quote :: t, 0, 0, false, 0, []⟩ =
      match jsonParseStringLoop granting (t.length + 1) ⟨64, []⟩ c with
      | (none, c) => (none, c)
      | (some buf, c) =>
          if c.pos ≥ c.len then (none, c)
          else (some buf.bytes, (c.advance 1).touch buf.cap buf.bytes.length 1) := by
  refine ⟨⟨quote :: t, 1, 0, false, 1, [.literal 1 0, .text 0 1]⟩, rfl,
    jsonParseStringLoop_closes _ _ (Nat.lt_succ_self _) (by simp at hfits ⊢; omega)
      (by simp [StrBuf.Room]) rfl, ?_⟩
  have htest : Ctx.test ⟨quote :: t, 0, 0, false, 0, []⟩ quote
      = (true, ⟨quote :: t, 0, 0, false, 0, [.text 0 1]⟩) := by
    have hlt : (⟨quote :: t, 0, 0, false, 0, []⟩ : Ctx).pos
        < (⟨quote :: t, 0, 0, false, 0, []⟩ : Ctx).len := Nat.succ_pos _
    rw [Ctx.test, if_pos hlt]
    rfl
  rw [jsonParseString, htest]
  rfl

lemma domString_of_reads {t o r : List UInt8} (hfits : (quote :: t).length < 2 ^ 63)
    (h : DomReads t o r) : domString (quote :: t) = some (cstr o, (quote :: t).length - r.length) := by
  obtain ⟨c, hstr, hloop, hparse⟩ := jsonParseString_quote hfits
  unfold domString
  rw [hparse]
  cases hloop with
  | closed o' r' cap c' h' hres hrest' hstr' =>
    obtain ⟨rfl, rfl⟩ := h.unique h'
    have hlt := Ctx.lt_of_rest hrest'
    have hlen : c'.len = (quote :: t).length := by rw [Ctx.len, hstr', hstr]
    have hpos : c'.pos + 1 + r.length = c'.len := by
      have hleft := congrArg List.length hrest'
      rw [Ctx.length_rest, length_cons] at hleft
      omega
    rw [hres]
    dsimp only
    rw [if_neg (Nat.not_le.mpr hlt)]
    have hstop : c'.pos + 1 = (quote :: t).length - r.length := by omega
    rw [← hstop]
    rfl
  | never hno => exact absurd h (hno o r)

lemma domString_of_not {t : List UInt8} (hfits : (quote :: t).length < 2 ^ 63)
    (h : ∀ o r, ¬ DomReads t o r) : domString (quote :: t) = none := by
  obtain ⟨c, hstr, hloop, hparse⟩ := jsonParseString_quote hfits
  unfold domString
  rw [hparse]
  cases hloop with
  | closed o' r' cap c' h' => exact absurd h' (h o' r')
  | never hno hend =>
    cases hres : jsonParseStringLoop granting (t.length + 1) ⟨64, []⟩ c with
    | mk out c' =>
      rw [hres] at hend
      cases out with
      | none => rfl
      | some buf =>
        have hge : c'.pos ≥ c'.len := Ctx.rest_eq_nil_iff.mp (hend buf rfl)
        dsimp only
        rw [if_pos hge]

/-! ## The literals of the streaming parser -/

/-- What the streaming parser reads after an opening quote: characters of the grammar without a
broken surrogate pair, and then `t`, which starts with the closing quote or is the end of the input
right after an escaped quote. -/
structure SaxReads (s : List UInt8) (cs : List StrChar) (t : List UInt8) : Prop where
  text : s = charsText cs ++ t
  tail : Sax.Tail t
  cut : t = [] → Sax.endsInQuote cs
  valid : ValidChars cs
  pairs : noBrokenPair cs = true

variable {cs : List StrChar}

lemma saxString_of_reads {s t : List UInt8} (isKey : Bool) (h : SaxReads s cs t) :
    saxString isKey (quote :: s) = some (decode cs, (quote :: s).length - (t.drop 1).length) := by
  obtain ⟨p', hp, hreads⟩ := Sax.parseString_complete (Sax.listening_accepts Unit) isKey h.tail h.cut
    h.valid h.pairs (p := ⟨quote :: s, 0, 1, 1, none, 0, false, []⟩) (congrArg (quote :: ·) h.text)
  have htrace : p'.trace = [Sax.stringEvent isKey (decode cs)] := by
    rw [hreads.trace]
    cases isKey <;> rfl
  have hpos : p'.pos = (quote :: s).length - (t.drop 1).length := by
    rw [hreads.pos, h.text]
    simp only [length_cons, length_append, length_take, length_drop]
    omega
  unfold saxString
  rw [hp]
  dsimp only
  rw [htrace, hpos]
  cases isKey <;> rfl

lemma saxString_of_not {s : List UInt8} (isKey : Bool) (h : ∀ cs t, ¬ SaxReads s cs t) :
    saxString isKey (quote :: s) = none := by
  unfold saxString
  cases hp : Sax.parseString (Sax.listening Unit) isKey ⟨quote :: s, 0, 1, 1, none, 0, false, []⟩ with
  | mk ok p' =>
    cases ok with
    | false => rfl
    | true =>
      exfalso
      cases Sax.parseString_sound hp with
      | closed cs hv hb hreads =>
        have hrest : quote :: s = stringText cs ++ p'.rest := hreads.rest
        rw [stringText, cons_append, append_assoc, singleton_append] at hrest
        exact h cs _ ⟨(cons.inj hrest).2, .closed _,
          fun hnil => absurd hnil (cons_ne_nil _ _), hv, hb⟩
      | cut cs hv hb hq hnil hreads =>
        have hrest : quote :: s = quote :: charsText cs ++ p'.rest := hreads.rest
        rw [hnil] at hrest
        exact h cs [] ⟨(cons.inj hrest).2, .cut, fun _ => hq, hv, hb⟩

/-! ## Where they agree -/

/-- What `strtol` and the pairing make of four hexadecimal digits. -/
lemma unicodeOf_hex {a b c d : UInt8} {v : Nat} {t : List UInt8} (hv : hex4? a b c d = some v)
    (hhi : isHigh v = false) :
    unicodeOf (a :: b :: c :: d :: t) = if isLow v then none else some (escapedUtf8 v, t) := by
  unfold unicodeOf
  rw [if_neg (by simp)]
  simp only [take_succ_cons, take_zero, strtol16_hex4 hv]
  simp only [isHigh, isLow] at hhi ⊢
  rw [hhi]
  rfl

lemma unicodeOf_high {a b c d : UInt8} {v : Nat} {t e r : List UInt8} (hv : hex4? a b c d = some v)
    (hhi : isHigh v = true) (h : unicodeOf (a :: b :: c :: d :: t) = some (e, r)) :
    ∃ a' b' c' d', t = backslash :: 0x75 :: a' :: b' :: c' :: d' :: r ∧
      0xDC00 ≤ toUnsigned (strtol16 [a', b', c', d']) ∧
      toUnsigned (strtol16 [a', b', c', d']) ≤ 0xDFFF := by
  unfold unicodeOf at h
  rw [if_neg (by simp)] at h
  simp only [take_succ_cons, take_zero, strtol16_hex4 hv] at h
  simp only [isHigh] at hhi
  rw [hhi, if_pos rfl] at h
  split at h
  · cases h
  · next hlen =>
    rcases t with _ | ⟨x, _ | ⟨y, _ | ⟨a', _ | ⟨b', _ | ⟨c', _ | ⟨d', t⟩⟩⟩⟩⟩⟩
    iterate 6 · simp at hlen
    split at h
    · next hxy =>
      obtain ⟨rfl, rfl⟩ : x = backslash ∧ y = 0x75 := by simpa using hxy
      split at h
      · next hlow =>
        cases h
        exact ⟨a', b', c', d', rfl, by simpa using hlow⟩
      · cases h
    · cases h

lemma escapeOf_uni (t : List UInt8) : escapeOf (0x75 :: t) = unicodeOf t := rfl

/-- The DOM parser reads on after a `\u` escape that is not a high surrogate, if it is not a low
one either. -/
lemma single_of_domReads {a b c d : UInt8} {v : Nat} {t o r : List UInt8}
    (hv : hex4? a b c d = some v) (hhi : isHigh v = false)
    (h : DomReads (backslash :: 0x75 :: a :: b :: c :: d :: t) o r) :
    isLow v = false ∧ ∃ o', DomReads t o' r := by
  obtain ⟨e, t', o', he, -, ho'⟩ := h.escape_inv
  rw [escapeOf_uni, unicodeOf_hex hv hhi] at he
  split at he
  · cases he
  · next hlo =>
    cases he
    exact ⟨by simpa using hlo, o', ho'⟩

/-- Only a `\u` escape is written with a `\u`. -/
lemma not_uni_of_valid {t s : List UInt8} (hv : ValidChars cs)
    (hcs : ∀ a b c d cs', cs = .uni a b c d :: cs' → False) (ht : Sax.Tail t)
    (h : charsText cs ++ t = backslash :: 0x75 :: s) : False := by
  cases cs with
  | nil =>
    cases ht with
    | closed r => exact absurd (cons.inj h).1 (by decide)
    | cut => cases h
  | cons x cs =>
    have hx := hv x (mem_cons_self ..)
    cases x with
    | raw b =>
      obtain rfl : b = backslash := (cons.inj h).1
      exact absurd hx (by decide)
    | esc e =>
      obtain rfl : e = 0x75 := (cons.inj (cons.inj h).2).1
      exact absurd hx (by decide)
    | uni a b c d => exact hcs a b c d cs rfl

/-- What is read after the characters of the grammar: the DOM parser goes through them one by one,
and stops at a surrogate escape that is not paired. -/
lemma paired_of_domReads (cs : List StrChar) {t o r : List UInt8} (hv : ValidChars cs)
    (hb : noBrokenPair cs = true) (ht : Sax.Tail t) (h : DomReads (charsText cs ++ t) o r) :
    paired cs = true ∧ t = quote :: r := by
  induction cs using decode.induct generalizing o with
  | case1 =>
    cases ht with
    | closed r' =>
      cases h with
      | close => exact ⟨rfl, rfl⟩
      | plain hq => exact absurd rfl hq
    | cut => cases h
  | case2 b cs ih =>
    obtain ⟨⟨-, hq⟩, hs⟩ : (0x20 ≤ b ∧ b ≠ quote) ∧ b ≠ backslash := by
      simpa [StrChar.valid] using hv _ (mem_cons_self ..)
    obtain ⟨o', ho'⟩ := DomReads.plain_inv hq hs h
    exact ih (fun x hx => hv x (mem_cons_of_mem _ hx)) hb ho'
  | case3 e cs ih =>
    obtain ⟨x, hx⟩ : ∃ x, escByte? e = some x := isSome_iff_exists.mp (hv _ (mem_cons_self ..))
    obtain ⟨e', t', o', he', -, ho'⟩ := DomReads.escape_inv h
    change escapeOf (e :: (charsText cs ++ t)) = some (e', t') at he'
    rw [escapeOf, hx] at he'
    cases he'
    exact ih (fun y hy => hv y (mem_cons_of_mem _ hy)) hb ho'
  | case4 a b c d a' b' c' d' cs hif ih =>
    obtain ⟨hhi, hlo⟩ := and_eq_true_iff.mp hif
    obtain ⟨v, hv1⟩ := isSome_iff_exists.mp (hv (.uni a b c d) (by simp))
    have hu : unit a b c d = v := Sax.Escape.unit_eq hv1
    obtain ⟨e', t', o', he', -, ho'⟩ := DomReads.escape_inv h
    obtain ⟨a1, b1, c1, d1, heq, -⟩ := unicodeOf_high hv1 (hu ▸ hhi) he'
    change backslash :: 0x75 :: a' :: b' :: c' :: d' :: (charsText cs ++ t) = _ at heq
    simp only [cons.injEq] at heq
    obtain ⟨-, -, -, -, -, -, rfl⟩ := heq
    simp only [noBrokenPair, hhi, if_true, hlo, Bool.true_and] at hb
    simp only [paired, hhi, if_true, hlo, Bool.true_and]
    exact ih (fun x hx => hv x (by simp [hx])) hb ho'
  | case5 a b c d a' b' c' d' cs hif ih =>
    obtain ⟨v, hv1⟩ := isSome_iff_exists.mp (hv (.uni a b c d) (by simp))
    have hu : unit a b c d = v := Sax.Escape.unit_eq hv1
    have hhi : isHigh (unit a b c d) = false := by
      cases hh : isHigh (unit a b c d) with
      | false => rfl
      | true =>
        simp only [noBrokenPair, hh, if_true, and_eq_true] at hb
        rw [hh, hb.1] at hif
        exact absurd rfl hif
    simp only [noBrokenPair, hhi, false_eq_true, if_false] at hb
    obtain ⟨hlo, o', ho'⟩ := single_of_domReads hv1 (hu ▸ hhi) h
    obtain ⟨hp, hr⟩ := ih (fun x hx => hv x (mem_cons_of_mem _ hx)) hb ho'
    refine ⟨?_, hr⟩
    rw [← hu] at hlo
    simp only [paired, hhi, hlo, Bool.false_eq_true, if_false, Bool.not_false, Bool.true_and]
    exact hp
  | case6 a b c d cs hcs ih =>
    obtain ⟨v, hv1⟩ := isSome_iff_exists.mp (hv (.uni a b c d) (by simp))
    have hu : unit a b c d = v := Sax.Escape.unit_eq hv1
    have hv' : ValidChars cs := fun x hx => hv x (mem_cons_of_mem _ hx)
    have hhi : isHigh (unit a b c d) = false := by
      by_contra hh
      rw [not_eq_false] at hh
      obtain ⟨e', t', o', he', -, -⟩ := DomReads.escape_inv h
      obtain ⟨a', b', c', d', heq, -⟩ := unicodeOf_high hv1 (hu ▸ hh) he'
      exact not_uni_of_valid hv' hcs ht heq
    have hb' : noBrokenPair cs = true := by
      rw [noBrokenPair] at hb
      · exact hb
      · exact fun _ _ _ _ a' b' c' d' cs' _ h => hcs a' b' c' d' cs' h
    obtain ⟨hlo, o', ho'⟩ := single_of_domReads hv1 (hu ▸ hhi) h
    obtain ⟨hp, hr⟩ := ih hv' hb' ho'
    refine ⟨?_, hr⟩
    rw [← hu] at hlo
    rw [paired]
    · simp only [hhi, hlo, hp, Bool.not_false, Bool.and_self]
    · exact hcs

lemma noBrokenPair_of_paired (h : paired cs = true) : noBrokenPair cs = true := by
  induction cs using decode.induct with
  | case1 => rfl
  | case2 b cs ih => exact ih h
  | case3 e cs ih => exact ih h
  | case4 a b c d a' b' c' d' cs hif ih =>
    obtain ⟨hhi, hlo⟩ := and_eq_true_iff.mp hif
    simp only [paired, hhi, if_true, hlo, Bool.true_and] at h
    simp only [noBrokenPair, hhi, if_true, hlo, Bool.true_and]
    exact ih h
  | case5 a b c d a' b' c' d' cs hif ih =>
    simp only [paired] at h
    simp only [noBrokenPair]
    split at h
    · next hhi =>
      rw [and_eq_true] at h
      exact absurd (and_eq_true_iff.mpr ⟨hhi, h.1⟩) hif
    · next hhi =>
      rw [and_eq_true] at h
      rw [if_neg hhi]
      exact ih h.2
  | case6 a b c d cs hcs ih =>
    rw [paired] at h
    · rw [noBrokenPair]
      · exact ih (and_eq_true_iff.mp h).2
      · exact fun _ _ _ _ a' b' c' d' cs' _ h => hcs a' b' c' d' cs' h
    · exact hcs

/-- A `\u0000` escape is decoded to a zero byte. -/
lemma noNulEscape_of_decode (h : ∀ b ∈ decode cs, b ≠ 0) : noNulEscape cs = true := by
  have hzero : ∀ u, (∀ b ∈ utf8 u, b ≠ 0) → u ≠ 0 := by
    rintro u hu rfl
    exact hu 0 (by decide) rfl
  induction cs using decode.induct with
  | case1 => rfl
  | case2 b cs ih | case3 e cs ih =>
    rw [decode, forall_mem_cons] at h
    exact ih h.2
  | case4 a b c d a' b' c' d' cs hif ih =>
    obtain ⟨hhi, hlo⟩ := and_eq_true_iff.mp hif
    rw [decode, if_pos hif, forall_mem_append] at h
    have hu : unit a b c d ≠ 0 := by
      intro hzero
      simp [isHigh, hzero] at hhi
    have hu' : unit a' b' c' d' ≠ 0 := by
      intro hzero
      simp [isLow, hzero] at hlo
    have hrest := ih h.2
    simp only [noNulEscape, all_cons] at hrest ⊢
    simp [hu, hu', hrest]
  | case5 a b c d a' b' c' d' cs hif ih =>
    rw [decode, if_neg hif, forall_mem_append] at h
    have hrest := ih h.2
    simp only [noNulEscape, all_cons] at hrest ⊢
    simp [hzero _ h.1, hrest]
  | case6 a b c d cs hcs ih =>
    rw [decode] at h
    · rw [forall_mem_append] at h
      have hrest := ih h.2
      simp only [noNulEscape, all_cons] at hrest ⊢
      simp [hzero _ h.1, hrest]
    · exact hcs

lemma domString_literal {r : List UInt8} (hfits : (stringText cs ++ r).length < 2 ^ 63)
    (hv : ValidChars cs) (hp : paired cs = true) (hb : noBrokenPair cs = true) :
    domString (stringText cs ++ r)
      = some (cstr (decode cs), (stringText cs ++ r).length - r.length) := by
  have hat : Ctx.At ⟨stringText cs ++ r, 0, 0, false, 0, []⟩ (stringText cs ++ r) 0 :=
    ⟨rfl, rfl, rfl, hfits⟩
  obtain ⟨c', hparse, -⟩ := jsonParseString_literal hv hp hat
  have hdom : domString (stringText cs ++ r) = some (cstr (decode cs), c'.pos) := by
    unfold domString
    rw [hparse]
  have htext : stringText cs ++ r = quote :: (charsText cs ++ quote :: r) := by simp [stringText]
  rw [htext] at hdom hfits ⊢
  by_cases hreads : ∃ o r', DomReads (charsText cs ++ quote :: r) o r'
  · obtain ⟨o, r', hreads⟩ := hreads
    obtain ⟨-, hr⟩ := paired_of_domReads cs hv hb (.closed r) hreads
    obtain rfl : r = r' := (cons.inj hr).2
    have hdom' := domString_of_reads hfits hreads
    rw [hdom] at hdom'
    rw [hdom, (Prod.mk.inj (Option.some.inj hdom')).2]
  · have hnone := domString_of_not hfits fun o r' h => hreads ⟨o, r', h⟩
    rw [hdom] at hnone
    cases hnone

/-- The two parsers answer alike exactly on the literals of the grammar that have neither a
`\u0000` escape nor an unpaired surrogate escape, and on the texts in which neither parser finds a
literal of its own language. -/
theorem strings_agree_iff (s : CString) {t : List UInt8} (hs : s.bytes = quote :: t)
    (isKey : Bool) : domString s.bytes = saxString isKey s.bytes ↔
      (∃ cs r, t = charsText cs ++ quote :: r ∧ ValidChars cs ∧ portable cs = true) ∨
      ((∀ o r, ¬ DomReads t o r) ∧ ∀ cs u, ¬ SaxReads t cs u) := by
  have hfits := s.fits
  rw [hs] at hfits ⊢
  have htext : ∀ cs r, quote :: (charsText cs ++ quote :: r) = stringText cs ++ r := by
    intro cs r
    simp [stringText]
  constructor
  · intro hagree
    by_cases hsax : ∃ cs u, SaxReads t cs u
    · obtain ⟨cs, u, hsax⟩ := hsax
      rw [saxString_of_reads isKey hsax] at hagree
      have hdom : ∃ o r, DomReads t o r := by
        by_contra hno
        rw [domString_of_not hfits fun o r h => hno ⟨o, r, h⟩] at hagree
        cases hagree
      obtain ⟨o, r, hdom⟩ := hdom
      rw [hsax.text] at hdom
      obtain ⟨hp, hu⟩ := paired_of_domReads cs hsax.valid hsax.pairs hsax.tail hdom
      have ht : t = charsText cs ++ quote :: r := by rw [hsax.text, hu]
      refine .inl ⟨cs, r, ht, hsax.valid, ?_⟩
      rw [ht, htext] at hfits hagree
      rw [domString_literal hfits hsax.valid hp hsax.pairs] at hagree
      have hbytes : cstr (decode cs) = decode cs := (Prod.mk.inj (Option.some.inj hagree)).1
      rw [portable, hp, Bool.and_true]
      exact noNulEscape_of_decode (hbytes ▸ cstr_ne_zero)
    · rw [saxString_of_not isKey fun cs u h => hsax ⟨cs, u, h⟩] at hagree
      refine .inr ⟨fun o r h => ?_, fun cs u h => hsax ⟨cs, u, h⟩⟩
      rw [domString_of_reads hfits h] at hagree
      cases hagree
  · rintro (⟨cs, r, rfl, hv, hp⟩ | ⟨hdom, hsax⟩)
    · have hpair : paired cs = true := (and_eq_true_iff.mp hp).2
      have hb := noBrokenPair_of_paired hpair
      have hreads : SaxReads (charsText cs ++ quote :: r) cs (quote :: r) :=
        ⟨rfl, .closed r, fun hnil => absurd hnil (cons_ne_nil _ _), hv, hb⟩
      rw [saxString_of_reads isKey hreads]
      rw [htext] at hfits ⊢
      rw [domString_literal hfits hv hpair hb, cstr_decode hv hp]
      rfl
    · rw [domString_of_not hfits hdom, saxString_of_not isKey hsax]

/-- `"\n"x`: a literal of the grammar. -/
theorem strings_agree_newline :
    domString [quote, backslash, 0x6E, quote, 0x78] = some ([0x0A], 4) ∧
      domString [quote, backslash, 0x6E, quote, 0x78]
        = saxString false [quote, backslash, 0x6E, quote, 0x78] := by
  refine ⟨by decide +kernel, ?_⟩
  refine (strings_agree_iff ⟨[quote, backslash, 0x6E, quote, 0x78], by simp, by decide⟩ rfl
    false).mpr (.inl ⟨[.esc 0x6E], [0x78], rfl, ?_, by decide⟩)
  intro c hc
  rw [mem_singleton.mp hc]
  decide

/-- `"\q"`: the DOM parser takes the escape for the letter, the streaming parser refuses it. -/
theorem strings_disagree_unknown : ∃ (s : CString) (t : List UInt8), s.bytes = quote :: t ∧
    domString s.bytes = some ([0x71], 4) ∧ saxString false s.bytes = none :=
  ⟨⟨[quote, backslash, 0x71, quote], by simp, by decide⟩, [backslash, 0x71, quote], rfl,
    by decide +kernel, by decide +kernel⟩

end Cobalt.Json
