/-
Cobalt.Json.SaxRun — the errors of the streaming parser.

A call that fails has filled in the error record. Where the fuel of the model
runs out it fails without a report: with `valueFuel` that never happens, as
every third call is for less text.
-/
import Cobalt.Json.SaxValues

namespace Cobalt.Json.Sax

open List SaxParser

variable {D : Type} {handler : Handler D} {strtod : List UInt8 → D} {p q : SaxParser D}

/-- The cursor has not gone back over the input, and the error record is as it was. -/
@[grind]
def Keeps (p q : SaxParser D) : Prop := q.len = p.len ∧ p.pos ≤ q.pos ∧ q.err = p.err

lemma Keeps.refl (p : SaxParser D) : Keeps p p := ⟨rfl, le_rfl, rfl⟩

/-- A call that fails has put a code in the error record. -/
@[grind]
def Tells (p : SaxParser D) (r : Out D) : Prop :=
  if r.1 then Keeps p r.2 else p.err.isSome → ∃ e ∈ r.2.err, e.code ≠ .ok

@[grind =]
lemma setError_fst (c : ErrCode) (msg : String) : (p.setError c msg).1 = false := rfl

lemma setError_err (c : ErrCode) (msg : String) (h : p.err.isSome) :
    ∃ e ∈ (p.setError c msg).2.err, e.code = c := by
  obtain ⟨e, he⟩ := Option.isSome_iff_exists.mp h
  exact ⟨_, Option.map_eq_some_iff.mpr ⟨e, he, rfl⟩, rfl⟩

grind_pattern setError_err => p.setError c msg

lemma Tells.after {r : Out D} (h : Tells q r) (hq : Keeps p q) : Tells p r := by grind

lemma Tells.andThen {r : Out D} {f : SaxParser D → Out D} (h : Tells p r)
    (hf : ∀ q, Keeps p q → Tells p (f q)) : Tells p (r.andThen f) := by
  rcases r with ⟨_ | _, q⟩
  · exact h
  · exact hf q h

lemma keeps_advance (p : SaxParser D) (n : Nat) : Keeps p (p.advance n) :=
  ⟨rfl, Nat.le_add_right .., rfl⟩

grind_pattern keeps_advance => p.advance n

lemma keeps_skip (p : SaxParser D) : Keeps p (skipWhitespace p) := by
  unfold skipWhitespace
  generalize p.len - p.pos = n
  fun_induction skipLoop n p <;> grind [len]

grind_pattern keeps_skip => skipWhitespace p

lemma left_skip_le (p : SaxParser D) : (skipWhitespace p).rest.length ≤ p.rest.length := by
  grind [length_rest]

lemma keeps_scanDigits (p : SaxParser D) : Keeps p (scanDigits p) := by
  unfold scanDigits
  generalize p.len - p.pos = n
  fun_induction digitLoop n p <;> grind

grind_pattern keeps_scanDigits => scanDigits p

@[grind .]
lemma tells_emit {cb : Callback D} {e : Event D} {msg : String} (h : Keeps p q) :
    Tells p (q.emit cb e msg) := by
  unfold emit call
  grind [len]

lemma tells_parseNumber (p : SaxParser D) : Tells p (parseNumber handler strtod p) := by
  refine Tells.andThen ?_ fun q hq => ?_
  · fun_cases scanNumber p
    · grind
    · refine Tells.andThen ?_ fun q hq => Tells.andThen ?_ fun q hq => ?_
      · grind [parseInt]
      · grind [parseFrac, parseDigits]
      · grind [parseExp, parseDigits]
  · dsimp only [call]
    split <;> grind [len]

lemma tells_parse4hexLoop (n cp : Nat) (p : SaxParser D) :
    Tells p ((parse4hexLoop n cp p).1.isSome, (parse4hexLoop n cp p).2) := by
  fun_induction parse4hexLoop n cp p <;> grind

@[grind →]
lemma tells_parse4hex {o : Option Nat} (hr : parse4hex p = (o, q)) : Tells p (o.isSome, q) := by
  grind [parse4hex, tells_parse4hexLoop]

@[grind →]
lemma tells_lowSurrogate {cp : Nat} {o : Option Nat} (hr : lowSurrogate cp p = (o, q)) :
    Tells p (o.isSome, q) := by
  rw [lowSurrogate] at hr
  split at hr <;> grind

lemma tells_parseEscape {o : Option (List UInt8)} (hr : parseEscape p = (o, q)) :
    Tells (p.advance 1) (o.isSome, q) := by
  unfold parseEscape unicodeEscape at hr
  grind

lemma segLen_pos (hp : p.pos < p.len) (h : stops (p.load p.pos) = false) :
    0 < (scanUnescaped p.str p.pos).pos - p.pos := by
  obtain ⟨b, s, hrest⟩ := exists_cons_of_ne_nil (mt rest_eq_nil_iff.mp (Nat.not_le.mpr hp))
  rw [load_of_rest hrest] at h
  simp [segLen_eq, plainRun, hrest, h]

@[grind →]
lemma tells_stringLoop {n : Nat} {out : List UInt8} {o : Option (List UInt8)}
    (hr : stringLoop n out p = (o, q)) (hn : p.len - p.pos < n) : Tells p (o.isSome, q) := by
  induction n generalizing out p with
  | zero => omega
  | succ n ih =>
    have hpos := @segLen_pos D p
    rw [stringLoop] at hr
    grind [stops, → tells_parseEscape, advance, len]

@[grind .]
lemma tells_parseString {isKey : Bool} (p : SaxParser D) :
    Tells p (parseString handler isKey p) := by
  fun_cases parseString handler isKey p <;> grind [emitString]

lemma tells_parseWord (p : SaxParser D) : Tells p (parseWord handler p) := by grind [parseWord]

lemma tells_parseKey (p : SaxParser D) : Tells p (parseKey handler p) := by
  fun_cases parseKey handler p
  · grind
  · refine Tells.andThen ((tells_parseString _).after (keeps_skip p)) fun q hq => ?_
    grind

/-- What `parse_object` and `parse_array` share: a bracket, the loop, and the end. -/
lemma tells_container {cb : Callback D} {e : Event D} {msg : String} {b : UInt8}
    {loop close : SaxParser D → Out D} (hclose : ∀ q, Tells q (close q))
    (hloop : ∀ q, Keeps (p.advance 1) q → Tells q (loop q)) :
    Tells p (({ p.advance 1 with depth := p.depth + 1 }.emit cb e msg).andThen fun q =>
      let q := skipWhitespace q
      if q.sees b then close (q.advance 1) else (loop q).andThen close) := by
  refine Tells.after (q := p.advance 1) ?_ (keeps_advance p 1)
  refine Tells.andThen (tells_emit ⟨rfl, le_rfl, rfl⟩) fun q hq => ?_
  have hskip : Keeps (p.advance 1) (skipWhitespace q) := by grind
  dsimp only
  split
  · exact (hclose _).after (by grind)
  · refine ((hloop _ hskip).after hskip).andThen fun q' hq' => ?_
    exact (hclose q').after hq'

/-- What their loops share: after a value comes a comma or the bracket. -/
lemma tells_next {r : Out D} {b : UInt8} {msg : String} {loop : SaxParser D → Out D}
    (hr : Tells p r) (hloop : ∀ q, Keeps (p.advance 1) q → Tells q (loop q)) :
    Tells p (r.andThen fun q =>
      let q := skipWhitespace q
      if q.sees comma then loop (q.advance 1)
      else if q.sees b then (true, q.advance 1)
      else q.setError .unexpectedChar msg) := by
  refine hr.andThen fun q hq => ?_
  dsimp only
  split
  · exact (hloop _ (by grind [advance, len])).after (by grind)
  · grind

/-- With fuel for the text that is left, every failure is reported. -/
structure Reports (handler : Handler D) (strtod : List UInt8 → D) (n : Nat) : Prop where
  object : ∀ p : SaxParser D, p.pos < p.len → 3 * (p.len - p.pos) + 2 ≤ n →
    Tells p (parseObject handler strtod n p)
  members : ∀ p : SaxParser D, 3 * (p.len - p.pos) + 4 ≤ n → Tells p (parseMembers handler strtod n p)
  array : ∀ p : SaxParser D, p.pos < p.len → 3 * (p.len - p.pos) + 2 ≤ n →
    Tells p (parseArray handler strtod n p)
  elements : ∀ p : SaxParser D, 3 * (p.len - p.pos) + 4 ≤ n →
    Tells p (parseElements handler strtod n p)
  value : ∀ p : SaxParser D, 3 * (p.len - p.pos) + 3 ≤ n → Tells p (parseValue handler strtod n p)

lemma reports (handler : Handler D) (strtod : List UInt8 → D) (n : Nat) :
    Reports handler strtod n := by
  induction n with
  | zero => constructor <;> intros <;> omega
  | succ n ih =>
    constructor <;> intro p
    · intro hp hn
      rw [parseObject]
      split
      · grind
      · exact tells_container (fun q => tells_emit (.refl q)) fun q hq =>
          ih.members q (by grind [advance, len])
    · intro hn
      rw [parseMembers]
      split
      · refine (tells_parseKey p).andThen fun p0 hp0 => Tells.after ?_ hp0
        refine tells_next ((ih.value _ ?_).after (keeps_skip p0)) fun q hq => ih.members q ?_
        all_goals grind [advance, len]
      · grind
    · intro hp hn
      rw [parseArray]
      split
      · grind
      · exact tells_container (fun q => tells_emit (.refl q)) fun q hq =>
          ih.elements q (by grind [advance, len])
    · intro hn
      rw [parseElements]
      split
      · refine tells_next ((ih.value _ ?_).after (keeps_skip p)) fun q hq => ih.elements q ?_
        all_goals grind [advance, len]
      · grind
    · intro hn
      have hobject := ih.object (skipWhitespace p)
      have harray := ih.array (skipWhitespace p)
      rw [parseValue]
      refine Tells.after ?_ (keeps_skip p)
      grind [tells_parseNumber, tells_parseWord]

lemma tells_parseRoot (bytes : List UInt8) (err : Option Error) :
    Tells (start bytes err) (parseRoot handler strtod bytes err) := by
  have hskip := keeps_skip (start bytes err : SaxParser D)
  rw [parseRoot]
  dsimp only
  split
  · grind
  · refine (((reports handler strtod _).value _ le_rfl).after hskip).andThen fun q hq => ?_
    grind

/-- Every failure is reported, and nothing else is: whatever the text and the callbacks are, as
long as there is memory, the code in the error record is `ok` at the end exactly if the answer is
true. -/
theorem cobaltJsonSaxParse_reports (strtod : List UInt8 → D) (jsonStr : Option (List UInt8))
    (handler : Option (Handler D)) :
    ∃ e, (cobaltJsonSaxParse strtod jsonStr handler true).err = some e ∧
      (e.code = .ok ↔ (cobaltJsonSaxParse strtod jsonStr handler true).ok = true) := by
  rcases jsonStr with _ | bytes <;> rcases handler with _ | handler
  case some.some =>
    have htells := @tells_parseRoot D handler strtod bytes (some ⟨.ok, 0, 1, 1, ""⟩)
    rw [Tells] at htells
    split at htells
    · exact ⟨_, htells.2.2, by simp_all [cobaltJsonSaxParse]⟩
    · obtain ⟨e, he, hcode⟩ := htells rfl
      exact ⟨e, he, by simp_all [cobaltJsonSaxParse]⟩
  all_goals exact ⟨_, rfl, by simp [cobaltJsonSaxParse]⟩

end Cobalt.Json.Sax
