/-
Cobalt.Json.SaxScalars — the streaming parser on numbers and literal names.

What `parse_number` accepts is a number of the grammar and it stops right
after it; and a number that no further byte of the input belongs to is
accepted. The three literal names are found where they stand.
-/
import Cobalt.Json.SaxStrings

namespace Cobalt.Json.Sax

open SaxParser List Bool

variable {D : Type} {p p' : SaxParser D} {s : List UInt8}

/-! ## Sequences -/

lemma andThen_eq_true {r : Out D} {rest : SaxParser D → Out D}
    (h : r.andThen rest = (true, p')) : ∃ p1, r = (true, p1) ∧ rest p1 = (true, p') := by
  obtain ⟨ok, p1⟩ := r
  cases ok with
  | false => cases h
  | true => exact ⟨p1, rfl, h⟩

/-! ## Digits -/

lemma reads_digitLoop (n : Nat) (p : SaxParser D) (hn : p.rest.length ≤ n) :
    Reads p (p.rest.takeWhile isDigit) [] (digitLoop n p) := by
  induction n generalizing p with
  | zero =>
    rw [length_eq_zero_iff.mp (Nat.le_zero.mp hn)]
    exact .refl p
  | succ n ih =>
    rw [digitLoop]
    cases hrest : p.rest with
    | nil =>
      rw [if_neg (by simp [rest_eq_nil_iff.mp hrest])]
      exact .refl p
    | cons b t =>
      cases hb : isDigit b with
      | false =>
        rw [if_neg (by simp [load_of_rest hrest, hb]), takeWhile_cons_of_neg (by simp [hb])]
        exact .refl p
      | true =>
        have h1 : Reads p [b] [] (p.advance 1) := .advance hrest rfl
        have hr1 : (p.advance 1).rest = t := h1.rest_eq hrest
        have hlen := h1.length_rest
        rw [if_pos (by simp [lt_of_rest hrest, load_of_rest hrest, hb]), takeWhile_cons_of_pos hb]
        have h2 := ih (p.advance 1) (by simp at hlen; omega)
        rw [hr1] at h2
        exact h1.trans h2

lemma reads_scanDigits (p : SaxParser D) : Reads p (p.rest.takeWhile isDigit) [] (scanDigits p) :=
  reads_digitLoop _ p (le_of_eq length_rest)

variable {b : UInt8} {t ds l : List UInt8}

lemma digits_takeWhile (hb : isDigit b = true) : Digits ((b :: t).takeWhile isDigit) :=
  ⟨by simp [hb], fun _ hx => mem_takeWhile_imp hx⟩

lemma takeWhile_digits (hd : ∀ b ∈ ds, isDigit b = true) (hs : ∀ b ∈ s.head?, isDigit b = false) :
    (ds ++ s).takeWhile isDigit = ds := by
  rw [takeWhile_append_of_pos hd]
  cases s with
  | nil => simp
  | cons b s => simp [hs b rfl]

lemma parseDigits_sound {msg : String} (h : parseDigits msg p = (true, p')) :
    ∃ ds, Digits ds ∧ Reads p ds [] p' := by
  rw [parseDigits] at h
  split at h
  · cases h
  · rename_i hd
    cases h
    cases hrest : p.rest with
    | nil => exact absurd (by simp [rest_eq_nil_iff.mp hrest]) hd
    | cons b t =>
      have hb : isDigit b = true := by
        by_contra hne
        exact hd (by simp [load_of_rest hrest, hne])
      have := reads_scanDigits p
      rw [hrest] at this
      exact ⟨_, digits_takeWhile hb, this⟩

lemma parseDigits_complete (msg : String) (hd : Digits ds) (hs : ∀ b ∈ s.head?, isDigit b = false)
    (hrest : p.rest = ds ++ s) : ∃ p', parseDigits msg p = (true, p') ∧ Reads p ds [] p' := by
  obtain ⟨b, t, rfl⟩ := exists_cons_of_ne_nil hd.1
  have hb : isDigit b = true := hd.2 b mem_cons_self
  have h1 := reads_scanDigits p
  rw [hrest, takeWhile_digits hd.2 hs] at h1
  exact ⟨_, by rw [parseDigits, if_neg (by simp [lt_of_rest hrest, load_of_rest hrest, hb])], h1⟩

/-! ## The parts of a number -/

lemma parseInt_sound (hrest : p.rest = b :: t) (h : parseInt p = (true, p')) :
    ∃ i, IntPart i ∧ Reads p i [] p' := by
  rw [parseInt, load_of_rest hrest] at h
  split at h
  · rename_i hb
    obtain rfl := eq_of_beq hb
    cases h
    exact ⟨[0x30], .inl rfl, .advance hrest rfl⟩
  · rename_i hb
    split at h
    · rename_i hr
      cases h
      have hd : isDigit b = true := by
        simp only [isDigit, and_eq_true, decide_eq_true_eq, UInt8.le_iff_toNat_le] at hr ⊢
        simp at hr ⊢
        omega
      have h1 := reads_scanDigits p
      rw [hrest] at h1
      refine ⟨_, .inr ⟨digits_takeWhile hd, ?_⟩, h1⟩
      simpa [hd] using hb
    · cases h

lemma parseInt_complete {i : List UInt8} (hi : IntPart i)
    (hs : ∀ b ∈ s.head?, isDigit b = false) (hrest : p.rest = i ++ s) :
    ∃ p', parseInt p = (true, p') ∧ Reads p i [] p' := by
  rcases hi with rfl | ⟨hd, hzero⟩
  · exact ⟨_, by rw [parseInt, load_of_rest hrest]; rfl, .advance hrest rfl⟩
  · have h1 := reads_scanDigits p
    rw [hrest, takeWhile_digits hd.2 hs] at h1
    refine ⟨_, ?_, h1⟩
    obtain ⟨b, t, rfl⟩ := exists_cons_of_ne_nil hd.1
    have hb : isDigit b = true := hd.2 b mem_cons_self
    have hne : b ≠ 0x30 := by simpa using hzero
    rw [parseInt, load_of_rest hrest, if_neg (by simpa using hne), if_pos]
    simp only [isDigit, and_eq_true, decide_eq_true_eq, UInt8.le_iff_toNat_le, ne_eq,
      ← UInt8.toNat_inj] at hb hne ⊢
    simp at hb hne ⊢
    omega

lemma parseFrac_sound (h : parseFrac p = (true, p')) : ∃ f, Frac f ∧ Reads p f [] p' := by
  rw [parseFrac] at h
  split at h
  · rename_i hsees
    obtain ⟨t, ht⟩ := sees_iff.mp hsees
    obtain ⟨ds, hd, h1⟩ := parseDigits_sound h
    exact ⟨_, .inr ⟨ds, rfl, hd⟩, Reads.trans (l := [0x2E]) (.advance ht rfl) h1⟩
  · cases h
    exact ⟨[], .inl rfl, .refl _⟩

lemma parseFrac_complete {f : List UInt8} (hf : Frac f)
    (hs : ∀ b ∈ s.head?, isDigit b = false ∧ b ≠ 0x2E) (hrest : p.rest = f ++ s) :
    ∃ p', parseFrac p = (true, p') ∧ Reads p f [] p' := by
  rcases hf with rfl | ⟨ds, rfl, hd⟩
  · refine ⟨p, ?_, .refl p⟩
    rw [parseFrac, if_neg]
    intro hsees
    obtain ⟨t, ht⟩ := sees_iff.mp hsees
    obtain rfl : s = 0x2E :: t := hrest.symm.trans ht
    exact (hs _ rfl).2 rfl
  · have h1 : Reads p [0x2E] [] (p.advance 1) := .advance hrest rfl
    obtain ⟨p', hp', h2⟩ := parseDigits_complete "Malformed number: expected digit after '.'" hd
      (fun b hb => (hs b hb).1) (h1.rest_eq hrest)
    exact ⟨p', by rw [parseFrac, if_pos (sees_iff.mpr ⟨_, hrest⟩), hp'], h1.trans h2⟩

lemma reads_sign (p : SaxParser D) : ∃ sign, (sign = [] ∨ sign = [0x2B] ∨ sign = [0x2D]) ∧
    Reads p sign [] (if p.sees 0x2B || p.sees 0x2D then p.advance 1 else p) := by
  split
  · rename_i hsees
    rw [or_eq_true] at hsees
    rcases hsees with hsees | hsees
    · obtain ⟨t, ht⟩ := sees_iff.mp hsees
      exact ⟨[0x2B], by simp, .advance ht rfl⟩
    · obtain ⟨t, ht⟩ := sees_iff.mp hsees
      exact ⟨[0x2D], by simp, .advance ht rfl⟩
  · exact ⟨[], by simp, .refl p⟩

lemma parseExp_sound (h : parseExp p = (true, p')) : ∃ e, Exponent e ∧ Reads p e [] p' := by
  rw [parseExp] at h
  split at h
  · rename_i hsees
    obtain ⟨e, t, he, ht⟩ : ∃ e t, (e = 0x65 ∨ e = 0x45) ∧ p.rest = e :: t := by
      rw [or_eq_true] at hsees
      rcases hsees with hsees | hsees
      · exact ⟨_, _, .inl rfl, (sees_iff.mp hsees).choose_spec⟩
      · exact ⟨_, _, .inr rfl, (sees_iff.mp hsees).choose_spec⟩
    have h1 : Reads p [e] [] (p.advance 1) := .advance ht rfl
    obtain ⟨sign, hsign, h2⟩ := reads_sign (p.advance 1)
    obtain ⟨ds, hd, h3⟩ := parseDigits_sound h
    exact ⟨e :: (sign ++ ds), .inr ⟨e, sign, ds, rfl, he, hsign, hd⟩, h1.trans (h2.trans h3)⟩
  · cases h
    exact ⟨[], .inl rfl, .refl _⟩

lemma reads_sign_of {sign : List UInt8} (hsign : sign = [] ∨ sign = [0x2B] ∨ sign = [0x2D])
    (hd : Digits ds) (hrest : p.rest = sign ++ (ds ++ s)) :
    Reads p sign [] (if p.sees 0x2B || p.sees 0x2D then p.advance 1 else p) := by
  rcases hsign with rfl | rfl | rfl
  · obtain ⟨b, t, rfl⟩ := exists_cons_of_ne_nil hd.1
    have hb : isDigit b = true := hd.2 b mem_cons_self
    rw [if_neg]
    · exact .refl p
    · rw [sees_eq, sees_eq, hrest]
      simp only [nil_append, cons_append, head?_cons, or_eq_true, beq_iff_eq, Option.some.injEq]
      rintro (rfl | rfl) <;> exact absurd hb (by decide)
  · rw [if_pos (by simp [sees_iff.mpr ⟨_, hrest⟩])]
    exact .advance hrest rfl
  · rw [if_pos (by simp [sees_iff.mpr ⟨_, hrest⟩])]
    exact .advance hrest rfl

lemma parseExp_complete {e : List UInt8} (he : Exponent e) (hs : NumberEnd s)
    (hrest : p.rest = e ++ s) : ∃ p', parseExp p = (true, p') ∧ Reads p e [] p' := by
  rcases he with rfl | ⟨x, sign, ds, rfl, hx, hsign, hd⟩
  · refine ⟨p, ?_, .refl p⟩
    rw [parseExp, if_neg]
    intro hsees
    rw [sees_eq, sees_eq, hrest, nil_append, or_eq_true, beq_iff_eq, beq_iff_eq] at hsees
    rcases hsees with hsees | hsees
    · exact (hs _ hsees).2.2.1 rfl
    · exact (hs _ hsees).2.2.2 rfl
  · have h1 : Reads p [x] [] (p.advance 1) := .advance hrest rfl
    have hr1 : (p.advance 1).rest = sign ++ (ds ++ s) := by
      rw [← append_assoc]
      exact h1.rest_eq hrest
    have h2 := reads_sign_of hsign hd hr1
    obtain ⟨p', hp', h3⟩ := parseDigits_complete "Malformed number: expected exponent digits" hd
      (fun b hb => (hs b hb).1) (h2.rest_eq hr1)
    refine ⟨p', ?_, h1.trans (h2.trans h3)⟩
    rw [parseExp, if_pos]
    · exact hp'
    · rw [or_eq_true]
      rcases hx with rfl | rfl
      · exact .inl (sees_iff.mpr ⟨_, hrest⟩)
      · exact .inr (sees_iff.mpr ⟨_, hrest⟩)

/-! ## Numbers -/

lemma scanNumber_sound (hrest : p.rest = b :: t) (h : scanNumber p = (true, p')) :
    ∃ l, Number l ∧ Reads p l [] p' := by
  obtain ⟨m, hm, h1⟩ : ∃ m, Minus m ∧
      Reads p m [] (if p.load p.pos == 0x2D then p.advance 1 else p) := by
    rw [load_of_rest hrest]
    split
    · rename_i hb
      obtain rfl := eq_of_beq hb
      exact ⟨[0x2D], .inr rfl, .advance hrest rfl⟩
    · exact ⟨[], .inl rfl, .refl p⟩
  rw [scanNumber] at h
  generalize (if p.load p.pos == 0x2D then p.advance 1 else p) = p1 at h h1
  cases hr1 : p1.rest with
  | nil => rw [if_pos (rest_eq_nil_iff.mp hr1)] at h; cases h
  | cons b' t' =>
    rw [if_neg (Nat.not_le.mpr (lt_of_rest hr1))] at h
    obtain ⟨p2, hint, h⟩ := andThen_eq_true h
    obtain ⟨p3, hfrac, hexp⟩ := andThen_eq_true h
    obtain ⟨i, hi, h2⟩ := parseInt_sound hr1 hint
    obtain ⟨f, hf, h3⟩ := parseFrac_sound hfrac
    obtain ⟨e, he, h4⟩ := parseExp_sound hexp
    exact ⟨_, ⟨m, i, f, e, rfl, hm, hi, hf, he⟩, h1.trans (h2.trans (h3.trans h4))⟩

lemma scanNumber_complete (hl : Number l) (hs : NumberEnd s) (hrest : p.rest = l ++ s) :
    ∃ p', scanNumber p = (true, p') ∧ Reads p l [] p' := by
  obtain ⟨m, i, f, e, rfl, hm, hi, hf, he⟩ := hl
  simp only [append_assoc] at hrest
  obtain ⟨b, t, hbt⟩ := exists_cons_of_ne_nil hi.digits.1
  have hb : isDigit b = true := hi.digits.2 b (by simp [hbt])
  have h1 : Reads p m [] (if p.load p.pos == 0x2D then p.advance 1 else p) := by
    rcases hm with rfl | rfl
    · rw [nil_append, hbt] at hrest
      rw [load_of_rest hrest, if_neg]
      · exact .refl p
      · intro hminus
        rw [eq_of_beq hminus] at hb
        cases hb
    · rw [load_of_rest hrest]
      exact .advance hrest rfl
  have hr1 := h1.rest_eq hrest
  rw [scanNumber]
  generalize (if p.load p.pos == 0x2D then p.advance 1 else p) = p1 at h1 hr1
  obtain ⟨p2, hint, h2⟩ := parseInt_complete hi (hf.head he hs) hr1
  have hr2 := h2.rest_eq hr1
  obtain ⟨p3, hfrac, h3⟩ := parseFrac_complete hf (he.stop hs) hr2
  obtain ⟨p4, hexp, h4⟩ := parseExp_complete he hs (h3.rest_eq hr2)
  refine ⟨p4, ?_, h1.trans (h2.trans (h3.trans h4))⟩
  rw [hbt] at hr1
  rw [if_neg (Nat.not_le.mpr (lt_of_rest hr1)), hint]
  simp only [Out.andThen, hfrac, hexp]

section Handler

variable {handler : Handler D} (strtod : List UInt8 → D)

lemma Reads.take {es : List (Event D)} (h : Reads p l es p') :
    p.rest.take (p'.pos - p.pos) = l := by
  rw [h.pos, Nat.add_sub_cancel_left, h.rest, take_left]

lemma parseNumber_sound {b : UInt8} {t : List UInt8} (hrest : p.rest = b :: t)
    (h : parseNumber handler strtod p = (true, p')) :
    ∃ l, Number l ∧ Reads p l (handler.hears [.number (strtod l) l]) p' := by
  obtain ⟨p1, hscan, h⟩ := andThen_eq_true h
  obtain ⟨l, hl, h1⟩ := scanNumber_sound hrest hscan
  dsimp only at h
  rw [h1.take] at h
  split at h
  · rename_i hcall
    cases h
    have h2 : Reads p1 [] (handler.hears [.number (strtod l) l]) _ := call_sound hcall
    exact ⟨l, hl, by simpa using h1.trans h2⟩
  · cases h

lemma parseNumber_complete (ha : handler.Accepts) (hl : Number l) (hs : NumberEnd s)
    (hrest : p.rest = l ++ s) :
    ∃ p', parseNumber handler strtod p = (true, p') ∧
      Reads p l (handler.hears [.number (strtod l) l]) p' := by
  obtain ⟨p1, hscan, h1⟩ := scanNumber_complete hl hs hrest
  obtain ⟨p', hcall⟩ := call_complete (p := p1) ha (.number (strtod l) l)
  have h2 := h1.trans (call_sound hcall)
  refine ⟨p', ?_, by simpa using h2⟩
  rw [parseNumber, hscan]
  simp only [Out.andThen, h1.take]
  rw [show handler.onNumber = handler.callback (.number (strtod l) l) from rfl, hcall]

/-! ## Literal names -/

lemma parseWord_sound (h : parseWord handler p = (true, p')) :
    ∃ word e, ((word = trueText ∧ e = .bool true) ∨ (word = falseText ∧ e = .bool false) ∨
      (word = nullText ∧ e = .null)) ∧ Reads p word (handler.hears [e]) p' := by
  rw [parseWord] at h
  split at h
  · rename_i hsees
    obtain ⟨t, ht⟩ := (seesWord_iff (by decide)).mp hsees
    have h1 : Reads p trueText [] (p.advance 4) := .advance ht rfl
    have h2 : Reads _ [] (handler.hears [.bool true]) p' := emit_sound h
    exact ⟨_, _, .inl ⟨rfl, rfl⟩, by simpa using h1.trans h2⟩
  · split at h
    · rename_i hsees
      obtain ⟨t, ht⟩ := (seesWord_iff (by decide)).mp hsees
      have h1 : Reads p falseText [] (p.advance 5) := .advance ht rfl
      have h2 : Reads _ [] (handler.hears [.bool false]) p' := emit_sound h
      exact ⟨_, _, .inr (.inl ⟨rfl, rfl⟩), by simpa using h1.trans h2⟩
    · split at h
      · rename_i hsees
        obtain ⟨t, ht⟩ := (seesWord_iff (by decide)).mp hsees
        have h1 : Reads p nullText [] (p.advance 4) := .advance ht rfl
        have h2 : Reads _ [] (handler.hears [.null]) p' := emit_sound h
        exact ⟨_, _, .inr (.inr ⟨rfl, rfl⟩), by simpa using h1.trans h2⟩
      · cases h

lemma not_seesWord (word : List UInt8) {c : UInt8} {u : List UInt8} (hrest : p.rest = b :: t)
    (hword : word = c :: u) (hne : b ≠ c) : p.seesWord word = false := by
  rw [eq_false_iff]
  intro hsees
  obtain ⟨r, hr⟩ := (seesWord_iff (by simp [hword])).mp hsees
  rw [hrest, hword] at hr
  exact hne (List.cons.inj hr).1

lemma parseWord_complete (ha : handler.Accepts) {word : List UInt8} {e : Event D}
    (hword : (word = trueText ∧ e = .bool true) ∨ (word = falseText ∧ e = .bool false) ∨
      (word = nullText ∧ e = .null)) (hrest : p.rest = word ++ s) :
    ∃ p', parseWord handler p = (true, p') ∧ Reads p word (handler.hears [e]) p' := by
  rw [parseWord]
  rcases hword with ⟨rfl, rfl⟩ | ⟨rfl, rfl⟩ | ⟨rfl, rfl⟩
  · have h1 : Reads p trueText [] (p.advance 4) := .advance hrest rfl
    obtain ⟨p', hemit, h2⟩ := emit_complete (p := p.advance 4) ha (.bool true)
      "User aborted in on_bool"
    rw [if_pos ((seesWord_iff (by decide)).mpr ⟨s, hrest⟩)]
    exact ⟨p', hemit, by simpa using h1.trans h2⟩
  · have h1 : Reads p falseText [] (p.advance 5) := .advance hrest rfl
    obtain ⟨p', hemit, h2⟩ := emit_complete (p := p.advance 5) ha (.bool false)
      "User aborted in on_bool"
    rw [not_seesWord trueText hrest rfl (by decide), if_neg (by decide),
      if_pos ((seesWord_iff (by decide)).mpr ⟨s, hrest⟩)]
    exact ⟨p', hemit, by simpa using h1.trans h2⟩
  · have h1 : Reads p nullText [] (p.advance 4) := .advance hrest rfl
    obtain ⟨p', hemit, h2⟩ := emit_complete (p := p.advance 4) ha .null "User aborted in on_null"
    rw [not_seesWord trueText hrest rfl (by decide), if_neg (by decide),
      not_seesWord falseText hrest rfl (by decide), if_neg (by decide),
      if_pos ((seesWord_iff (by decide)).mpr ⟨s, hrest⟩)]
    exact ⟨p', hemit, by simpa using h1.trans h2⟩

end Handler

end Cobalt.Json.Sax
