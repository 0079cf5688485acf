/-
Cobalt.Json.DomRun — what the DOM parser can do to its context.

`Reaches` lists the steps the recursive functions are made of: a read of
the text, a use of a block, a move of the cursor, a request, a whole string
literal, and what happens inside a container. `parsersReach` says that
every function goes from the context it gets to the one it returns by such
steps, on any text and with any arena; an invariant of the parser is then
an induction over `Reaches`.

The first one is `Ctx.Ext`: same text, a cursor that only moves forward and
stays inside the text, a nesting cap once hit that stays hit, no fewer open
containers, and a log that only grows. With it, `jsonParseValue_fuel` says
that the answer is the same for any fuel from `valueFuel` on.
-/
import Cobalt.Json.DomCursor

namespace Cobalt.Json

open List

/-- `c'` is reached from `c`. -/
structure Ctx.Ext (c c' : Ctx) : Prop where
  str : c'.str = c.str
  pos : c.pos ≤ c'.pos
  le : c.pos ≤ c.len → c'.pos ≤ c.len
  capped : c.depthExceeded = true → c'.depthExceeded = true
  depth : c.depth ≤ c'.depth
  log : c.log <:+ c'.log

namespace Ctx

variable {c c' c'' : Ctx}

namespace Ext

lemma refl (c : Ctx) : c.Ext c := ⟨rfl, le_refl _, id, id, le_refl _, suffix_refl _⟩

lemma len (h : c.Ext c') : c'.len = c.len := by rw [Ctx.len, h.str]; rfl

lemma trans (h : c.Ext c') (h' : c'.Ext c'') : c.Ext c'' where
  str := h'.str.trans h.str
  pos := le_trans h.pos h'.pos
  le hle := h.len ▸ h'.le (h.len.symm ▸ h.le hle)
  capped hc := h'.capped (h.capped hc)
  depth := le_trans h.depth h'.depth
  log := h.log.trans h'.log

lemma of_eq (hs : c'.str = c.str) (hp : c'.pos = c.pos)
    (hd : c'.depthExceeded = c.depthExceeded) (hk : c.depth ≤ c'.depth) (hl : c'.log = c.log) :
    c.Ext c' := ⟨hs, hp ▸ le_refl _, fun h => hp ▸ h, fun h => hd ▸ h, hk, hl ▸ suffix_refl _⟩

lemma record (c : Ctx) (a : Access) : c.Ext (c.record a) :=
  ⟨rfl, le_refl _, id, id, le_refl _, suffix_cons ..⟩

lemma advance {n : Nat} (h : c.pos + n ≤ c.len) : c.Ext (c.advance n) :=
  ⟨rfl, Nat.le_add_right .., fun _ => h, id, le_refl _, suffix_refl _⟩

lemma jalloc (arena : Arena) (size : Nat) (c : Ctx) : c.Ext (jalloc arena size c).2 :=
  of_eq rfl rfl rfl (le_refl _) rfl

end Ext

/-- A test either finds the byte at a cursor inside the text or fails; the
cursor stays. -/
lemma test_cases (c : Ctx) (b : UInt8) :
    (c.test b).2.pos = c.pos ∧ c.Ext (c.test b).2 ∧ ((c.test b).1 = true → c.pos < c.len) := by
  rw [Ctx.test]
  split
  · exact ⟨rfl, Ext.record _ _, fun _ => ‹_›⟩
  · exact ⟨rfl, Ext.refl _, fun h => by cases h⟩

end Ctx

open Ctx

variable {b : UInt8} {c c' c1 : Ctx}

lemma ext_test_step (h : c.test b = (true, c1)) :
    c.Ext (c1.advance 1) ∧ c.pos < c1.pos + 1 ∧ c.pos < c.len := by
  have htest := c.test_cases b
  simp only [h, forall_const] at htest
  obtain ⟨hp, he, hlt⟩ := htest
  have hl := he.len
  exact ⟨he.trans (Ext.advance (by omega)), by omega, hlt⟩

variable {x ok : Bool}

lemma ext_test (h : c.test b = (x, c1)) : c.Ext c1 := by
  have := (c.test_cases b).2.1
  rwa [h] at this

/-! ## String literals -/

lemma Ctx.Ext.extend (h : c.Ext c') (a : Access) : c.Ext (c'.record a) :=
  h.trans (Ext.record c' a)

/-- The cursor after an escape is still before the byte that ends it. -/
lemma ext_unicodeEscape {esc : Option (List UInt8)}
    (h : unicodeEscape c = (esc, c')) : c.Ext c' ∧ (esc.isSome → c'.pos < c.len) := by
  have hrec : ∀ a, c.Ext (c.record a) := Ext.record c
  rw [unicodeEscape] at h
  dsimp only [Ctx.loadRange, Ctx.load] at h
  split at h
  · cases h; exact ⟨Ext.refl c, fun h => by cases h⟩
  · split at h
    · split at h
      · split at h
        · split at h
          · split at h
            · cases h
              rename_i hlt _ _ _
              exact ⟨((((hrec _).extend _).extend _).extend _).trans (Ext.advance (le_of_lt hlt)),
                fun _ => hlt⟩
            · cases h; exact ⟨(((hrec _).extend _).extend _).extend _, fun h => by cases h⟩
          · cases h; exact ⟨((hrec _).extend _).extend _, fun h => by cases h⟩
        · cases h; exact ⟨(hrec _).extend _, fun h => by cases h⟩
      · cases h; exact ⟨hrec _, fun h => by cases h⟩
    · split at h
      · cases h; exact ⟨hrec _, fun h => by cases h⟩
      · cases h
        rename_i hge _ _
        have hlt := Nat.lt_of_not_le hge
        exact ⟨(hrec _).trans (Ext.advance (le_of_lt hlt)), fun _ => hlt⟩

lemma ext_jsonEscape {esc : Option (List UInt8)} (h : jsonEscape b c = (esc, c'))
    (hc : c.pos < c.len) : c.Ext c' ∧ (esc.isSome → c'.pos < c.len) := by
  rw [jsonEscape] at h
  split at h
  · cases h; exact ⟨Ext.refl c, fun _ => hc⟩
  · split at h
    · exact ext_unicodeEscape h
    · cases h; exact ⟨Ext.refl c, fun _ => hc⟩

section Arena

variable (arena : Arena)

lemma ext_jrealloc (buf : StrBuf) (newSize : Nat) (c : Ctx) :
    c.Ext (jrealloc arena buf newSize c).2 ∧ (jrealloc arena buf newSize c).2.pos = c.pos := by
  rw [jrealloc]
  dsimp only [jalloc]
  split
  · exact ⟨((Ext.jalloc arena newSize c).extend _).extend _, rfl⟩
  · exact ⟨Ext.jalloc arena newSize c, rfl⟩

lemma ext_growForEscape (buf : StrBuf) (elen : Nat) (c : Ctx) :
    c.Ext (growForEscape arena buf elen c).2
      ∧ (growForEscape arena buf elen c).2.pos = c.pos := by
  rw [growForEscape]
  split
  · exact ext_jrealloc ..
  · exact ⟨Ext.refl c, rfl⟩

lemma ext_growForByte (buf : StrBuf) (c : Ctx) :
    c.Ext (growForByte arena buf c).2 ∧ (growForByte arena buf c).2.pos = c.pos := by
  rw [growForByte]
  split
  · exact ext_jrealloc ..
  · exact ⟨Ext.refl c, rfl⟩

lemma ext_appendEscape {buf : StrBuf} {res : Option StrBuf}
    (hc : c.pos < c.len) (h : appendEscape arena buf c = (res, c')) :
    c.Ext c' ∧ (res.isSome → c.pos < c'.pos) := by
  have h1 : c.Ext (c.advance 1) := Ext.advance hc
  rw [appendEscape] at h
  dsimp only [Ctx.load] at h
  split at h
  · cases h; exact ⟨h1, fun h => by cases h⟩
  · rename_i hlt
    have h2 := h1.extend (.text (c.pos + 1) 1)
    split at h
    · rename_i c3 hesc
      cases h
      exact ⟨h2.trans (ext_jsonEscape hesc (Nat.lt_of_not_le hlt)).1, fun h => by cases h⟩
    · rename_i esc c3 hesc
      obtain ⟨h3, hp3⟩ := ext_jsonEscape hesc (Nat.lt_of_not_le hlt)
      have hg := ext_growForEscape arena buf esc.length c3
      have h4 := (h2.trans h3).trans hg.1
      split at h
      · rename_i c4 hg4
        rw [hg4] at h4
        cases h
        exact ⟨h4, fun h => by cases h⟩
      · rename_i buf' c4 hg4
        rw [hg4] at hg h4
        have hlen : c4.len = c.len := h4.len
        have hpos := h3.pos
        have hp : c4.pos = c3.pos := hg.2
        have hlt3 := hp3 rfl
        simp only [len_record, len_advance, pos_record, pos_advance] at hlt hlt3 hpos
        cases h
        refine ⟨(h4.extend _).trans (Ext.advance ?_), fun _ => ?_⟩
        · change c4.pos + 1 ≤ c4.len
          omega
        · simp only [Ctx.touch, pos_record, pos_advance]; omega

lemma ext_appendByte {buf : StrBuf} {res : Option StrBuf} (hc : c.pos < c.len)
    (h : appendByte arena buf b c = (res, c')) : c.Ext c' ∧ (res.isSome → c.pos < c'.pos) := by
  rw [appendByte] at h
  have hg := ext_growForByte arena buf c
  split at h
  · rename_i c1 hg1
    rw [hg1] at hg
    cases h
    exact ⟨hg.1, fun h => by cases h⟩
  · rename_i buf' c1 hg1
    rw [hg1] at hg
    have hlen := hg.1.len
    have hp : c1.pos = c.pos := hg.2
    cases h
    refine ⟨(hg.1.extend _).trans (Ext.advance ?_), fun _ => ?_⟩
    · simp only [len_record, pos_record] at hlen ⊢; omega
    · simp only [Ctx.touch, pos_record, pos_advance]; omega

lemma ext_stringLoop (n : Nat) (buf : StrBuf) (c : Ctx) :
    c.Ext (jsonParseStringLoop arena n buf c).2 := by
  induction n generalizing buf c with
  | zero => exact Ext.refl c
  | succ n ih =>
    rw [jsonParseStringLoop]
    split
    · rename_i hlt
      have h1 := Ext.record c (.text c.pos 1)
      dsimp only [Ctx.load]
      split
      · exact h1
      · have hturn : ∀ res c', (if c.str.getD c.pos 0 == backslash
            then appendEscape arena buf (c.record (.text c.pos 1))
            else appendByte arena buf (c.str.getD c.pos 0) (c.record (.text c.pos 1)))
            = (res, c') → c.Ext c' := by
          intro res c' h
          split at h
          · exact h1.trans (ext_appendEscape arena (c := c.record _) hlt h).1
          · exact h1.trans (ext_appendByte arena (c := c.record _) hlt h).1
        split
        · exact hturn _ _ ‹_›
        · exact (hturn _ _ ‹_›).trans (ih _ _)
    · exact Ext.refl c

lemma ext_jalloc {size : Nat} (h : jalloc arena size c = (ok, c')) : c.Ext c' := by
  have := Ext.jalloc arena size c
  rwa [h] at this

variable {res : Option (List UInt8)}

lemma ext_parseString (h : jsonParseString arena c = (res, c')) : c.Ext c' := by
  rw [jsonParseString] at h
  split at h
  · cases h; exact ext_test ‹_›
  · have h1 := (ext_test_step ‹_›).1
    dsimp only at h
    split at h
    · cases h; exact (h1.extend _).trans (ext_jalloc arena ‹_›)
    · rename_i c2 ha
      have h2 := (h1.extend _).trans (ext_jalloc arena ha)
      have h3 := h2.trans (ext_stringLoop arena (c2.len - c2.pos + 1) ⟨64, []⟩ c2)
      split at h
      · rename_i c3 hl
        rw [hl] at h3
        cases h; exact h3
      · rename_i buf c3 hl
        rw [hl] at h3
        split at h
        · cases h; exact h3
        · rename_i hlt
          cases h
          exact (h3.trans (Ext.advance (Nat.lt_of_not_le hlt))).extend _

/-! ## Steps -/

/-- The contexts the parser can go to. -/
inductive Reaches : Ctx → Ctx → Prop where
  | refl (c : Ctx) : Reaches c c
  | trans {c c' c'' : Ctx} (h : Reaches c c') (h' : Reaches c' c'') : Reaches c c''
  | read {c : Ctx} (lo n : Nat) (h : lo + n ≤ c.len + 1) : Reaches c (c.record (.text lo n))
  | touch (c : Ctx) {size lo n : Nat} (h : lo + n ≤ size) : Reaches c (c.touch size lo n)
  | advance {c : Ctx} {n : Nat} (h : c.pos + n ≤ c.len) : Reaches c (c.advance n)
  | alloc (c : Ctx) (size : Nat) : Reaches c (jalloc arena size c).2
  | string {c c' : Ctx} {res : Option (List UInt8)} (h : jsonParseString arena c = (res, c')) :
      Reaches c c'
  | cap (c : Ctx) : Reaches c { c with depthExceeded := true }
  | enter (c : Ctx) : Reaches c { c with depth := c.depth + 1 }
  | inside {c c' : Ctx} (h : Reaches { c with depth := c.depth + 1 } c') : Reaches c c'.leave

variable {arena}

lemma Reaches.ext (h : Reaches arena c c') : c.Ext c' := by
  induction h with
  | refl c => exact Ext.refl c
  | trans _ _ ih ih' => exact ih.trans ih'
  | read lo n _ => exact Ext.record _ _
  | touch c _ => exact Ext.record c _
  | advance h => exact Ext.advance h
  | alloc c size => exact Ext.jalloc arena size c
  | string h => exact ext_parseString arena h
  | cap c => exact ⟨rfl, le_refl _, id, fun _ => rfl, le_refl _, suffix_refl _⟩
  | enter c => exact Ext.of_eq rfl rfl rfl (Nat.le_succ _) rfl
  | inside _ ih => exact ⟨ih.str, ih.pos, ih.le, ih.capped, Nat.le_sub_one_of_lt ih.depth, ih.log⟩

lemma Reaches.load (h : c.pos < c.len) :
    Reaches arena c (c.record (.text c.pos 1)) := .read c.pos 1 (by omega)

lemma reach_test (h : c.test b = (x, c1)) : Reaches arena c c1 := by
  rw [Ctx.test] at h
  split at h
  · cases h; exact .load ‹_›
  · cases h; exact .refl _

lemma reach_test_step (h : c.test b = (true, c1)) : Reaches arena c (c1.advance 1) := by
  have hlt := (ext_test_step h).2.2
  have htest := c.test_cases b
  simp only [h] at htest
  have hlen := htest.2.1.len
  exact (reach_test h).trans (.advance (by omega))

lemma reach_scanWhile (p : UInt8 → Bool) (n : Nat) (c : Ctx) :
    Reaches arena c (scanWhile p n c) := by
  induction n generalizing c with
  | zero => exact .refl c
  | succ n ih =>
    rw [scanWhile]
    split
    · rename_i hlt
      dsimp only [Ctx.load]
      split
      · exact ((Reaches.load hlt).trans (.advance hlt)).trans (ih _)
      · exact .load hlt
    · exact .refl c

lemma reach_skip (c : Ctx) : Reaches arena c (jsonSkipWhitespace c) := reach_scanWhile isWs _ c

lemma reach_scanMinus (c : Ctx) : Reaches arena c (scanMinus c) := by
  rw [scanMinus]
  split
  · exact reach_test_step ‹_›
  · exact reach_test ‹_›

lemma reach_scanFrac (c : Ctx) : Reaches arena c (scanFrac c) := by
  rw [scanFrac]
  split
  · exact (reach_test_step ‹_›).trans (reach_scanWhile ..)
  · exact reach_test ‹_›

lemma reach_testEither {a : UInt8} (h : c.testEither a b = (x, c1)) :
    Reaches arena c c1 ∧ (x = true → Reaches arena c (c1.advance 1)) := by
  rw [Ctx.testEither] at h
  split at h
  · cases h
    exact ⟨reach_test ‹_›, fun _ => reach_test_step ‹_›⟩
  · rename_i c2 h2
    have he : Reaches arena c c2 := reach_test h2
    refine ⟨he.trans (reach_test h), ?_⟩
    rintro rfl
    exact he.trans (reach_test_step h)

lemma reach_scanExp (c : Ctx) : Reaches arena c (scanExp c) := by
  rw [scanExp]
  split
  · exact (reach_testEither ‹_›).1
  · have h1 : Reaches arena _ _ := (reach_testEither ‹_›).2 rfl
    split
    · exact (h1.trans ((reach_testEither ‹_›).2 rfl)).trans (reach_scanWhile ..)
    · exact (h1.trans (reach_testEither ‹_›).1).trans (reach_scanWhile ..)

lemma reach_scanNumber (c : Ctx) : Reaches arena c (jsonScanNumber c) :=
  (((reach_scanMinus c).trans (reach_scanWhile ..)).trans (reach_scanFrac _)).trans
    (reach_scanExp _)

lemma reach_jalloc {size : Nat} (h : jalloc arena size c = (ok, c')) : Reaches arena c c' := by
  have : Reaches arena c (jalloc arena size c).2 := .alloc c size
  rwa [h] at this

variable {D : Type} (strtod : List UInt8 → D)

lemma reach_nodeCreate (ty : NodeType) (v : NodeValue D) (c : Ctx) :
    Reaches arena c (jsonNodeCreate arena ty v c).2 := by
  rw [jsonNodeCreate]
  split <;> exact reach_jalloc ‹_›

lemma reach_parseNumber (hc : c.pos ≤ c.len) :
    Reaches arena c (jsonParseNumber arena strtod c).2 := by
  have hscan : Reaches arena c (jsonScanNumber c) := reach_scanNumber c
  have hle := hscan.ext.le hc
  have hpos := hscan.ext.pos
  rw [jsonParseNumber]
  dsimp only [Ctx.loadRange]
  split
  · exact hscan.trans (reach_jalloc ‹_›)
  · have h1 := hscan.trans (reach_jalloc ‹_›)
    have hlen := h1.ext.len
    -- the lexeme is copied into a block of its own length and one
    refine (((h1.trans (.read _ _ ?_)).trans (.touch _ ?_)).trans (.touch _ ?_)).trans
      (reach_nodeCreate ..)
    all_goals omega

lemma reach_matchWord {word : List UInt8} (h : c.matchWord word = (x, c1)) :
    Reaches arena c c1 ∧ (x = true → Reaches arena c (c1.advance word.length)) := by
  rw [Ctx.matchWord] at h
  split at h
  · rename_i hle
    dsimp only [Ctx.loadRange] at h
    cases h
    have hread : Reaches arena c (c.record (.text c.pos word.length)) := .read _ _ (by omega)
    exact ⟨hread, fun _ => hread.trans (.advance hle)⟩
  · cases h; exact ⟨.refl _, fun h => by cases h⟩

lemma reach_parseWord (c : Ctx) : Reaches arena c (jsonParseWord (D := D) arena c).2 := by
  rw [jsonParseWord]
  split
  · exact ((reach_matchWord ‹_›).2 rfl).trans (reach_nodeCreate ..)
  · have h1 : Reaches arena _ _ := (reach_matchWord ‹_›).1
    split
    · exact (h1.trans ((reach_matchWord ‹_›).2 rfl)).trans (reach_nodeCreate ..)
    · have h2 := h1.trans (reach_matchWord ‹_›).1
      split
      · exact (h2.trans ((reach_matchWord ‹_›).2 rfl)).trans (reach_nodeCreate ..)
      · exact h2.trans (reach_matchWord ‹_›).1

lemma reach_parseStringNode (c : Ctx) :
    Reaches arena c (jsonParseStringNode (D := D) arena c).2 := by
  rw [jsonParseStringNode]
  split
  · exact .string ‹_›
  · exact (Reaches.string ‹_›).trans (reach_nodeCreate ..)

lemma reach_skip_test (h : (jsonSkipWhitespace c).test b = (x, c1)) :
    Reaches arena c c1 ∧ (x = true → Reaches arena c (c1.advance 1)) := by
  have h1 : Reaches arena c (jsonSkipWhitespace c) := reach_skip c
  refine ⟨h1.trans (reach_test h), ?_⟩
  rintro rfl
  exact h1.trans (reach_test_step h)

lemma reach_parseKey (h : jsonParseKey arena c = (res, c')) : Reaches arena c c' := by
  rw [jsonParseKey] at h
  split at h
  · cases h; exact (reach_skip_test ‹_›).1
  · have h1 : Reaches arena _ _ := (reach_skip_test ‹_›).1
    split at h
    · cases h; exact h1.trans (.string ‹_›)
    · have h2 := h1.trans (.string ‹_›)
      split at h
      · cases h; exact h2.trans (reach_skip_test ‹_›).1
      · cases h; exact h2.trans ((reach_skip_test ‹_›).2 rfl)

/-! ## The recursive functions -/

/-- What `json_parse_object` and `json_parse_array` have in common, with the
brackets, the loop and the node that is made of what the loop has read. -/
def jsonParseContainer {ι : Type} (arena : Arena) (first last : UInt8) (loop : Ctx → List ι × Ctx)
    (node : List ι → NodePtr D) (c : Ctx) : NodePtr D × Ctx :=
  if c.depth ≥ maxDepth then (.null, { c with depthExceeded := true })
  else
    match (jsonSkipWhitespace { c with depth := c.depth + 1 }).test first with
    | (false, c) => (.null, c)
    | (true, c) =>
        match jalloc arena nodeSize (c.advance 1) with
        | (false, c) => (.null, c.leave)
        | (true, c) =>
            match (jsonSkipWhitespace c).test last with
            | (true, c) => (node [], (c.advance 1).leave)
            | (false, c) =>
                match (jsonSkipWhitespace (loop c).2).test last with
                | (true, c') => (node (loop c).1, (c'.advance 1).leave)
                | (false, c') => (node (loop c).1, c'.leave)

lemma jsonParseObject_succ (n : Nat) (c : Ctx) : jsonParseObject arena strtod (n + 1) c =
    jsonParseContainer arena lbrace rbrace (jsonParseMembers arena strtod n) .objectNode c := by
  rw [jsonParseObject]
  rfl

lemma jsonParseArray_succ (n : Nat) (c : Ctx) : jsonParseArray arena strtod (n + 1) c =
    jsonParseContainer arena lbracket rbracket (jsonParseElements arena strtod n) .arrayNode c := by
  rw [jsonParseArray]
  rfl

lemma reach_container {ι : Type} {first last : UInt8} {loop : Ctx → List ι × Ctx}
    {node : List ι → NodePtr D} (hloop : ∀ c, Reaches arena c (loop c).2) (c : Ctx) :
    Reaches arena c (jsonParseContainer arena first last loop node c).2 := by
  rw [jsonParseContainer]
  split
  · exact .cap c
  · split
    · exact (Reaches.enter c).trans (reach_skip_test ‹_›).1
    · have h1 : Reaches arena _ _ := (reach_skip_test ‹_›).2 rfl
      split
      · exact .inside (h1.trans (reach_jalloc ‹_›))
      · have h2 := h1.trans (reach_jalloc ‹_›)
        split
        · exact .inside (h2.trans ((reach_skip_test ‹_›).2 rfl))
        · have h3 := (h2.trans (reach_skip_test ‹_›).1).trans (hloop _)
          split
          · exact .inside (h3.trans ((reach_skip_test ‹_›).2 rfl))
          · exact .inside (h3.trans (reach_skip_test ‹_›).1)

/-- Every recursive function goes by steps, at one fuel. -/
structure ParsersReach (arena : Arena) (strtod : List UInt8 → D) (n : Nat) : Prop where
  object : ∀ c, Reaches arena c (jsonParseObject arena strtod n c).2
  members : ∀ c, Reaches arena c (jsonParseMembers arena strtod n c).2
  array : ∀ c, Reaches arena c (jsonParseArray arena strtod n c).2
  elements : ∀ c, Reaches arena c (jsonParseElements arena strtod n c).2
  value : ∀ c, Reaches arena c (jsonParseValue arena strtod n c).2

namespace ParsersReach

variable {strtod} {n : Nat}

lemma zero : ParsersReach arena strtod 0 := ⟨.refl, .refl, .refl, .refl, .refl⟩

variable (h : ParsersReach arena strtod n)

include h

lemma elements_succ (c : Ctx) : Reaches arena c (jsonParseElements arena strtod (n + 1) c).2 := by
  have h1 := h.value c
  rw [jsonParseElements]
  split
  · rename_i hv; rw [hv] at h1; exact h1
  · rename_i hv
    rw [hv] at h1
    split
    · exact (h1.trans ((reach_skip_test ‹_›).2 rfl)).trans (h.elements _)
    · exact h1.trans (reach_skip_test ‹_›).1

lemma members_succ (c : Ctx) : Reaches arena c (jsonParseMembers arena strtod (n + 1) c).2 := by
  rw [jsonParseMembers]
  split
  · exact reach_parseKey ‹_›
  · have h1 := (reach_parseKey ‹_›).trans (h.value _)
    split
    · rename_i hv; rw [hv] at h1; exact h1
    · rename_i hv
      rw [hv] at h1
      split
      · exact h1.trans (reach_jalloc ‹_›)
      · have h2 := h1.trans (reach_jalloc ‹_›)
        split
        · exact (h2.trans ((reach_skip_test ‹_›).2 rfl)).trans (h.members _)
        · have h3 := h2.trans (reach_skip_test ‹_›).1
          split
          · exact h3.trans (reach_test_step ‹_›)
          · exact h3.trans (reach_test ‹_›)

lemma value_succ (c : Ctx) : Reaches arena c (jsonParseValue arena strtod (n + 1) c).2 := by
  have h1 : Reaches arena c (jsonSkipWhitespace c) := reach_skip c
  rw [jsonParseValue]
  dsimp only [Ctx.load]
  split
  · exact h1
  · rename_i hlt
    have h2 := h1.trans (.load (Nat.lt_of_not_le hlt))
    split
    · exact h2.trans (h.object _)
    · split
      · exact h2.trans (h.array _)
      · split
        · exact h2.trans (reach_parseStringNode _)
        · split
          · exact h2.trans (reach_parseNumber strtod (Nat.le_of_not_le hlt))
          · exact h2.trans (reach_parseWord _)

end ParsersReach

lemma parsersReach (arena : Arena) (strtod : List UInt8 → D) (n : Nat) :
    ParsersReach arena strtod n := by
  induction n with
  | zero => exact .zero
  | succ n ih =>
    refine ⟨fun c => ?_, ih.members_succ, fun c => ?_, ih.elements_succ, ih.value_succ⟩
    · rw [jsonParseObject_succ]
      exact reach_container ih.members c
    · rw [jsonParseArray_succ]
      exact reach_container ih.elements c

/-! ## The steps only move forward -/

lemma ext_skip (c : Ctx) : c.Ext (jsonSkipWhitespace c) := (@reach_skip granting c).ext

lemma ext_skip_test (h : (jsonSkipWhitespace c).test b = (x, c1)) :
    c.Ext c1 ∧ (x = true → c.Ext (c1.advance 1) ∧ c.pos < c1.pos + 1 ∧ c.pos < c.len) := by
  have h1 := ext_skip c
  refine ⟨h1.trans (ext_test h), ?_⟩
  rintro rfl
  obtain ⟨h2, hlt, hlt'⟩ := ext_test_step h
  exact ⟨h1.trans h2, lt_of_le_of_lt h1.pos hlt, lt_of_le_of_lt h1.pos (h1.len ▸ hlt')⟩

lemma ext_parseKey (h : jsonParseKey arena c = (res, c')) :
    c.Ext c' := (reach_parseKey h).ext

lemma ext_scanNumber (c : Ctx) : c.Ext (jsonScanNumber c) := (@reach_scanNumber granting c).ext

variable (arena)

/-! ## Fuel -/

/-- How many bytes are left. -/
def Ctx.left (c : Ctx) : Nat := c.len - c.pos

lemma Ctx.Ext.left (h : c.Ext c') : c'.left ≤ c.left := by
  rw [Ctx.left, Ctx.left, h.len]
  exact Nat.sub_le_sub_left h.pos _

lemma left_lt_of_step (h : (jsonSkipWhitespace c).test b = (true, c1)) :
    (c1.advance 1).left < c.left := by
  obtain ⟨he, hlt, hlt'⟩ := (ext_skip_test h).2 rfl
  have hlen := he.len
  rw [Ctx.left, Ctx.left, hlen, pos_advance]
  omega

lemma container_congr {ι : Type} {first last : UInt8} {loop loop' : Ctx → List ι × Ctx}
    {node : List ι → NodePtr D} (c : Ctx) (h : ∀ c' : Ctx, c'.left < c.left → loop c' = loop' c') :
    jsonParseContainer arena first last loop node c =
      jsonParseContainer arena first last loop' node c := by
  rw [jsonParseContainer, jsonParseContainer]
  split
  · rfl
  · split
    · rfl
    · rename_i c1 h1
      have hlt : (c1.advance 1).left < c.left := left_lt_of_step (c := { c with depth := c.depth + 1 }) h1
      split
      · rfl
      · split
        · rfl
        · have hle := ((ext_jalloc arena ‹_›).trans (ext_skip_test ‹_›).1).left
          rw [h _ (by omega)]

/-- Where the fuel is enough, more of it gives the same answer. -/
structure FuelAgree (n : Nat) : Prop where
  object : ∀ c : Ctx, 3 * c.left + 2 ≤ n →
    jsonParseObject arena strtod (n + 1) c = jsonParseObject arena strtod n c
  members : ∀ c : Ctx, 3 * c.left + 4 ≤ n →
    jsonParseMembers arena strtod (n + 1) c = jsonParseMembers arena strtod n c
  array : ∀ c : Ctx, 3 * c.left + 2 ≤ n →
    jsonParseArray arena strtod (n + 1) c = jsonParseArray arena strtod n c
  elements : ∀ c : Ctx, 3 * c.left + 4 ≤ n →
    jsonParseElements arena strtod (n + 1) c = jsonParseElements arena strtod n c
  value : ∀ c : Ctx, 3 * c.left + 3 ≤ n →
    jsonParseValue arena strtod (n + 1) c = jsonParseValue arena strtod n c

namespace FuelAgree

variable {arena strtod} {n : Nat} (h : FuelAgree arena strtod n)

include h

lemma elements_succ (c : Ctx) (hn : 3 * c.left + 4 ≤ n + 1) :
    jsonParseElements arena strtod (n + 2) c = jsonParseElements arena strtod (n + 1) c := by
  rw [jsonParseElements, jsonParseElements, h.value c (by omega)]
  have hv := ((parsersReach arena strtod n).value c).ext.left
  split
  · rfl
  · rename_i hp
    simp only [hp] at hv
    split
    · have hlt := left_lt_of_step ‹_›
      rw [h.elements _ (by omega)]
    · rfl

lemma members_succ (c : Ctx) (hn : 3 * c.left + 4 ≤ n + 1) :
    jsonParseMembers arena strtod (n + 2) c = jsonParseMembers arena strtod (n + 1) c := by
  rw [jsonParseMembers, jsonParseMembers]
  split
  · rfl
  · rename_i key c1 _
    have h1 := (ext_parseKey ‹_›).left
    rw [h.value _ (by omega)]
    have hv := ((parsersReach arena strtod n).value c1).ext.left
    split
    · rfl
    · rename_i hp
      simp only [hp] at hv
      split
      · rfl
      · have h2 := (ext_jalloc arena ‹_›).left
        split
        · have h3 := left_lt_of_step ‹_›
          rw [h.members _ (by omega)]
        · rfl

lemma value_succ (c : Ctx) (hn : 3 * c.left + 3 ≤ n + 1) :
    jsonParseValue arena strtod (n + 2) c = jsonParseValue arena strtod (n + 1) c := by
  have hle := ((ext_skip c).extend (.text (jsonSkipWhitespace c).pos 1)).left
  rw [jsonParseValue, jsonParseValue]
  dsimp only [Ctx.load]
  rw [h.object _ (by omega), h.array _ (by omega)]

end FuelAgree

lemma fuelAgree (n : Nat) : FuelAgree arena strtod n := by
  induction n with
  | zero => constructor <;> intro c hn <;> omega
  | succ n ih =>
    refine ⟨fun c hn => ?_, ih.members_succ, fun c hn => ?_, ih.elements_succ, ih.value_succ⟩
    · rw [jsonParseObject_succ, jsonParseObject_succ]
      exact container_congr _ c fun c' hlt => ih.members c' (by omega)
    · rw [jsonParseArray_succ, jsonParseArray_succ]
      exact container_congr _ c fun c' hlt => ih.elements c' (by omega)

/-- From every position in every text, and with every outcome of the allocations, fuel beyond
`valueFuel` changes nothing. -/
theorem jsonParseValue_fuel (c : Ctx) (n : Nat) :
    jsonParseValue arena strtod (valueFuel c + n) c = jsonParseValue arena strtod (valueFuel c) c := by
  induction n with
  | zero => rfl
  | succ n ih => exact ((fuelAgree arena strtod _).value c (Nat.le_add_right ..)).trans ih

end Arena

end Cobalt.Json
