/-
Cobalt.Json.DomMemory — what the DOM parser touches.

Every access the parser makes is in its log, and `Access.InBounds` says
which of them stay inside the text (its terminator included) or inside the
block they are for. All of them do but one: when an escape does not fit
its block, `json_parse_string` asks for twice the bytes it needs and
`jrealloc` copies half of that, which is more than the old block holds.

`EscapeOutgrows` is the part of the text and of the arena on which that
happens, for one string literal. `jsonParseWithArena_inBounds_iff` says that a run
touches only what it may exactly when no literal it starts is of that kind.
-/
import Cobalt.Json.DomRun

namespace Cobalt.Json

open Ctx
open List (append_assoc mem_append mem_singleton length_cons suffix_refl)

/-- The access stays inside the text of `len` bytes and its terminator, or
inside its block. -/
def Access.InBounds (len : Nat) : Access → Prop
  | .text lo n => lo + n ≤ len + 1
  | .block size lo n => lo + n ≤ size
  | .literal _ _ => True

instance (len : Nat) : DecidablePred (Access.InBounds len) := fun a => by
  cases a <;> unfold Access.InBounds <;> infer_instance

/-! ## Escapes of a literal -/

/-- What `\u` followed by `s` decodes to, and what is left of `s`. -/
def unicodeOf (s : List UInt8) : Option (List UInt8 × List UInt8) :=
  if s.length < 4 then none
  else
    let cp := toUnsigned (strtol16 (s.take 4))
    if 0xD800 ≤ cp && cp ≤ 0xDBFF then
      if s.length < 10 then none
      else if s.getD 4 0 == backslash && s.getD 5 0 == 0x75 then
        let lowCp := toUnsigned (strtol16 ((s.drop 6).take 4))
        if 0xDC00 ≤ lowCp && lowCp ≤ 0xDFFF then
          some (escapedUtf8 (0x10000 + ((cp - 0xD800) <<< 10 ||| (lowCp - 0xDC00))), s.drop 10)
        else none
      else none
    else if 0xDC00 ≤ cp && cp ≤ 0xDFFF then none
    else some (escapedUtf8 cp, s.drop 4)

/-- What a backslash followed by `s` decodes to, and what is left of `s`. -/
def escapeOf : List UInt8 → Option (List UInt8 × List UInt8)
  | [] => none
  | b :: s =>
      match escByte? b with
      | some x => some ([x], s)
      | none => if b == 0x75 then unicodeOf s else some ([b], s)

lemma escapedUtf8_length_le (u : Nat) : (escapedUtf8 u).length ≤ 4 := by
  unfold escapedUtf8
  split
  · simp
  · split
    · simp
    · split <;> simp

lemma unicodeOf_length {s e t : List UInt8} (h : unicodeOf s = some (e, t)) :
    e.length ≤ 4 ∧ e.length + t.length ≤ s.length := by
  have hle : ∀ u k, 4 ≤ k → k ≤ s.length → (escapedUtf8 u).length ≤ 4 ∧
      (escapedUtf8 u).length + (s.drop k).length ≤ s.length := by
    intro u k h4 hk
    have := escapedUtf8_length_le u
    rw [List.length_drop]
    omega
  unfold unicodeOf at h
  dsimp only at h
  split at h
  · cases h
  · rename_i hlen
    split at h
    · split at h
      · cases h
      · rename_i hten
        split at h
        · split at h
          · cases h; exact hle _ 10 (by omega) (Nat.le_of_not_lt hten)
          · cases h
        · cases h
    · split at h
      · cases h
      · cases h; exact hle _ 4 (le_refl 4) (Nat.le_of_not_lt hlen)

/-- An escape decodes to at most four bytes, and to no more than it is
written with. -/
lemma escapeOf_length {s e t : List UInt8} (h : escapeOf s = some (e, t)) :
    e.length ≤ 4 ∧ e.length + t.length ≤ s.length := by
  have hone : ∀ (b x : UInt8) (s : List UInt8),
      [x].length ≤ 4 ∧ [x].length + s.length ≤ (b :: s).length := by
    intro b x s
    simp [add_comm]
  cases s with
  | nil => cases h
  | cons b s =>
    rw [escapeOf] at h
    cases hb : escByte? b with
    | some x => rw [hb] at h; cases h; exact hone b x _
    | none =>
      simp only [hb] at h
      split at h
      · obtain ⟨hle, hlen⟩ := unicodeOf_length h
        exact ⟨hle, Nat.le_succ_of_le hlen⟩
      · cases h; exact hone b b _

/-- `n` more bytes take a literal of `ℓ` bytes past the size of a block:
the blocks are of 64 bytes and then each twice the one before. -/
def Crosses (ℓ n : Nat) : Prop := ∃ k, ℓ < 64 * 2 ^ k ∧ 64 * 2 ^ k ≤ ℓ + n

/-- Reading on from `s` with `ℓ` bytes decoded, the literal whose first
block is request `r` comes to an escape that takes it past the size of a
block, the first such escape, and the arena grants the blocks up to there. -/
inductive EscapeOutgrows (arena : Arena) (r : Nat) : List UInt8 → Nat → Prop where
  | plain {b : UInt8} {s : List UInt8} {ℓ : Nat} (hq : b ≠ quote) (hb : b ≠ backslash)
      (h : EscapeOutgrows arena r s (ℓ + 1)) : EscapeOutgrows arena r (b :: s) ℓ
  | escape {s e t : List UInt8} {ℓ : Nat} (he : escapeOf s = some (e, t))
      (hc : ¬ Crosses ℓ e.length) (h : EscapeOutgrows arena r t (ℓ + e.length)) :
      EscapeOutgrows arena r (backslash :: s) ℓ
  | here {s e t : List UInt8} {ℓ k : Nat} (he : escapeOf s = some (e, t))
      (hlt : ℓ < 64 * 2 ^ k) (hle : 64 * 2 ^ k ≤ ℓ + e.length)
      (hg : ∀ j ≤ k, arena (r + j) (64 * 2 ^ j) = true)
      (hge : arena (r + k + 1) (2 * (ℓ + e.length + 1)) = true) :
      EscapeOutgrows arena r (backslash :: s) ℓ

/-! ## Accesses that are always in bounds -/

/-- `c'` is `c` after accesses that are all in bounds, none of them the
start of a literal. -/
structure Clean (c c' : Ctx) : Prop where
  str : c'.str = c.str
  log : ∃ new, c'.log = new ++ c.log ∧ ∀ a ∈ new, a.InBounds c.len ∧ ∀ lo r, a ≠ .literal lo r

namespace Clean

variable {c c' c'' : Ctx}

lemma len (h : Clean c c') : c'.len = c.len := by rw [Ctx.len, h.str]; rfl

lemma refl (c : Ctx) : Clean c c := ⟨rfl, [], rfl, fun _ h => absurd h List.not_mem_nil⟩

lemma of_eq (hs : c'.str = c.str) (hl : c'.log = c.log) : Clean c c' :=
  ⟨hs, [], hl, fun _ h => absurd h List.not_mem_nil⟩

lemma trans (h : Clean c c') (h' : Clean c' c'') : Clean c c'' := by
  obtain ⟨new, hnew, hall⟩ := h.log
  obtain ⟨new', hnew', hall'⟩ := h'.log
  refine ⟨h'.str.trans h.str, new' ++ new, by rw [hnew', hnew, append_assoc], ?_⟩
  intro a ha
  rcases mem_append.mp ha with ha | ha
  · exact h.len ▸ hall' a ha
  · exact hall a ha

lemma text (lo n : Nat) (h : lo + n ≤ c.len + 1) : Clean c (c.record (.text lo n)) := by
  refine ⟨rfl, [.text lo n], rfl, ?_⟩
  intro a ha
  obtain rfl := mem_singleton.mp ha
  exact ⟨h, fun _ _ h => by cases h⟩

lemma block (c : Ctx) {size lo n : Nat} (h : lo + n ≤ size) : Clean c (c.touch size lo n) := by
  refine ⟨rfl, [.block size lo n], rfl, ?_⟩
  intro a ha
  obtain rfl := mem_singleton.mp ha
  exact ⟨h, fun _ _ h => by cases h⟩

lemma advance (h : Clean c c') (n : Nat) : Clean c (c'.advance n) := h.trans (of_eq rfl rfl)

lemma jalloc (arena : Arena) (size : Nat) (c : Ctx) : Clean c (jalloc arena size c).2 :=
  of_eq rfl rfl

end Clean

/-! ## One escape -/

variable {c c' : Ctx} {s : List UInt8} {b : UInt8}

lemma drop_of_rest (h : c.rest = b :: s) (n : Nat) : c.str.drop (c.pos + 1 + n) = s.drop n := by
  have : c.str.drop (c.pos + (1 + n)) = (c.str.drop c.pos).drop (1 + n) := by
    rw [List.drop_drop]
  rw [add_assoc, this, show c.str.drop c.pos = b :: s from h, add_comm 1 n, List.drop_succ_cons]

lemma getD_of_rest_cons (h : c.rest = b :: s) (n : Nat) :
    c.str.getD (c.pos + 1 + n) 0 = s.getD n 0 := by
  have := congrArg List.head? (drop_of_rest h n)
  rw [List.head?_drop, List.head?_drop] at this
  rw [List.getD_eq_getElem?_getD, List.getD_eq_getElem?_getD, this]

/-- What an escape does: it decodes what `escapeOf` says, and moves the
cursor to the last byte of the escape. -/
structure Escaped (c : Ctx) (res : Option (List UInt8 × List UInt8))
    (out : Option (List UInt8) × Ctx) : Prop where
  bytes : out.1 = res.map Prod.fst
  clean : Clean c out.2
  requests : out.2.requests = c.requests
  rest : ∀ e t, res = some (e, t) → (out.2.advance 1).rest = t

lemma Escaped.fail (h : Clean c c') (hr : c'.requests = c.requests) :
    Escaped c none (none, c') := ⟨rfl, h, hr, fun _ _ h => by cases h⟩

lemma Escaped.pass {e t : List UInt8} (h : Clean c c')
    (hr : c'.requests = c.requests) (ht : (c'.advance 1).rest = t) :
    Escaped c (some (e, t)) (some e, c') := ⟨rfl, h, hr, fun _ _ h => by cases h; exact ht⟩

lemma unicodeEscape_spec (h : c.rest = b :: s) : Escaped c (unicodeOf s) (unicodeEscape c) := by
  have hlen : c.len = c.pos + 1 + s.length := by
    have := congrArg List.length h
    have hlt := lt_of_rest h
    rw [length_rest, length_cons] at this
    omega
  have hhex : c.str.drop (c.pos + 1) = s := drop_of_rest h 0
  have h4 : c.str.getD (c.pos + 5) 0 = s.getD 4 0 := getD_of_rest_cons h 4
  have h5 : c.str.getD (c.pos + 6) 0 = s.getD 5 0 := getD_of_rest_cons h 5
  have hlow : c.str.drop (c.pos + 7) = s.drop 6 := drop_of_rest h 6
  unfold unicodeEscape unicodeOf
  by_cases hshort : s.length < 4
  · rw [if_pos hshort, if_pos (show c.pos + 4 ≥ c.len by omega)]
    exact .fail (Clean.refl c) rfl
  rw [if_neg hshort, if_neg (show ¬ c.pos + 4 ≥ c.len by omega)]
  simp only [Ctx.loadRange, Ctx.load, len_record, pos_record, str_record, hhex, h4, h5, hlow]
  have hc1 : Clean c (c.record (.text (c.pos + 1) 4)) := .text _ _ (by omega)
  split
  · -- a high surrogate: each further byte is read only behind its own test
    by_cases hten : s.length < 10
    · rw [if_pos hten, if_neg (show ¬ c.pos + 10 < c.len by omega)]
      exact .fail hc1 rfl
    rw [if_neg hten, if_pos (show c.pos + 10 < c.len by omega)]
    have hc2 := hc1.trans (.text (c.pos + 5) 1 (by rw [len_record]; omega))
    have hc3 := hc2.trans (.text (c.pos + 6) 1 (by simp only [len_record]; omega))
    have hc4 := hc3.trans (.text (c.pos + 7) 4 (by simp only [len_record]; omega))
    cases hb : s.getD 4 0 == backslash with
    | false => exact .fail hc2 rfl
    | true =>
      cases hu : s.getD 5 0 == 0x75 with
      | false => exact .fail hc3 rfl
      | true =>
        simp only [Bool.and_self, if_true]
        split
        · exact .pass (hc4.advance 10) rfl (drop_of_rest h 10)
        · exact .fail hc4 rfl
  · split
    · exact .fail hc1 rfl
    · exact .pass (hc1.advance 4) rfl (drop_of_rest h 4)

lemma jsonEscape_spec (h : c.rest = b :: s) : Escaped c (escapeOf (b :: s)) (jsonEscape b c) := by
  rw [escapeOf, jsonEscape]
  cases escByte? b with
  | some x => exact .pass (Clean.refl c) rfl (drop_of_rest h 0)
  | none =>
    dsimp only
    split
    · exact unicodeEscape_spec h
    · exact .pass (Clean.refl c) rfl (drop_of_rest h 0)

/-! ## One turn of the loop -/

/-- A block of `size` bytes with `ℓ` of them in use and room for one more,
before any escape has outgrown one: the `k`-th, the first that is large
enough, all of them granted, and request `i` still to come. -/
structure Block (arena : Arena) (r k ℓ size i : Nat) : Prop where
  cap : size = 64 * 2 ^ k
  room : ℓ < size
  least : ∀ j < k, 64 * 2 ^ j ≤ ℓ
  next : i = r + k + 1
  granted : ∀ j ≤ k, arena (r + j) (64 * 2 ^ j) = true

/-- The state of the loop before any escape has outgrown a block, with `s`
left of the text. -/
structure Filling (arena : Arena) (r k : Nat) (buf : StrBuf) (c : Ctx) (s : List UInt8) :
    Prop where
  rest : c.rest = s
  block : Block arena r k buf.bytes.length buf.cap c.requests
  short : buf.bytes.length + s.length < 2 ^ 63

namespace EscapeOutgrows

variable {arena : Arena} {r ℓ : Nat} {s e t : List UInt8} {b : UInt8}

lemma nil : ¬ EscapeOutgrows arena r [] ℓ := fun h => by cases h

lemma quote : ¬ EscapeOutgrows arena r (Json.quote :: s) ℓ := fun h => by
  cases h with
  | plain hq _ _ => exact hq rfl

lemma plain_iff (hq : b ≠ Json.quote) (hb : b ≠ backslash) :
    EscapeOutgrows arena r (b :: s) ℓ ↔ EscapeOutgrows arena r s (ℓ + 1) := by
  refine ⟨fun h => ?_, .plain hq hb⟩
  cases h with
  | plain _ _ h => exact h
  | escape | here => exact absurd rfl hb

lemma escape_none (he : escapeOf s = none) : ¬ EscapeOutgrows arena r (backslash :: s) ℓ := by
  intro h
  cases h with
  | plain _ hb _ => exact hb rfl
  | escape he' | here he' => rw [he] at he'; cases he'

lemma escape_iff (he : escapeOf s = some (e, t)) (hc : ¬ Crosses ℓ e.length) :
    EscapeOutgrows arena r (backslash :: s) ℓ ↔ EscapeOutgrows arena r t (ℓ + e.length) := by
  refine ⟨fun h => ?_, .escape he hc⟩
  cases h with
  | plain _ hb _ => exact absurd rfl hb
  | escape he' _ h => rw [he] at he'; cases he'; exact h
  | here he' hlt hle _ _ => rw [he] at he'; cases he'; exact absurd ⟨_, hlt, hle⟩ hc

lemma granted (h : EscapeOutgrows arena r s ℓ) {j : Nat} (hj : 64 * 2 ^ j ≤ ℓ) :
    arena (r + j + 1) (64 * 2 ^ (j + 1)) = true := by
  induction h with
  | plain _ _ _ ih => exact ih (Nat.le_succ_of_le hj)
  | escape _ _ _ ih => exact ih (Nat.le_add_right_of_le hj)
  | here _ hlt _ hg _ =>
    have hpow : 2 ^ j < 2 ^ _ := Nat.lt_of_mul_lt_mul_left (lt_of_le_of_lt hj hlt)
    exact hg (j + 1) ((Nat.pow_lt_pow_iff_right (by omega)).mp hpow)

end EscapeOutgrows

/-- One of the accesses after `c` is out of bounds. -/
def Strays (c c' : Ctx) : Prop := ∃ new, c'.log = new ++ c.log ∧ ∃ a ∈ new, ¬ a.InBounds c.len

lemma Clean.stray {c c' c'' : Ctx} (h : Clean c c') (newer : List Access) (a : Access)
    (hlog : c''.log = newer ++ a :: c'.log) (ha : ¬ a.InBounds c.len) : Strays c c'' := by
  obtain ⟨new, hnew, -⟩ := h.log
  exact ⟨newer ++ a :: new, by rw [hlog, hnew]; simp, a, by simp, ha⟩

/-- What a turn of the loop does, from `s` and `ℓ` decoded bytes. -/
inductive Turn (arena : Arena) (r : Nat) (s : List UInt8) (ℓ : Nat) (c : Ctx) :
    Option StrBuf × Ctx → Prop where
  | stray {out : Option StrBuf × Ctx} (ho : EscapeOutgrows arena r s ℓ) (hs : Strays c out.2) :
      Turn arena r s ℓ c out
  | stop {c' : Ctx} (ho : ¬ EscapeOutgrows arena r s ℓ) (hc : Clean c c') :
      Turn arena r s ℓ c (none, c')
  | next {c' : Ctx} {buf : StrBuf} {k : Nat} {t : List UInt8} (hc : Clean c c')
      (hf : Filling arena r k buf c' t) (hlt : t.length < s.length)
      (ho : EscapeOutgrows arena r s ℓ ↔ EscapeOutgrows arena r t buf.bytes.length) :
      Turn arena r s ℓ c (some buf, c')

lemma StrBuf.length_append (buf : StrBuf) (bs : List UInt8) :
    (buf.append bs).bytes.length = buf.bytes.length + bs.length := List.length_append ..

namespace Block

variable {arena : Arena} {r k ℓ size i : Nat}

variable (h : Block arena r k ℓ size i)

include h

/-- Bytes cross the size of a block when they do not fit this one. -/
lemma crosses_iff (n : Nat) : Crosses ℓ n ↔ ℓ + n + 1 > size := by
  have hcap := h.cap
  have hroom := h.room
  constructor
  · rintro ⟨j, hlt, hle⟩
    rcases lt_or_ge j k with hjk | hkj
    · exact absurd (h.least j hjk) (by omega)
    · have := Nat.pow_le_pow_right (n := 2) (by omega) hkj
      omega
  · intro hgt
    exact ⟨k, by omega, by omega⟩

lemma push {n : Nat} (hfit : ℓ + n < size) : Block arena r k (ℓ + n) size i :=
  ⟨h.cap, hfit, fun j hj => Nat.le_add_right_of_le (h.least j hj), h.next, h.granted⟩

lemma double (hfull : ℓ + 1 = size)
    (hg : arena i (2 * size) = true) : Block arena r (k + 1) (ℓ + 1) (2 * size) (i + 1) where
  cap := by rw [h.cap, pow_succ]; omega
  room := by omega
  least j hj := by
    have := Nat.pow_le_pow_right (n := 2) (by omega) (Nat.le_of_lt_succ hj)
    have hcap := h.cap
    omega
  next := by rw [h.next]; omega
  granted j hj := by
    rcases lt_or_eq_of_le hj with hj | rfl
    · exact h.granted j (Nat.le_of_lt_succ hj)
    · rw [h.next, h.cap] at hg
      rw [pow_succ, ← hg, add_assoc]
      congr 1
      omega

/-- A refused block ends the literal before any escape can outgrow one. -/
lemma refused (hfull : ℓ + 1 = size) (hg : arena i (2 * size) = false) (s : List UInt8) :
    ¬ EscapeOutgrows arena r s (ℓ + 1) := by
  intro ho
  have := ho.granted (j := k) (by rw [← h.cap]; omega)
  rw [h.next, h.cap, show 2 * (64 * 2 ^ k) = 64 * 2 ^ (k + 1) by omega, this] at hg
  cases hg

/-- An escape that does not fit the block outgrows it as soon as the arena
grants what is asked for. -/
lemma outgrows_iff {s e t : List UInt8}
    (he : escapeOf s = some (e, t)) (hgt : ℓ + e.length + 1 > size) :
    EscapeOutgrows arena r (backslash :: s) ℓ ↔ arena i (2 * (ℓ + e.length + 1)) = true := by
  have hcap := h.cap
  have hroom := h.room
  constructor
  · intro ho
    cases ho with
    | plain _ hb _ => exact absurd rfl hb
    | escape he' hc _ =>
      rw [he] at he'
      cases he'
      exact absurd ((h.crosses_iff _).mpr hgt) hc
    | @here _ _ _ _ j he' hlt hle _ hge =>
      rw [he] at he'
      cases he'
      -- the block that is outgrown is this one
      have hjk : j = k := by
        rcases Nat.lt_trichotomy j k with hjk | hjk | hkj
        · exact absurd (h.least j hjk) (by omega)
        · exact hjk
        · have hpow := Nat.pow_le_pow_right (n := 2) (by omega) hkj
          rw [pow_succ] at hpow
          have := (escapeOf_length he).1
          omega
      rw [h.next, ← hjk]
      exact hge
  · intro hg
    rw [h.next] at hg
    exact .here he (by omega) (by omega) h.granted hg

end Block

namespace Filling

open StrBuf

variable {arena : Arena} {r k : Nat} {buf : StrBuf} {c : Ctx} {s : List UInt8}

lemma push {c' : Ctx} {bs t : List UInt8} (h : Filling arena r k buf c s)
    (hfit : buf.bytes.length + bs.length < buf.cap) (hrest : c'.rest = t)
    (hlen : bs.length + t.length ≤ s.length) (hreq : c'.requests = c.requests) :
    Filling arena r k (buf.append bs) c' t where
  rest := hrest
  block := by rw [length_append, hreq]; exact h.block.push hfit
  short := by rw [length_append]; have := h.short; omega

/-- The plain branch: a full block doubles, and the copy takes all of the
old block and no more. -/
lemma appendByte (h : Filling arena r k buf c (b :: s)) (hq : b ≠ quote)
    (hb : b ≠ backslash) : Turn arena r (b :: s) buf.bytes.length c (appendByte arena buf b c) := by
  have hroom := h.block.room
  have hshort := h.short
  have hiff : EscapeOutgrows arena r (b :: s) buf.bytes.length ↔
      EscapeOutgrows arena r s (buf.bytes.length + 1) := EscapeOutgrows.plain_iff hq hb
  have hrest : ∀ c' : Ctx, c'.rest = c.rest → (c'.advance 1).rest = s :=
    fun c' hc' => rest_advance (w := [b]) 1 (hc'.trans h.rest) rfl
  rw [length_cons] at hshort
  rw [Json.appendByte, growForByte]
  by_cases hgrow : buf.bytes.length + 2 > buf.cap
  · have hfull : buf.bytes.length + 1 = buf.cap := by omega
    have hcap : byteCap buf.cap = 2 * buf.cap := by
      rw [byteCap, if_neg (by unfold sizeMax; omega), mul_comm]
    rw [if_pos hgrow, hcap, jrealloc, jalloc]
    dsimp only
    cases hg : arena c.requests (2 * buf.cap) with
    | false =>
      exact .stop (fun ho => h.block.refused hfull hg s (hiff.mp ho)) (Clean.of_eq rfl rfl)
    | true =>
      have hhalf : 2 * buf.cap / 2 = buf.cap := by omega
      have htake : buf.bytes.take buf.cap = buf.bytes := List.take_of_length_le (by omega)
      have hc : Clean c { c with requests := c.requests + 1 } := Clean.of_eq rfl rfl
      simp only [if_true, hhalf, htake]
      refine .next ((((hc.trans (.block _ (by omega))).trans (.block _ (by omega))).trans
        (.block _ (by omega))).advance 1) (k := k + 1) ⟨hrest _ rfl, ?_, ?_⟩ (by simp) ?_
      · rw [length_append]; exact h.block.double hfull hg
      · rw [length_append]; simpa [add_assoc, add_comm 1] using hshort
      · rw [length_append]; exact hiff
  · rw [if_neg hgrow]
    dsimp only
    refine .next ((Clean.block c (by omega)).advance 1)
      (h.push (by rw [List.length_singleton]; omega) (hrest _ rfl) (by simp [add_comm]) rfl)
      (by simp) ?_
    rw [length_append]
    exact hiff

lemma escapeCap_eq (buf : StrBuf) {n : Nat} (h : buf.bytes.length + n + 1 < 2 ^ 63) :
    escapeCap buf.bytes.length n = 2 * (buf.bytes.length + n + 1) := by
  have hneed : ¬ buf.bytes.length > sizeMax - n - 1 := by unfold sizeMax; omega
  have hhalf : ¬ buf.bytes.length + n + 1 > sizeMax / 2 := by unfold sizeMax; omega
  simp only [escapeCap, if_neg hneed, if_neg hhalf, mul_comm]

/-- The backslash branch: what does not fit is copied out of a block that is
too small for it. -/
lemma appendEscape (h : Filling arena r k buf c (backslash :: s)) :
    Turn arena r (backslash :: s) buf.bytes.length c (appendEscape arena buf c) := by
  have hroom := h.block.room
  have hshort := h.short
  have hrest : (c.advance 1).rest = s := rest_advance (w := [backslash]) 1 h.rest rfl
  have hc1 : Clean c (c.advance 1) := (Clean.refl c).advance 1
  rw [length_cons] at hshort
  rw [Json.appendEscape]
  dsimp only
  cases s with
  | nil =>
    rw [if_pos (rest_eq_nil_iff.mp hrest)]
    exact .stop (EscapeOutgrows.escape_none rfl) hc1
  | cons b s =>
    have hlt := lt_of_rest hrest
    have hc2 := hc1.trans (.text (c.advance 1).pos 1 (by omega))
    have hesc := jsonEscape_spec (c := (c.advance 1).record (.text (c.advance 1).pos 1)) hrest
    rw [if_neg (Nat.not_le.mpr hlt), load, getD_of_rest hrest]
    dsimp only
    generalize hout : jsonEscape b _ = out at hesc ⊢
    obtain ⟨res, c3⟩ := out
    obtain ⟨hres, hclean, hreq, hrest3⟩ := hesc
    have hc3 := hc2.trans hclean
    cases he : escapeOf (b :: s) with
    | none =>
      rw [he] at hres
      obtain rfl : res = none := hres
      exact .stop (EscapeOutgrows.escape_none he) hc3
    | some p =>
      obtain ⟨e, t⟩ := p
      rw [he] at hres
      obtain rfl : res = some e := hres
      have hrest3 := hrest3 e t he
      have hlen := (escapeOf_length he).2
      have hreq3 : c3.requests = c.requests := hreq
      dsimp only [growForEscape]
      by_cases hgt : buf.bytes.length + e.length + 1 > buf.cap
      · have hcap := escapeCap_eq buf (n := e.length) (by omega)
        have hiff := h.block.outgrows_iff he hgt
        rw [if_pos hgt, hcap, jrealloc, jalloc, hreq3]
        dsimp only
        cases hg : arena c.requests (2 * (buf.bytes.length + e.length + 1)) with
        | false =>
          refine .stop (fun ho => ?_) (hc3.trans (.of_eq rfl rfl))
          rw [hiff.mp ho] at hg
          cases hg
        | true =>
          refine .stray (hiff.mpr hg) (hc3.stray [_, _] (.block buf.cap 0 _) rfl ?_)
          simp only [Access.InBounds]
          omega
      · rw [if_neg hgt]
        dsimp only
        have hc := (h.block.crosses_iff e.length).not.mpr hgt
        rw [length_cons] at hlen
        refine .next ((hc3.trans (.block c3 (by omega))).advance 1)
          (h.push (by omega) hrest3 (by simp only [length_cons]; omega) hreq3)
          (by simp only [length_cons]; omega) ?_
        rw [length_append]
        exact EscapeOutgrows.escape_iff he hc

end Filling

/-! ## A whole literal -/

/-- What the loop does from `s` and `ℓ` decoded bytes: it strays exactly
when an escape outgrows a block, and otherwise leaves room for the
terminator. -/
inductive LoopEnds (arena : Arena) (r : Nat) (s : List UInt8) (ℓ : Nat) (c : Ctx) :
    Option StrBuf × Ctx → Prop where
  | stray {out : Option StrBuf × Ctx} (ho : EscapeOutgrows arena r s ℓ) (hs : Strays c out.2) :
      LoopEnds arena r s ℓ c out
  | clean {out : Option StrBuf × Ctx} (ho : ¬ EscapeOutgrows arena r s ℓ) (hc : Clean c out.2)
      (hroom : ∀ buf, out.1 = some buf → buf.bytes.length < buf.cap) :
      LoopEnds arena r s ℓ c out

lemma Strays.extend {c c' c'' : Ctx} (h : Strays c c') (hlog : c'.log <:+ c''.log) :
    Strays c c'' := by
  obtain ⟨new, hnew, a, ha, hout⟩ := h
  obtain ⟨newer, hlog⟩ := hlog
  exact ⟨newer ++ new, by rw [← hlog, hnew, append_assoc], a,
    mem_append.mpr (.inr ha), hout⟩

lemma Clean.then_stray {c c' c'' : Ctx} (h : Clean c c') (h' : Strays c' c'') : Strays c c'' := by
  obtain ⟨new, hnew, -⟩ := h.log
  obtain ⟨newer, hlog, a, ha, hout⟩ := h'
  exact ⟨newer ++ new, by rw [hlog, hnew, append_assoc], a,
    mem_append.mpr (.inl ha), h.len ▸ hout⟩

lemma stringLoop_ends {arena : Arena} {r k : Nat} (n : Nat) {buf : StrBuf}
    (h : Filling arena r k buf c s) (hn : s.length < n) :
    LoopEnds arena r s buf.bytes.length c (jsonParseStringLoop arena n buf c) := by
  induction n generalizing k buf c s with
  | zero => omega
  | succ n ih =>
    rw [jsonParseStringLoop]
    cases s with
    | nil =>
      rw [if_neg (Nat.not_lt.mpr (rest_eq_nil_iff.mp h.rest))]
      exact .clean EscapeOutgrows.nil (Clean.refl c) (fun _ heq => by cases heq; exact h.block.room)
    | cons b s =>
      have hlt := lt_of_rest h.rest
      have hc1 : Clean c (c.record (.text c.pos 1)) := .text c.pos 1 (by omega)
      have h1 : Filling arena r k buf (c.record (.text c.pos 1)) (b :: s) :=
        ⟨h.rest, h.block, h.short⟩
      rw [if_pos hlt, load, getD_of_rest h.rest]
      dsimp only
      split
      · rename_i hq
        obtain rfl := eq_of_beq hq
        exact .clean EscapeOutgrows.quote hc1 (fun _ heq => by cases heq; exact h.block.room)
      · rename_i hq
        have hturn : Turn arena r (b :: s) buf.bytes.length (c.record (.text c.pos 1))
            (if b == backslash then appendEscape arena buf (c.record (.text c.pos 1))
              else appendByte arena buf b (c.record (.text c.pos 1))) := by
          split
          · rename_i hb
            obtain rfl := eq_of_beq hb
            exact h1.appendEscape
          · rename_i hb
            exact h1.appendByte (by simpa using hq) (by simpa using hb)
        generalize hout : (if b == backslash then appendEscape arena buf (c.record (.text c.pos 1))
              else appendByte arena buf b (c.record (.text c.pos 1))) = out at hturn ⊢
        cases hturn with
        | stray ho hs =>
          refine .stray ho ((hc1.then_stray hs).extend ?_)
          split
          · exact suffix_refl _
          · exact (ext_stringLoop arena ..).log
        | stop ho hc => exact .clean ho (hc1.trans hc) (fun _ h => by cases h)
        | next hc hf hlen ho =>
          have := ih hf (by simp only [length_cons] at hn hlen; omega)
          cases this with
          | stray ho' hs => exact .stray (ho.mpr ho') ((hc1.trans hc).then_stray hs)
          | clean ho' hc' hroom => exact .clean (fun h => ho' (ho.mp h)) ((hc1.trans hc).trans hc') hroom

/-! ## A whole run -/

/-- The accesses are all in bounds exactly when none of the literals they
start has an escape that outgrows its block. -/
def Balanced (arena : Arena) (str : List UInt8) (log : List Access) : Prop :=
  (∀ a ∈ log, a.InBounds str.length) ↔
    ∀ lo r, .literal lo r ∈ log → ¬ EscapeOutgrows arena r (str.drop lo) 0

/-- `c'` is `c` after balanced accesses. -/
structure Fair (arena : Arena) (c c' : Ctx) : Prop where
  str : c'.str = c.str
  log : ∃ new, c'.log = new ++ c.log ∧ Balanced arena c.str new

lemma Balanced.append {arena : Arena} {str : List UInt8} {log log' : List Access}
    (h : Balanced arena str log) (h' : Balanced arena str log') :
    Balanced arena str (log ++ log') := by
  unfold Balanced at *
  simp only [mem_append, or_imp, forall_and, h, h']

variable {arena : Arena} {c c' c'' : Ctx}

lemma Fair.trans (h : Fair arena c c') (h' : Fair arena c' c'') : Fair arena c c'' := by
  obtain ⟨new, hnew, hbal⟩ := h.log
  obtain ⟨new', hnew', hbal'⟩ := h'.log
  refine ⟨h'.str.trans h.str, new' ++ new, by rw [hnew', hnew, append_assoc], ?_⟩
  exact (h.str ▸ hbal').append hbal

lemma Clean.fair (h : Clean c c') : Fair arena c c' := by
  obtain ⟨new, hnew, hall⟩ := h.log
  refine ⟨h.str, new, hnew, iff_of_true (fun a ha => (hall a ha).1) ?_⟩
  intro lo r hmem
  exact absurd rfl ((hall _ hmem).2 lo r)

lemma fair_literal {r : Nat} (hstr : c'.str = c.str)
    (h : EscapeOutgrows arena r c.rest 0 ∧ Strays (c.record (.literal c.pos r)) c' ∨
      ¬ EscapeOutgrows arena r c.rest 0 ∧ Clean (c.record (.literal c.pos r)) c') :
    Fair arena c c' := by
  rcases h with ⟨ho, new, hnew, a, ha, hout⟩ | ⟨ho, hc⟩
  · refine ⟨hstr, new ++ [.literal c.pos r], by rw [hnew, append_assoc]; rfl, ?_⟩
    refine iff_of_false (fun hall => hout (hall a (mem_append.mpr (.inl ha)))) ?_
    intro hall
    exact hall c.pos r (by simp) ho
  · obtain ⟨new, hnew, hall⟩ := hc.log
    refine ⟨hstr, new ++ [.literal c.pos r], by rw [hnew, append_assoc]; rfl, ?_⟩
    refine Balanced.append (iff_of_true (fun a ha => (hall a ha).1) ?_) (iff_of_true ?_ ?_)
    · intro lo r hmem
      exact absurd rfl ((hall _ hmem).2 lo r)
    · intro a ha
      obtain rfl := mem_singleton.mp ha
      trivial
    · intro lo r' hmem
      cases mem_singleton.mp hmem
      exact ho

lemma clean_test {x : Bool} (h : c.test b = (x, c')) : Clean c c' := by
  rw [Ctx.test] at h
  split at h
  · cases h; exact .text c.pos 1 (by omega)
  · cases h; exact .refl c

lemma EscapeOutgrows.first {r ℓ : Nat} (h : EscapeOutgrows arena r s ℓ) : arena r 64 = true := by
  induction h with
  | plain _ _ _ ih => exact ih
  | escape _ _ _ ih => exact ih
  | here _ _ _ hg _ => exact hg 0 (Nat.zero_le _)

lemma fair_parseString {res : Option (List UInt8)} (hlen : c.len < 2 ^ 63)
    (h : jsonParseString arena c = (res, c')) : Fair arena c c' := by
  have hparse := h
  rw [jsonParseString] at h
  split at h
  · cases h; exact (clean_test ‹_›).fair
  · rename_i c1 htest
    have hc1 : Clean c (c1.advance 1) := (clean_test htest).advance 1
    refine (Clean.fair hc1).trans ?_
    have hlen1 : (c1.advance 1).len < 2 ^ 63 := hc1.len ▸ hlen
    have hstr : c'.str = (c1.advance 1).str := (ext_parseString arena hparse).str.trans hc1.str.symm
    generalize c1.advance 1 = c2 at h hlen1 hstr
    obtain ⟨c3, hc3⟩ : ∃ c3, jalloc arena 64 (c2.record (.literal c2.pos c2.requests)) =
      (arena c2.requests 64, c3) := ⟨_, rfl⟩
    have hclean : Clean (c2.record (.literal c2.pos c2.requests)) c3 := by
      have := Clean.jalloc arena 64 (c2.record (.literal c2.pos c2.requests))
      rwa [hc3] at this
    simp only [hc3] at h
    cases hg : arena c2.requests 64 with
    | false =>
      rw [hg] at h
      cases h
      refine fair_literal hstr (.inr ⟨fun ho => ?_, hclean⟩)
      rw [ho.first] at hg
      cases hg
    | true =>
      rw [hg] at h
      have hfill : Filling arena c2.requests 0 ⟨64, []⟩ c3 c2.rest := by
        cases hc3
        refine ⟨rfl, ⟨rfl, by simp, by simp, rfl, ?_⟩, ?_⟩
        · intro j hj
          obtain rfl := Nat.le_zero.mp hj
          exact hg
        · have := length_rest (c := c2)
          simp only [List.length_nil]
          omega
      have hends := stringLoop_ends (c3.len - c3.pos + 1) hfill
        (by rw [← hfill.rest, length_rest]; omega)
      dsimp only at h
      generalize jsonParseStringLoop arena (c3.len - c3.pos + 1) ⟨64, []⟩ c3 = out at h hends
      refine fair_literal (r := c2.requests) hstr ?_
      cases hends with
      | stray ho hs =>
        refine .inl ⟨ho, (hclean.then_stray hs).extend ?_⟩
        split at h
        · cases h; exact suffix_refl _
        · split at h
          · cases h; exact suffix_refl _
          · cases h; exact List.suffix_cons ..
      | clean ho hc hroom =>
        refine .inr ⟨ho, hclean.trans (hc.trans ?_)⟩
        split at h
        · cases h; exact .refl _
        · split at h
          · cases h; exact .refl _
          · -- the terminator goes into the byte kept free for it
            cases h
            exact ((Clean.refl _).advance 1).trans (.block _ (hroom _ rfl))

/-- Every step of the parser is balanced. -/
lemma Reaches.fair (h : Reaches arena c c') (hlen : c.len < 2 ^ 63) : Fair arena c c' := by
  induction h with
  | refl c => exact (Clean.refl c).fair
  | trans h _ ih ih' => exact (ih hlen).trans (ih' (h.ext.len ▸ hlen))
  | read lo n h => exact (Clean.text lo n h).fair
  | touch c h => exact (Clean.block c h).fair
  | advance _ => exact ((Clean.refl _).advance _).fair
  | alloc c size => exact (Clean.jalloc arena size c).fair
  | string h => exact fair_parseString hlen h
  | cap c | enter c => exact Clean.fair (Clean.of_eq rfl rfl)
  | inside _ ih => exact ⟨(ih hlen).str, (ih hlen).log⟩

variable {D : Type}

lemma reach_parseWithArena (strtod : List UInt8 → D) (text : CString) :
    Reaches arena (Ctx.start text.bytes) (jsonParseWithArena arena strtod text).2 := by
  unfold jsonParseWithArena
  dsimp only
  split
  · exact .refl _
  · have hskip : Reaches arena (Ctx.start text.bytes) _ := reach_skip (Ctx.start text.bytes)
    split
    · exact hskip
    · generalize jsonSkipWhitespace (Ctx.start text.bytes) = c at hskip ⊢
      have hvalue := (parsersReach arena strtod (valueFuel c)).value c
      split <;> exact hskip.trans hvalue

/-- On any text and with any arena, valid JSON or not, the parser reads
only the text and its terminator and uses only the block each string has at
the time, exactly when no string literal that it starts has an escape that
outgrows its block. -/
theorem jsonParseWithArena_inBounds_iff (arena : Arena) (strtod : List UInt8 → D)
    (text : CString) :
    (∀ a ∈ (jsonParseWithArena arena strtod text).2.log, a.InBounds text.bytes.length) ↔
      ∀ lo r, .literal lo r ∈ (jsonParseWithArena arena strtod text).2.log →
        ¬ EscapeOutgrows arena r (text.bytes.drop lo) 0 := by
  obtain ⟨-, new, hlog, hbal⟩ := (reach_parseWithArena strtod text).fair text.fits
  rw [hlog]
  simpa [Balanced, Ctx.start] using hbal

/-- A string of 63 letters and a line feed. -/
def outgrownText : CString where
  bytes := quote :: List.replicate 63 0x61 ++ [backslash, 0x6E, quote]
  noNul := by simp [quote, backslash]
  fits := by simp

/-- The line feed does not fit the first block, and 65 bytes of its 64 are
copied. -/
theorem jsonParse_outgrown :
    ¬ ∀ a ∈ (jsonParseWithArena (fun _ _ => true) (fun _ => ()) outgrownText).2.log,
      a.InBounds outgrownText.bytes.length := by
  decide +kernel

end Cobalt.Json
