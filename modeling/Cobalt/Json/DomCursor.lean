/-
Cobalt.Json.DomCursor — where the DOM parser's cursor stands.

`Ctx.At c s k` says that `s` is left of the text at the cursor of `c`, that
`k` containers are open and that the nesting cap has not been hit. Every
function of the parser that returns a scalar is described here by the
`At` it starts from and the `At` it ends in, with an arena that grants
every request; the accesses it logs and the requests it counts are left
out of these statements.
-/
import Cobalt.Lib.Cursor
import Cobalt.Json.Dom
import Cobalt.Json.Lexical

namespace Cobalt.Json

/-- The arena of a run in which every allocation succeeds. -/
abbrev granting : Arena := fun _ _ => true

/-- The cursor stands before `s`, inside `k` containers. -/
structure Ctx.At (c : Ctx) (s : List UInt8) (k : Nat) : Prop where
  rest : c.rest = s
  depth : c.depth = k
  ok : c.depthExceeded = false
  fits : c.len < 2 ^ 63

namespace Ctx

variable {c : Ctx} {s r w : List UInt8} {b : UInt8} {k : Nat}

/-! ## The text at the cursor -/

lemma rest_eq_nil_iff : c.rest = [] ↔ c.len ≤ c.pos := List.drop_eq_nil_iff

lemma lt_of_rest (h : c.rest = b :: s) : c.pos < c.len := Cursor.lt_of_drop h

lemma getD_of_rest (h : c.rest = b :: s) : c.str.getD c.pos 0 = b := Cursor.getD_of_drop 0 h

lemma getD_add_of_rest (i : Nat) (h : c.rest = w ++ b :: s) (hi : w.length = i) :
    c.str.getD (c.pos + i) 0 = b := hi ▸ Cursor.getD_add_of_drop 0 h

lemma length_rest : c.rest.length = c.len - c.pos := by simp [rest, len]

@[simp] lemma str_record (a : Access) : (c.record a).str = c.str := rfl
@[simp] theorem rest_record (a : Access) : (c.record a).rest = c.rest := rfl
@[simp] lemma len_record (a : Access) : (c.record a).len = c.len := rfl
@[simp] lemma pos_record (a : Access) : (c.record a).pos = c.pos := rfl
@[simp] lemma len_advance (n : Nat) : (c.advance n).len = c.len := rfl
@[simp] lemma pos_advance (n : Nat) : (c.advance n).pos = c.pos + n := rfl

lemma rest_advance (n : Nat) (h : c.rest = w ++ s) (hn : w.length = n) :
    (c.advance n).rest = s := hn ▸ Cursor.drop_add_of_drop h

/-! ## Steps of the cursor -/

namespace At

lemma lt (h : c.At (b :: s) k) : c.pos < c.len := lt_of_rest h.rest

lemma ge (h : c.At [] k) : c.len ≤ c.pos := rest_eq_nil_iff.mp h.rest

lemma record (h : c.At s k) (a : Access) : (c.record a).At s k :=
  ⟨h.rest, h.depth, h.ok, h.fits⟩

lemma touch (h : c.At s k) (size lo n : Nat) : (c.touch size lo n).At s k := h.record _

lemma load (h : c.At (b :: s) k) : c.load c.pos = (b, c.record (.text c.pos 1)) := by
  rw [Ctx.load, getD_of_rest h.rest]

lemma advance (h : c.At (w ++ s) k) {n : Nat} (hn : w.length = n) :
    (c.advance n).At s k := ⟨rest_advance n h.rest hn, h.depth, h.ok, h.fits⟩

lemma step (h : c.At (b :: s) k) : (c.advance 1).At s k := advance (w := [b]) h rfl

lemma test (h : c.At s k) (x : UInt8) : ∃ c', c.test x = (s.head? == some x, c') ∧ c'.At s k := by
  cases s with
  | nil =>
    refine ⟨c, ?_, h⟩
    rw [Ctx.test, if_neg (Nat.not_lt.mpr h.ge)]
    rfl
  | cons b s =>
    refine ⟨c.record (.text c.pos 1), ?_, h.record _⟩
    rw [Ctx.test, if_pos h.lt, h.load]
    rfl

lemma enter (h : c.At s k) : ({ c with depth := c.depth + 1 } : Ctx).At s (k + 1) :=
  ⟨h.rest, by simp [h.depth], h.ok, h.fits⟩

lemma leave (h : c.At s (k + 1)) : c.leave.At s k :=
  ⟨h.rest, by simp [Ctx.leave, h.depth], h.ok, h.fits⟩

lemma jalloc (h : c.At s k) (size : Nat) : ∃ c', jalloc granting size c = (true, c') ∧ c'.At s k :=
  ⟨_, rfl, ⟨h.rest, h.depth, h.ok, h.fits⟩⟩

lemma scanWhile (p : UInt8 → Bool) (n : Nat) (h : c.At s k) (hn : s.length ≤ n) :
    (scanWhile p n c).At (s.dropWhile p) k := by
  induction n generalizing c s with
  | zero =>
    have : s = [] := List.length_eq_zero_iff.mp (Nat.le_zero.mp hn)
    subst this
    exact h
  | succ n ih =>
    cases s with
    | nil => rw [Json.scanWhile, if_neg (Nat.not_lt.mpr h.ge)]; exact h
    | cons b s =>
      rw [Json.scanWhile, if_pos h.lt, h.load]
      simp only [List.dropWhile_cons]
      cases hp : p b with
      | true => exact ih (h.record _).step (by simpa using hn)
      | false => exact h.record _

lemma scan (p : UInt8 → Bool) (h : c.At s k) : (scan p c).At (s.dropWhile p) k :=
  h.scanWhile p _ (by rw [← h.rest, length_rest])

lemma skipWhitespace (h : c.At s k) : (jsonSkipWhitespace c).At (skip s) k := h.scan isWs

lemma skipTest (h : c.At s k) (x : UInt8) :
    ∃ c', (jsonSkipWhitespace c).test x = ((skip s).head? == some x, c') ∧ c'.At (skip s) k :=
  h.skipWhitespace.test x

end At

end Ctx

end Cobalt.Json
