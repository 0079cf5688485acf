/-
Cobalt.Lib.CString — byte strings as C hands them around.

A `CString` is the part of a NUL-terminated array before its terminator:
no byte of it is zero, and the array with its terminator is one C object,
so it is shorter than `2 ^ 63` bytes. The character tests are those of
`<ctype.h>` in the "C" locale, where a byte above `0x7F` belongs to no
class and has no case.
-/
import Mathlib

namespace Cobalt

/-- The contents of a NUL-terminated string. -/
structure CString where
  bytes : List UInt8
  noNul : ∀ b ∈ bytes, b ≠ 0
  fits : bytes.length < 2 ^ 63

/-- The string a reader of `char *` sees: everything before the first NUL. -/
def cstr (bs : List UInt8) : List UInt8 := bs.takeWhile (fun b => b != 0)

lemma cstr_eq_self {bs : List UInt8} (h : ∀ b ∈ bs, b ≠ 0) : cstr bs = bs := by
  rw [cstr, List.takeWhile_eq_self_iff]
  intro b hb
  simpa using h b hb

lemma cstr_ne_zero {bs : List UInt8} : ∀ b ∈ cstr bs, b ≠ 0 := by
  intro b hb
  simpa using List.mem_takeWhile_imp hb

/-- `isdigit`. -/
def isDigit (b : UInt8) : Bool := 0x30 ≤ b && b ≤ 0x39

/-- `isspace`: blank, and the five control characters `\t` to `\r`. -/
def isSpaceC (b : UInt8) : Bool := b == 0x20 || (0x09 ≤ b && b ≤ 0x0D)

/-- The value of a hexadecimal digit. -/
def hexVal? (b : UInt8) : Option Nat :=
  if 0x30 ≤ b && b ≤ 0x39 then some (b.toNat - 0x30)
  else if 0x61 ≤ b && b ≤ 0x66 then some (b.toNat - 0x61 + 10)
  else if 0x41 ≤ b && b ≤ 0x46 then some (b.toNat - 0x41 + 10)
  else none

lemma hexVal?_lt {b : UInt8} {v : Nat} (h : hexVal? b = some v) : v < 16 := by
  simp only [hexVal?, Bool.and_eq_true, decide_eq_true_eq, UInt8.le_iff_toNat_le] at h
  split at h
  · cases h; rename_i hb; simp at hb; omega
  · split at h
    · cases h; rename_i hb; simp at hb; omega
    · split at h
      · cases h; rename_i hb; simp at hb; omega
      · cases h

end Cobalt
