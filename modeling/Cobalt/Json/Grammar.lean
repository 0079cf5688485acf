/-
Cobalt.Json.Grammar — the JSON grammar of RFC 8259 over bytes.

Nothing here is taken from the parsers. A `Doc` is the parse tree of a
text: it keeps number lexemes and string characters as they are written,
so that a text has at most one tree up to white space. `Value s d r` says
that `s` starts with the text of `d` and that `r` is what is left of it;
`Elements` and `Members` are the insides of a non-empty array and object
from just after the opening bracket (or a comma) to just after the closing
bracket. `Doc.value` is what a tree denotes: the strings with their escapes
decoded to UTF-8, and each number the value a parameter `strtod` gives its
lexeme.

Unescaped string characters are any bytes from `0x20` on other than the
quote and the backslash. This contains every UTF-8 text the RFC allows.
-/
import Cobalt.Lib.CString

namespace Cobalt.Json

/-! ## Bytes with a meaning -/

@[simp, reducible] def quote : UInt8 := 0x22
@[simp, reducible] def backslash : UInt8 := 0x5C
@[simp, reducible] def comma : UInt8 := 0x2C
@[simp, reducible] def colon : UInt8 := 0x3A
@[simp, reducible] def lbracket : UInt8 := 0x5B
@[simp, reducible] def rbracket : UInt8 := 0x5D
@[simp, reducible] def lbrace : UInt8 := 0x7B
@[simp, reducible] def rbrace : UInt8 := 0x7D

/-- The four white-space bytes of the grammar. -/
def isWs (b : UInt8) : Bool := b == 0x20 || b == 0x09 || b == 0x0A || b == 0x0D

/-- `ws`: a possibly empty run of white space. -/
def Ws (w : List UInt8) : Prop := ∀ b ∈ w, isWs b = true

/-! ## Numbers -/

/-- `1*DIGIT`. -/
def Digits (l : List UInt8) : Prop := l ≠ [] ∧ ∀ b ∈ l, isDigit b = true

/-- `[ minus ]`. -/
def Minus (l : List UInt8) : Prop := l = [] ∨ l = [0x2D]

/-- `int`: a zero, or digits that do not start with a zero. -/
def IntPart (l : List UInt8) : Prop := l = [0x30] ∨ (Digits l ∧ l.head? ≠ some 0x30)

/-- `[ frac ]`. -/
def Frac (l : List UInt8) : Prop := l = [] ∨ ∃ ds, l = 0x2E :: ds ∧ Digits ds

/-- `[ exp ]`. -/
def Exponent (l : List UInt8) : Prop :=
  l = [] ∨ ∃ e sign ds, l = e :: (sign ++ ds) ∧ (e = 0x65 ∨ e = 0x45)
    ∧ (sign = [] ∨ sign = [0x2B] ∨ sign = [0x2D]) ∧ Digits ds

/-- `number = [ minus ] int [ frac ] [ exp ]`. -/
def Number (l : List UInt8) : Prop :=
  ∃ m i f e, l = m ++ (i ++ (f ++ e)) ∧ Minus m ∧ IntPart i ∧ Frac f ∧ Exponent e

/-! ## Strings -/

/-- One character of a string literal, as written. -/
inductive StrChar where
  | raw (b : UInt8)
  | esc (c : UInt8)
  | uni (a b c d : UInt8)
  deriving DecidableEq, Repr

/-- The byte a two-character escape stands for. -/
def escByte? (c : UInt8) : Option UInt8 :=
  if c == 0x22 then some 0x22
  else if c == 0x5C then some 0x5C
  else if c == 0x2F then some 0x2F
  else if c == 0x62 then some 0x08
  else if c == 0x66 then some 0x0C
  else if c == 0x6E then some 0x0A
  else if c == 0x72 then some 0x0D
  else if c == 0x74 then some 0x09
  else none

/-- The value of four hexadecimal digits. -/
def hex4? (a b c d : UInt8) : Option Nat := do
  let a ← hexVal? a
  let b ← hexVal? b
  let c ← hexVal? c
  let d ← hexVal? d
  return ((a * 16 + b) * 16 + c) * 16 + d

namespace StrChar

/-- The grammar's `char`. -/
def valid : StrChar → Bool
  | .raw b => decide (0x20 ≤ b) && b != quote && b != backslash
  | .esc c => (escByte? c).isSome
  | .uni a b c d => (hex4? a b c d).isSome

/-- How a character is spelled. -/
def text : StrChar → List UInt8
  | .raw b => [b]
  | .esc c => [backslash, c]
  | .uni a b c d => [backslash, 0x75, a, b, c, d]

end StrChar

/-- The code unit of a `\u` escape; zero for digits that are not hexadecimal. -/
def unit (a b c d : UInt8) : Nat := (hex4? a b c d).getD 0

def isHigh (u : Nat) : Bool := 0xD800 ≤ u && u ≤ 0xDBFF
def isLow (u : Nat) : Bool := 0xDC00 ≤ u && u ≤ 0xDFFF

/-- The code point of a surrogate pair. -/
def pairPoint (hi lo : Nat) : Nat := 0x10000 + (hi - 0xD800) * 0x400 + (lo - 0xDC00)

/-- UTF-8. -/
def utf8 (u : Nat) : List UInt8 :=
  if u < 0x80 then [UInt8.ofNat u]
  else if u < 0x800 then [UInt8.ofNat (0xC0 + u / 0x40), UInt8.ofNat (0x80 + u % 0x40)]
  else if u < 0x10000 then
    [UInt8.ofNat (0xE0 + u / 0x1000), UInt8.ofNat (0x80 + u / 0x40 % 0x40),
      UInt8.ofNat (0x80 + u % 0x40)]
  else
    [UInt8.ofNat (0xF0 + u / 0x40000), UInt8.ofNat (0x80 + u / 0x1000 % 0x40),
      UInt8.ofNat (0x80 + u / 0x40 % 0x40), UInt8.ofNat (0x80 + u % 0x40)]

/-- What the characters of a literal denote. Two `\u` escapes that form a
surrogate pair denote one code point. -/
def decode : List StrChar → List UInt8
  | [] => []
  | .raw b :: cs => b :: decode cs
  | .esc c :: cs => (escByte? c).getD c :: decode cs
  | .uni a b c d :: .uni a' b' c' d' :: cs =>
      if isHigh (unit a b c d) && isLow (unit a' b' c' d') then
        utf8 (pairPoint (unit a b c d) (unit a' b' c' d')) ++ decode cs
      else utf8 (unit a b c d) ++ decode (.uni a' b' c' d' :: cs)
  | .uni a b c d :: cs => utf8 (unit a b c d) ++ decode cs

/-- No unpaired surrogate escape. -/
def paired : List StrChar → Bool
  | [] => true
  | .uni a b c d :: .uni a' b' c' d' :: cs =>
      if isHigh (unit a b c d) then isLow (unit a' b' c' d') && paired cs
      else !isLow (unit a b c d) && paired (.uni a' b' c' d' :: cs)
  | .uni a b c d :: cs => !isHigh (unit a b c d) && !isLow (unit a b c d) && paired cs
  | _ :: cs => paired cs

/-- No high surrogate escape followed by a `\u` escape that is not a low one. -/
def noBrokenPair : List StrChar → Bool
  | [] => true
  | .uni a b c d :: .uni a' b' c' d' :: cs =>
      if isHigh (unit a b c d) then isLow (unit a' b' c' d') && noBrokenPair cs
      else noBrokenPair (.uni a' b' c' d' :: cs)
  | _ :: cs => noBrokenPair cs

/-- No `\u0000` escape. -/
def noNulEscape (cs : List StrChar) : Bool :=
  cs.all fun
    | .uni a b c d => unit a b c d != 0
    | _ => true

/-- Neither a `\u0000` escape nor an unpaired surrogate escape. -/
def portable (cs : List StrChar) : Bool := noNulEscape cs && paired cs

/-- The characters of a literal, spelled one after the other. -/
def charsText (cs : List StrChar) : List UInt8 := cs.flatMap StrChar.text

/-- `string`. -/
def stringText (cs : List StrChar) : List UInt8 := quote :: (charsText cs ++ [quote])

def ValidChars (cs : List StrChar) : Prop := ∀ c ∈ cs, c.valid = true

/-! ## Values -/

/-- The parse tree of a JSON text. -/
inductive Doc where
  | null
  | true
  | false
  | number (lexeme : List UInt8)
  | string (cs : List StrChar)
  | array (ds : List Doc)
  | object (ms : List (List StrChar × Doc))
  deriving Repr

/-- What a JSON text denotes, over the number type of the host. -/
inductive Val (D : Type) where
  | null
  | true
  | false
  | number (x : D)
  | string (s : List UInt8)
  | array (xs : List (Val D))
  | object (ms : List (List UInt8 × Val D))
  deriving Repr

def nullText : List UInt8 := [0x6E, 0x75, 0x6C, 0x6C]
def trueText : List UInt8 := [0x74, 0x72, 0x75, 0x65]
def falseText : List UInt8 := [0x66, 0x61, 0x6C, 0x73, 0x65]

mutual

/-- `Value s d r`: `s` is the text of `d` followed by `r`. -/
inductive Value : List UInt8 → Doc → List UInt8 → Prop where
  | null (r : List UInt8) : Value (nullText ++ r) .null r
  | true (r : List UInt8) : Value (trueText ++ r) .true r
  | false (r : List UInt8) : Value (falseText ++ r) .false r
  | number {l : List UInt8} (r : List UInt8) (h : Number l) : Value (l ++ r) (.number l) r
  | string {cs : List StrChar} (r : List UInt8) (h : ValidChars cs) :
      Value (stringText cs ++ r) (.string cs) r
  | emptyArray {w : List UInt8} (r : List UInt8) (hw : Ws w) :
      Value (lbracket :: (w ++ rbracket :: r)) (.array []) r
  | array {s r : List UInt8} {ds : List Doc} (h : Elements s ds r) :
      Value (lbracket :: s) (.array ds) r
  | emptyObject {w : List UInt8} (r : List UInt8) (hw : Ws w) :
      Value (lbrace :: (w ++ rbrace :: r)) (.object []) r
  | object {s r : List UInt8} {ms : List (List StrChar × Doc)} (h : Members s ms r) :
      Value (lbrace :: s) (.object ms) r

/-- The rest of an array from an element on, closing bracket included. -/
inductive Elements : List UInt8 → List Doc → List UInt8 → Prop where
  | last {w w' s r : List UInt8} {d : Doc} (hw : Ws w) (hw' : Ws w')
      (h : Value s d (w' ++ rbracket :: r)) : Elements (w ++ s) [d] r
  | cons {w w' s s' r : List UInt8} {d : Doc} {ds : List Doc} (hw : Ws w) (hw' : Ws w')
      (h : Value s d (w' ++ comma :: s')) (hs : Elements s' ds r) :
      Elements (w ++ s) (d :: ds) r

/-- The rest of an object from a member on, closing brace included. -/
inductive Members : List UInt8 → List (List StrChar × Doc) → List UInt8 → Prop where
  | last {w wk wc w' s r : List UInt8} {k : List StrChar} {d : Doc}
      (hw : Ws w) (hk : ValidChars k) (hwk : Ws wk) (hwc : Ws wc) (hw' : Ws w')
      (h : Value s d (w' ++ rbrace :: r)) :
      Members (w ++ (stringText k ++ (wk ++ colon :: (wc ++ s)))) [(k, d)] r
  | cons {w wk wc w' s s' r : List UInt8} {k : List StrChar} {d : Doc}
      {ms : List (List StrChar × Doc)}
      (hw : Ws w) (hk : ValidChars k) (hwk : Ws wk) (hwc : Ws wc) (hw' : Ws w')
      (h : Value s d (w' ++ comma :: s')) (hs : Members s' ms r) :
      Members (w ++ (stringText k ++ (wk ++ colon :: (wc ++ s)))) ((k, d) :: ms) r

end

/-- `JSON-text = ws value ws`. -/
def JsonText (s : List UInt8) (d : Doc) : Prop :=
  ∃ w s' w', s = w ++ s' ∧ Ws w ∧ Value s' d w' ∧ Ws w'

namespace Doc

mutual

/-- How many containers are open at the deepest point of a text. -/
def nesting : Doc → Nat
  | .array ds => 1 + nestingElems ds
  | .object ms => 1 + nestingMembers ms
  | _ => 0

def nestingElems : List Doc → Nat
  | [] => 0
  | d :: ds => max d.nesting (nestingElems ds)

def nestingMembers : List (List StrChar × Doc) → Nat
  | [] => 0
  | (_, d) :: ms => max d.nesting (nestingMembers ms)

end

mutual

/-- Every string of a text, keys included, satisfies `p`. -/
def allStrings (p : List StrChar → Bool) : Doc → Bool
  | .string cs => p cs
  | .array ds => allStringsElems p ds
  | .object ms => allStringsMembers p ms
  | _ => Bool.true

def allStringsElems (p : List StrChar → Bool) : List Doc → Bool
  | [] => Bool.true
  | d :: ds => d.allStrings p && allStringsElems p ds

def allStringsMembers (p : List StrChar → Bool) : List (List StrChar × Doc) → Bool
  | [] => Bool.true
  | (k, d) :: ms => p k && d.allStrings p && allStringsMembers p ms

end

section

variable {D : Type} (strtod : List UInt8 → D)

mutual

/-- The value a parse tree denotes. -/
def value : Doc → Val D
  | .null => .null
  | .true => .true
  | .false => .false
  | .number l => .number (strtod l)
  | .string cs => .string (decode cs)
  | .array ds => .array (valueElems ds)
  | .object ms => .object (valueMembers ms)

def valueElems : List Doc → List (Val D)
  | [] => []
  | d :: ds => value d :: valueElems ds

def valueMembers : List (List StrChar × Doc) → List (List UInt8 × Val D)
  | [] => []
  | (k, d) :: ms => (decode k, value d) :: valueMembers ms

end

end

end Doc

end Cobalt.Json
