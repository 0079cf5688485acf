/-
Cobalt.Json.Sax — the streaming parser, `src/module/json_sax.c`.

The parser walks the input by position, keeps the line and the column for
its error report, and calls the handler for every token. A callback is
modelled by its answer to the events it has been told of so far, the
present one last; `trace` is that list. `err` is `none` when the caller
passed no error record.

The temporary buffers of `parse_string` and `parse_number` hold the bytes
their callback is then given, so they are lists here; allocations succeed.
The frames the parser pushes are written and never read, and are left out.
The recursive functions carry a fuel; `SaxRun.lean` shows that a parse never
runs out of it: every failure has been reported.
-/
import Cobalt.Lib.Swar
import Cobalt.Json.Grammar

namespace Cobalt.Json.Sax

/-! ## The parser and its handler -/

/-- `COBALT_JSON_MAX_DEPTH`. -/
def maxDepth : Nat := 128

/-- `cobalt_json_errcode_t`. -/
inductive ErrCode where
  | ok
  | unexpectedChar
  | unterminatedString
  | invalidEscape
  | invalidNumber
  | unbalancedBrackets
  | depthExceeded
  | userAborted
  | invalidUtf8
  | unexpectedEof
  | trailingContent
  deriving DecidableEq, Repr

/-- `cobalt_json_error_t`. -/
structure Error where
  code : ErrCode
  offset : Nat
  line : Nat
  column : Nat
  message : String
  deriving DecidableEq, Repr

/-- One call of a callback, with its arguments. -/
inductive Event (D : Type) where
  | null
  | bool (val : Bool)
  | number (val : D) (raw : List UInt8)
  | string (val : List UInt8)
  | key (key : List UInt8)
  | startObject
  | endObject
  | startArray
  | endArray
  deriving DecidableEq, Repr

/-- A callback, or `NULL`. -/
abbrev Callback (D : Type) := Option (List (Event D) → Bool)

/-- `cobalt_json_sax_handler_t`. -/
structure Handler (D : Type) where
  onNull : Callback D
  onBool : Callback D
  onNumber : Callback D
  onString : Callback D
  onKey : Callback D
  onStartObject : Callback D
  onEndObject : Callback D
  onStartArray : Callback D
  onEndArray : Callback D

/-- `sax_parser_t`, and the events the handler has been told of. -/
structure SaxParser (D : Type) where
  str : List UInt8
  pos : Nat
  line : Nat
  col : Nat
  err : Option Error
  depth : Nat
  aborted : Bool
  trace : List (Event D)
  deriving DecidableEq, Repr

/-- What a parsing function returns, and the parser it leaves. -/
abbrev Out (D : Type) := Bool × SaxParser D

variable {D : Type}

/-- `if (!r) return false;` before the rest of a function. -/
def Out.andThen (r : Out D) (rest : SaxParser D → Out D) : Out D :=
  match r with
  | (true, p) => rest p
  | (false, p) => (false, p)

namespace SaxParser

def len (p : SaxParser D) : Nat := p.str.length

/-- What is left of the input. -/
def rest (p : SaxParser D) : List UInt8 := p.str.drop p.pos

/-- `p->str[i]`. -/
def load (p : SaxParser D) (i : Nat) : UInt8 := p.str.getD i 0

/-- `p->pos += n; p->col += n`. -/
def advance (p : SaxParser D) (n : Nat) : SaxParser D := { p with pos := p.pos + n, col := p.col + n }

/-- `p->pos < p->len && p->str[p->pos] == b`. -/
def sees (p : SaxParser D) (b : UInt8) : Bool := p.pos < p.len && p.load p.pos == b

/-- `p->pos + n <= p->len && memcmp(p->str + p->pos, word, n) == 0`. -/
def seesWord (p : SaxParser D) (word : List UInt8) : Bool :=
  p.pos + word.length ≤ p.len && p.rest.take word.length == word

/-- `set_error`. -/
def setError (p : SaxParser D) (code : ErrCode) (msg : String) : Out D :=
  (false, { p with err := p.err.map fun _ => ⟨code, p.pos, p.line, p.col, msg⟩ })

/-- The call of a callback that is not `NULL`. -/
def call (p : SaxParser D) (cb : Callback D) (e : Event D) : Out D :=
  match cb with
  | none => (true, p)
  | some answer => (answer (p.trace ++ [e]), { p with trace := p.trace ++ [e] })

/-- A call and what follows when the callback aborts. -/
def emit (p : SaxParser D) (cb : Callback D) (e : Event D) (msg : String) : Out D :=
  match p.call cb e with
  | (true, p) => (true, p)
  | (false, p) => { p with aborted := true }.setError .userAborted msg

end SaxParser

open SaxParser

/-! ## Words -/

/-- `load64_le`. -/
def load64Le (s : List UInt8) (pos : Nat) : UInt64 := UInt64.ofNat (Swar.pack ((s.drop pos).take 8))

/-- `has_zero_byte`. -/
def hasZeroByte (v : UInt64) : UInt64 := (v - 0x0101010101010101) &&& ~~~v &&& 0x8080808080808080

/-- `has_byte`. -/
def hasByte (v : UInt64) (byte : UInt8) : UInt64 :=
  hasZeroByte (v ^^^ 0x0101010101010101 * byte.toUInt64)

/-- The mask `scan_unescaped` computes for a word. -/
def stopMask (w : UInt64) : UInt64 :=
  hasByte w quote ||| hasByte w backslash |||
    ((w - 0x2020202020202020) &&& ~~~w &&& 0x8080808080808080)

/-- The loop of `skip_whitespace`. -/
def skipLoop : Nat → SaxParser D → SaxParser D
  | 0, p => p
  | n + 1, p =>
      if p.pos < p.len then
        if p.pos + 8 ≤ p.len && load64Le p.str p.pos == 0x2020202020202020 then
          skipLoop n (p.advance 8)
        else
          let c := p.load p.pos
          if c == 0x20 || c == 0x09 || c == 0x0D then skipLoop n (p.advance 1)
          else if c == 0x0A then
            skipLoop n { p with pos := p.pos + 1, line := p.line + 1, col := 1 }
          else p
      else p

/-- `skip_whitespace`. -/
def skipWhitespace (p : SaxParser D) : SaxParser D := skipLoop (p.len - p.pos) p

/-- Where a scan stops, and the reads it made, newest first: the index of
the first byte and the number of bytes. -/
structure Scan where
  pos : Nat
  reads : List (Nat × Nat)
  deriving DecidableEq, Repr

/-- The byte loop of `scan_unescaped`. -/
def scanBytes (s : List UInt8) : Nat → Scan → Scan
  | 0, r => r
  | n + 1, r =>
      if r.pos < s.length then
        let c := s.getD r.pos 0
        let r := { r with reads := (r.pos, 1) :: r.reads }
        if c == quote || c == backslash || c < 0x20 then r
        else scanBytes s n { r with pos := r.pos + 1 }
      else r

/-- The word loop of `scan_unescaped`, and the byte loop after it. -/
def scanWords (s : List UInt8) : Nat → Scan → Scan
  | 0, r => r
  | n + 1, r =>
      if r.pos + 8 ≤ s.length then
        let mask := stopMask (load64Le s r.pos)
        let r := { r with reads := (r.pos, 8) :: r.reads }
        if mask != 0 then { r with pos := r.pos + Swar.ctz 64 mask.toNat >>> 3 }
        else scanWords s n { r with pos := r.pos + 8 }
      else scanBytes s (s.length - r.pos) r

/-- `scan_unescaped`. -/
def scanUnescaped (s : List UInt8) (pos : Nat) : Scan := scanWords s (s.length - pos + 1) ⟨pos, []⟩

/-! ## Strings -/

/-- The loop of `parse_4hex`. -/
def parse4hexLoop : Nat → Nat → SaxParser D → Option Nat × SaxParser D
  | 0, cp, p => (some cp, p)
  | n + 1, cp, p =>
      let c := p.load p.pos
      let p := p.advance 1
      match hexVal? c with
      | none => (none, (p.setError .invalidEscape "Invalid hex digit in \\u escape").2)
      | some v => parse4hexLoop n (cp <<< 4 ||| v) p

/-- `parse_4hex`. -/
def parse4hex (p : SaxParser D) : Option Nat × SaxParser D :=
  if p.pos + 4 > p.len then
    (none, (p.setError .invalidEscape "Incomplete \\u hex sequence").2)
  else parse4hexLoop 4 0 p

/-- `encode_utf8`; no bytes for a code point that is too large. -/
def encodeUtf8 (cp : Nat) : List UInt8 :=
  if cp ≤ 0x7F then [UInt8.ofNat cp]
  else if cp ≤ 0x7FF then
    [UInt8.ofNat (0xC0 ||| cp >>> 6), UInt8.ofNat (0x80 ||| cp &&& 0x3F)]
  else if cp ≤ 0xFFFF then
    [UInt8.ofNat (0xE0 ||| cp >>> 12), UInt8.ofNat (0x80 ||| cp >>> 6 &&& 0x3F),
      UInt8.ofNat (0x80 ||| cp &&& 0x3F)]
  else if cp ≤ 0x10FFFF then
    [UInt8.ofNat (0xF0 ||| cp >>> 18), UInt8.ofNat (0x80 ||| cp >>> 12 &&& 0x3F),
      UInt8.ofNat (0x80 ||| cp >>> 6 &&& 0x3F), UInt8.ofNat (0x80 ||| cp &&& 0x3F)]
  else []

/-- The low half of a surrogate pair, when `cp` is a high one and a `\u`
comes next. -/
def lowSurrogate (cp : Nat) (p : SaxParser D) : Option Nat × SaxParser D :=
  if 0xD800 ≤ cp && cp ≤ 0xDBFF then
    if p.pos + 2 ≤ p.len && p.load p.pos == backslash && p.load (p.pos + 1) == 0x75 then
      match parse4hex (p.advance 2) with
      | (none, p) => (none, p)
      | (some lowCp, p) =>
          if 0xDC00 ≤ lowCp && lowCp ≤ 0xDFFF then
            (some (0x10000 + ((cp - 0xD800) <<< 10 ||| (lowCp - 0xDC00))), p)
          else (none, (p.setError .invalidEscape "Invalid UTF-16 surrogate pair").2)
    else (some cp, p)
  else (some cp, p)

/-- `case 'u'` of the escape switch, the cursor after the `u`. -/
def unicodeEscape (p : SaxParser D) : Option (List UInt8) × SaxParser D :=
  match parse4hex p with
  | (none, p) => (none, p)
  | (some cp, p) =>
      match lowSurrogate cp p with
      | (none, p) => (none, p)
      | (some cp, p) =>
          let seq := encodeUtf8 cp
          if seq.length == 0 then
            (none, (p.setError .invalidEscape "Invalid Unicode codepoint").2)
          else (some seq, p)

/-- The backslash branch of the slow path, the cursor on the backslash: the
bytes it appends. -/
def parseEscape (p : SaxParser D) : Option (List UInt8) × SaxParser D :=
  let p := p.advance 1
  if p.pos ≥ p.len then
    (none, (p.setError .invalidEscape "Unterminated escape sequence").2)
  else
    let esc := p.load p.pos
    let p := p.advance 1
    match escByte? esc with
    | some decChar => (some [decChar], p)
    | none =>
        if esc == 0x75 then unicodeEscape p
        else (none, (p.setError .invalidEscape "Invalid escape character").2)

/-- The loop of the slow path; `none` is a `return` with an error. -/
def stringLoop : Nat → List UInt8 → SaxParser D → Option (List UInt8) × SaxParser D
  | 0, _, p => (none, p)
  | n + 1, out, p =>
      if p.pos < p.len then
        let c := p.load p.pos
        if c == quote then (some out, p.advance 1)
        else if c == backslash then
          match parseEscape p with
          | (none, p) => (none, p)
          | (some bytes, p) => stringLoop n (out ++ bytes) p
        else if c < 0x20 then
          (none, (p.setError .unexpectedChar "Unescaped control character in string").2)
        else
          let segLen := (scanUnescaped p.str p.pos).pos - p.pos
          stringLoop n (out ++ p.rest.take segLen) (p.advance segLen)
      else (some out, p)

section Parsing

variable (handler : Handler D)

/-- The callback for a key or a string. -/
def emitString (isKey : Bool) (s : List UInt8) (p : SaxParser D) : Out D :=
  if isKey then p.emit handler.onKey (.key s) "User aborted in string callback"
  else p.emit handler.onString (.string s) "User aborted in string callback"

/-- `parse_string`. -/
def parseString (isKey : Bool) (p : SaxParser D) : Out D :=
  if p.pos ≥ p.len || p.load p.pos != quote then
    p.setError .unexpectedChar "Expected opening quote '\"'"
  else
    let p := p.advance 1
    let segLen := (scanUnescaped p.str p.pos).pos - p.pos
    let seg := p.rest.take segLen
    let p := p.advance segLen
    if p.sees quote then emitString handler isKey seg (p.advance 1)
    else
      match stringLoop (p.len - p.pos + 1) seg p with
      | (none, p) => (false, p)
      | (some out, p) =>
          if p.pos > p.len || p.load (p.pos - 1) != quote then
            p.setError .unterminatedString "Unterminated string literal"
          else emitString handler isKey out p

/-! ## Numbers -/

/-- The digit loops of `parse_number`. -/
def digitLoop : Nat → SaxParser D → SaxParser D
  | 0, p => p
  | n + 1, p =>
      if p.pos < p.len && isDigit (p.load p.pos) then digitLoop n (p.advance 1) else p

def scanDigits (p : SaxParser D) : SaxParser D := digitLoop (p.len - p.pos) p

/-- The integer part. -/
def parseInt (p : SaxParser D) : Out D :=
  if p.load p.pos == 0x30 then (true, p.advance 1)
  else if 0x31 ≤ p.load p.pos && p.load p.pos ≤ 0x39 then (true, scanDigits p)
  else p.setError .invalidNumber "Malformed number: expected digit"

/-- The digits after a point or in an exponent. -/
def parseDigits (msg : String) (p : SaxParser D) : Out D :=
  if p.pos ≥ p.len || !isDigit (p.load p.pos) then p.setError .invalidNumber msg
  else (true, scanDigits p)

/-- The fractional part. -/
def parseFrac (p : SaxParser D) : Out D :=
  if p.sees 0x2E then
    parseDigits "Malformed number: expected digit after '.'" (p.advance 1)
  else (true, p)

/-- The exponent part. -/
def parseExp (p : SaxParser D) : Out D :=
  if p.sees 0x65 || p.sees 0x45 then
    let p := p.advance 1
    let p := if p.sees 0x2B || p.sees 0x2D then p.advance 1 else p
    parseDigits "Malformed number: expected exponent digits" p
  else (true, p)

/-- The lexeme of a number. -/
def scanNumber (p : SaxParser D) : Out D :=
  let p := if p.load p.pos == 0x2D then p.advance 1 else p
  if p.pos ≥ p.len then p.setError .invalidNumber "Malformed number: lone minus"
  else (parseInt p).andThen fun p => (parseFrac p).andThen parseExp

variable (strtod : List UInt8 → D)

/-- `parse_number`. -/
def parseNumber (p₀ : SaxParser D) : Out D :=
  (scanNumber p₀).andThen fun p =>
    let raw := p₀.rest.take (p.pos - p₀.pos)
    match p.call handler.onNumber (.number (strtod raw) raw) with
    | (true, p) => (true, p)
    | (false, p) =>
        { p with aborted := true, col := p₀.col }.setError .userAborted "User aborted in on_number"

/-! ## Values -/

/-- `p->depth--` and the callback at the end of an object. -/
def closeObject (p : SaxParser D) : Out D :=
  { p with depth := p.depth - 1 }.emit handler.onEndObject .endObject
    "User aborted in on_end_object"

/-- `p->depth--` and the callback at the end of an array. -/
def closeArray (p : SaxParser D) : Out D :=
  { p with depth := p.depth - 1 }.emit handler.onEndArray .endArray
    "User aborted in on_end_array"

/-- A key and the colon after it, in the loop of `parse_object`. -/
def parseKey (p : SaxParser D) : Out D :=
  let p := skipWhitespace p
  if p.pos ≥ p.len || p.load p.pos != quote then
    p.setError .unexpectedChar "Expected string key in JSON object"
  else
    (parseString handler true p).andThen fun p =>
      let p := skipWhitespace p
      if p.pos ≥ p.len || p.load p.pos != colon then
        p.setError .unexpectedChar "Expected ':' after object key"
      else (true, p.advance 1)

/-- The three literal names, and everything that is not a value. -/
def parseWord (p : SaxParser D) : Out D :=
  if p.seesWord trueText then
    (p.advance 4).emit handler.onBool (.bool true) "User aborted in on_bool"
  else if p.seesWord falseText then
    (p.advance 5).emit handler.onBool (.bool false) "User aborted in on_bool"
  else if p.seesWord nullText then
    (p.advance 4).emit handler.onNull .null "User aborted in on_null"
  else p.setError .unexpectedChar "Unexpected character encountered"

mutual

/-- `parse_object`. -/
def parseObject : Nat → SaxParser D → Out D
  | 0, p => (false, p)
  | n + 1, p =>
      if p.depth ≥ maxDepth then
        p.setError .depthExceeded "Exceeded maximum nesting depth (128)"
      else
        ({ p.advance 1 with depth := p.depth + 1 }.emit handler.onStartObject .startObject
          "User aborted in on_start_object").andThen fun p =>
            let p := skipWhitespace p
            if p.sees rbrace then closeObject handler (p.advance 1)
            else (parseMembers n p).andThen (closeObject handler)

/-- The loop of `parse_object`. -/
def parseMembers : Nat → SaxParser D → Out D
  | 0, p => (false, p)
  | n + 1, p =>
      if p.pos < p.len then
        (parseKey handler p).andThen fun p =>
          (parseValue n (skipWhitespace p)).andThen fun p =>
            let p := skipWhitespace p
            if p.sees comma then parseMembers n (p.advance 1)
            else if p.sees rbrace then (true, p.advance 1)
            else p.setError .unexpectedChar "Expected ',' or '\x7d' in JSON object"
      else (true, p)

/-- `parse_array`. -/
def parseArray : Nat → SaxParser D → Out D
  | 0, p => (false, p)
  | n + 1, p =>
      if p.depth ≥ maxDepth then
        p.setError .depthExceeded "Exceeded maximum nesting depth (128)"
      else
        ({ p.advance 1 with depth := p.depth + 1 }.emit handler.onStartArray .startArray
          "User aborted in on_start_array").andThen fun p =>
            let p := skipWhitespace p
            if p.sees rbracket then closeArray handler (p.advance 1)
            else (parseElements n p).andThen (closeArray handler)

/-- The loop of `parse_array`. -/
def parseElements : Nat → SaxParser D → Out D
  | 0, p => (false, p)
  | n + 1, p =>
      if p.pos < p.len then
        (parseValue n (skipWhitespace p)).andThen fun p =>
          let p := skipWhitespace p
          if p.sees comma then parseElements n (p.advance 1)
          else if p.sees rbracket then (true, p.advance 1)
          else p.setError .unexpectedChar "Expected ',' or ']' in JSON array"
      else (true, p)

/-- `parse_value`. -/
def parseValue : Nat → SaxParser D → Out D
  | 0, p => (false, p)
  | n + 1, p =>
      let p := skipWhitespace p
      if p.pos ≥ p.len then p.setError .unexpectedEof "Unexpected end of input"
      else
        let c := p.load p.pos
        if c == lbrace then parseObject n p
        else if c == lbracket then parseArray n p
        else if c == quote then parseString handler false p
        else if c == 0x2D || isDigit c then parseNumber handler strtod p
        else parseWord handler p

end

/-- Fuel that is always enough for a value at the cursor. -/
def valueFuel (p : SaxParser D) : Nat := 3 * (p.len - p.pos) + 3

/-- The parser on a whole input. -/
def start (bytes : List UInt8) (err : Option Error) : SaxParser D :=
  ⟨bytes, 0, 1, 1, err, 0, false, []⟩

/-- `cobalt_json_sax_parse` after its check for `NULL` arguments. -/
def parseRoot (bytes : List UInt8) (err : Option Error) : Out D :=
  let p := skipWhitespace (start bytes err)
  if p.pos ≥ p.len then p.setError .unexpectedEof "Empty JSON input"
  else
    (parseValue handler strtod (valueFuel p) p).andThen fun p =>
      let p := skipWhitespace p
      if p.pos < p.len then
        p.setError .trailingContent "Unexpected trailing content after JSON root"
      else (true, p)

end Parsing

/-- What the caller of `cobalt_json_sax_parse` sees: the answer, the error
record if there is one, and the calls of the callbacks. -/
structure Result (D : Type) where
  ok : Bool
  err : Option Error
  trace : List (Event D)
  deriving DecidableEq, Repr

/-- `cobalt_json_sax_parse`. The caller may pass `NULL` for the text and for
the handler, and no error record. -/
def cobaltJsonSaxParse (strtod : List UInt8 → D) (jsonStr : Option (List UInt8))
    (handler : Option (Handler D)) (wantsErr : Bool) : Result D :=
  let err : Option Error := if wantsErr then some ⟨.ok, 0, 1, 1, ""⟩ else none
  match jsonStr, handler with
  | some bytes, some handler =>
      let (ok, p) := parseRoot handler strtod bytes err
      ⟨ok, p.err, p.trace⟩
  | _, _ =>
      ⟨false, err.map fun e => { e with code := .unexpectedEof, message := "Invalid NULL argument" }, []⟩

end Cobalt.Json.Sax
