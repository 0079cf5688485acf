/-
Cobalt.Json.Dom — the DOM parser, `src/module/json_parse.c`, with the node
layout of `src/module/json_internal.h`.

The parser keeps a cursor into the text. Every read of the text goes
through `Ctx.load` or `Ctx.loadRange` and every use of a string block
through `Ctx.touch`; both leave an `Access` in the context's log, so what
the parser touches is part of what it computes. The log also says where
string literals start. Memory comes from an arena:
`Arena` says for each request, counted from zero, whether it is granted.
Both entry points run with an arena, so the allocator branches of `jalloc`,
`jfree` and `jrealloc` are never taken and are left out, as are the `arena`
and `owns_arena` fields of a node, which only `json_destroy` reads.

A node pointer is `NodePtr`: `null`, or the node with the pointers it
holds. The chains `json_parse_object` and `json_parse_array` append to are
the lists `jsonParseMembers` and `jsonParseElements` return; `objectNode`
and `arrayNode` link them as the two loops do, the first node hanging off
both `child` and `next` of the container.

The recursive functions carry a fuel; `jsonParseValue_fuel` in
`DomRun.lean` shows that any fuel from `valueFuel` on gives the same
answer.
-/
import Cobalt.Json.Grammar

namespace Cobalt.Json

/-! ## The context -/

/-- One use of memory: `n` bytes of the text from index `lo`, or `n` bytes
from offset `lo` of a string block of `size` bytes. A third kind of entry
marks the start of a string literal: the index of its first character, and
which request asks for its first block. -/
inductive Access where
  | text (lo n : Nat)
  | block (size lo n : Nat)
  | literal (lo request : Nat)
  deriving DecidableEq, Repr

/-- `json_parse_ctx_t`, with the number of arena requests made so far and
the accesses made so far, newest first. -/
structure Ctx where
  str : List UInt8
  pos : Nat
  depth : Nat
  depthExceeded : Bool
  requests : Nat
  log : List Access
  deriving DecidableEq, Repr

/-- Whether the `i`-th request, of `size` bytes, is granted. -/
abbrev Arena := (i size : Nat) → Bool

namespace Ctx

/-- `ctx->len`, which `strlen` computes before parsing starts. -/
def len (c : Ctx) : Nat := c.str.length

/-- What is left of the text at the cursor. -/
def rest (c : Ctx) : List UInt8 := c.str.drop c.pos

def record (c : Ctx) (a : Access) : Ctx := { c with log := a :: c.log }

/-- `ctx->str[i]`. The byte at index `len` is the terminator. -/
def load (c : Ctx) (i : Nat) : UInt8 × Ctx := (c.str.getD i 0, c.record (.text i 1))

/-- `strncpy` of `n` bytes from index `i` on, for a range that ends before
the terminator. -/
def loadRange (c : Ctx) (i n : Nat) : List UInt8 × Ctx :=
  ((c.str.drop i).take n, c.record (.text i n))

/-- `n` bytes from offset `lo` of a string block of `size` bytes. -/
def touch (c : Ctx) (size lo n : Nat) : Ctx := c.record (.block size lo n)

/-- `ctx->pos += n`. -/
def advance (c : Ctx) (n : Nat) : Ctx := { c with pos := c.pos + n }

/-- `ctx->pos < ctx->len && ctx->str[ctx->pos] == b`. -/
def test (c : Ctx) (b : UInt8) : Bool × Ctx :=
  if c.pos < c.len then
    let (x, c) := c.load c.pos
    (x == b, c)
  else (false, c)

/-- `ctx->depth--`. -/
def leave (c : Ctx) : Ctx := { c with depth := c.depth - 1 }

end Ctx

/-- `jalloc`. -/
def jalloc (arena : Arena) (size : Nat) (c : Ctx) : Bool × Ctx :=
  (arena c.requests size, { c with requests := c.requests + 1 })

/-- The loops `while (ctx->pos < ctx->len && p(ctx->str[ctx->pos])) ctx->pos++`. -/
def scanWhile (p : UInt8 → Bool) : Nat → Ctx → Ctx
  | 0, c => c
  | n + 1, c =>
      if c.pos < c.len then
        let (b, c) := c.load c.pos
        if p b then scanWhile p n (c.advance 1) else c
      else c

/-- A scan over all that is left of the text. -/
def scan (p : UInt8 → Bool) (c : Ctx) : Ctx := scanWhile p (c.len - c.pos) c

/-- `json_skip_whitespace`; `is_space` tests the four bytes of the grammar. -/
def jsonSkipWhitespace (c : Ctx) : Ctx := scan isWs c

/-! ## Strings -/

def sizeMax : Nat := 2 ^ 64 - 1

/-- The digit loop of `strtol` in base 16. -/
def strtolDigits (acc : Nat) : List UInt8 → Nat
  | [] => acc
  | b :: bs =>
      match hexVal? b with
      | some v => strtolDigits (acc * 16 + v) bs
      | none => acc

/-- The optional sign `strtol` accepts. -/
def strtolSign : List UInt8 → Bool × List UInt8
  | [] => (false, [])
  | b :: bs =>
      if b == 0x2D then (true, bs) else if b == 0x2B then (false, bs) else (false, b :: bs)

/-- The optional `0x` that `strtol` accepts before a digit in base 16. -/
def strtolPrefix : List UInt8 → List UInt8
  | z :: x :: h :: bs =>
      if z == 0x30 && (x == 0x78 || x == 0x58) && (hexVal? h).isSome then h :: bs
      else z :: x :: h :: bs
  | bs => bs

/-- `strtol(bs, NULL, 16)`: leading white space is skipped, and anything
after the digits is ignored. -/
def strtol16 (bs : List UInt8) : Int :=
  let (neg, bs) := strtolSign (bs.dropWhile isSpaceC)
  let v : Int := strtolDigits 0 (strtolPrefix bs)
  if neg then -v else v

/-- The cast to `unsigned int`. -/
def toUnsigned (v : Int) : Nat := (v % 2 ^ 32).toNat

/-- The bytes `escaped[0 .. elen)` for a code point. -/
def escapedUtf8 (u : Nat) : List UInt8 :=
  if u < 0x80 then [UInt8.ofNat u]
  else if u < 0x800 then [UInt8.ofNat (0xC0 ||| u >>> 6), UInt8.ofNat (0x80 ||| u &&& 0x3F)]
  else if u < 0x10000 then
    [UInt8.ofNat (0xE0 ||| u >>> 12), UInt8.ofNat (0x80 ||| u >>> 6 &&& 0x3F),
      UInt8.ofNat (0x80 ||| u &&& 0x3F)]
  else
    [UInt8.ofNat (0xF0 ||| u >>> 18), UInt8.ofNat (0x80 ||| u >>> 12 &&& 0x3F),
      UInt8.ofNat (0x80 ||| u >>> 6 &&& 0x3F), UInt8.ofNat (0x80 ||| u &&& 0x3F)]

/-- `case 'u'` of the escape switch, the cursor on the `u`. -/
def unicodeEscape (c : Ctx) : Option (List UInt8) × Ctx :=
  if c.pos + 4 ≥ c.len then (none, c)
  else
    let (hex, c) := c.loadRange (c.pos + 1) 4
    let cp := toUnsigned (strtol16 hex)
    if 0xD800 ≤ cp && cp ≤ 0xDBFF then
      if c.pos + 10 < c.len then
        let (b5, c) := c.load (c.pos + 5)
        if b5 == backslash then
          let (b6, c) := c.load (c.pos + 6)
          if b6 == 0x75 then
            let (lowHex, c) := c.loadRange (c.pos + 7) 4
            let lowCp := toUnsigned (strtol16 lowHex)
            if 0xDC00 ≤ lowCp && lowCp ≤ 0xDFFF then
              (some (escapedUtf8 (0x10000 + ((cp - 0xD800) <<< 10 ||| (lowCp - 0xDC00)))),
                c.advance 10)
            else (none, c)
          else (none, c)
        else (none, c)
      else (none, c)
    else if 0xDC00 ≤ cp && cp ≤ 0xDFFF then (none, c)
    else (some (escapedUtf8 cp), c.advance 4)

/-- `switch (c)` on the byte after a backslash. An unknown escape stands
for itself. -/
def jsonEscape (b : UInt8) (c : Ctx) : Option (List UInt8) × Ctx :=
  match escByte? b with
  | some x => (some [x], c)
  | none => if b == 0x75 then unicodeEscape c else (some [b], c)

/-- A string under construction: the size of its block and the bytes
`result[0 .. len)`. -/
structure StrBuf where
  cap : Nat
  bytes : List UInt8
  deriving DecidableEq, Repr

/-- `jrealloc` on the arena: a new block, and `new_size / 2` bytes copied
out of the old one. -/
def jrealloc (arena : Arena) (buf : StrBuf) (newSize : Nat) (c : Ctx) : Option StrBuf × Ctx :=
  let (ok, c) := jalloc arena newSize c
  if ok then
    (some ⟨newSize, buf.bytes.take (newSize / 2)⟩,
      (c.touch buf.cap 0 (newSize / 2)).touch newSize 0 (newSize / 2))
  else (none, c)

/-- The capacity the escape branch asks for. -/
def escapeCap (len elen : Nat) : Nat :=
  let need := if len > sizeMax - elen - 1 then sizeMax else len + elen + 1
  if need > sizeMax / 2 then sizeMax else need * 2

/-- The capacity the plain branch asks for. -/
def byteCap (cap : Nat) : Nat := if cap > sizeMax / 2 then sizeMax else cap * 2

/-- The growth test of the escape branch. -/
def growForEscape (arena : Arena) (buf : StrBuf) (elen : Nat) (c : Ctx) : Option StrBuf × Ctx :=
  if buf.bytes.length + elen + 1 > buf.cap then
    jrealloc arena buf (escapeCap buf.bytes.length elen) c
  else (some buf, c)

/-- The growth test of the plain branch. -/
def growForByte (arena : Arena) (buf : StrBuf) (c : Ctx) : Option StrBuf × Ctx :=
  if buf.bytes.length + 2 > buf.cap then jrealloc arena buf (byteCap buf.cap) c
  else (some buf, c)

/-- `memcpy(result + len, bs, n); len += n`. -/
def StrBuf.append (buf : StrBuf) (bs : List UInt8) : StrBuf := { buf with bytes := buf.bytes ++ bs }

/-- The backslash branch of the loop of `json_parse_string`, the cursor on
the backslash; `none` is a `return NULL`. -/
def appendEscape (arena : Arena) (buf : StrBuf) (c : Ctx) : Option StrBuf × Ctx :=
  let c := c.advance 1
  if c.pos ≥ c.len then (none, c)
  else
    let (b, c) := c.load c.pos
    match jsonEscape b c with
    | (none, c) => (none, c)
    | (some escaped, c) =>
        match growForEscape arena buf escaped.length c with
        | (none, c) => (none, c)
        | (some buf, c) =>
            let c := c.touch buf.cap buf.bytes.length escaped.length
            (some (buf.append escaped), c.advance 1)

/-- The plain branch of the loop, the cursor on `b`. -/
def appendByte (arena : Arena) (buf : StrBuf) (b : UInt8) (c : Ctx) : Option StrBuf × Ctx :=
  match growForByte arena buf c with
  | (none, c) => (none, c)
  | (some buf, c) =>
      let c := c.touch buf.cap buf.bytes.length 1
      (some (buf.append [b]), c.advance 1)

/-- The loop of `json_parse_string`. -/
def jsonParseStringLoop (arena : Arena) : Nat → StrBuf → Ctx → Option StrBuf × Ctx
  | 0, _, c => (none, c)
  | n + 1, buf, c =>
      if c.pos < c.len then
        let (b, c) := c.load c.pos
        if b == quote then (some buf, c)
        else
          match if b == backslash then appendEscape arena buf c else appendByte arena buf b c with
          | (none, c) => (none, c)
          | (some buf, c) => jsonParseStringLoop arena n buf c
      else (some buf, c)

/-- `json_parse_string`: the bytes of the result before the terminator it
writes. -/
def jsonParseString (arena : Arena) (c : Ctx) : Option (List UInt8) × Ctx :=
  match c.test quote with
  | (false, c) => (none, c)
  | (true, c) =>
      let c := c.advance 1
      match jalloc arena 64 (c.record (.literal c.pos c.requests)) with
      | (false, c) => (none, c)
      | (true, c) =>
          match jsonParseStringLoop arena (c.len - c.pos + 1) ⟨64, []⟩ c with
          | (none, c) => (none, c)
          | (some buf, c) =>
              if c.pos ≥ c.len then (none, c)
              else (some buf.bytes, (c.advance 1).touch buf.cap buf.bytes.length 1)

/-! ## Nodes -/

/-- `json_type_t`. -/
inductive NodeType where
  | null
  | true
  | false
  | number
  | string
  | array
  | object
  deriving DecidableEq, Repr

/-- `json_value_t`; `zero` is the union after `memset`. -/
inductive NodeValue (D : Type) where
  | zero
  | number (x : D)
  | string (s : List UInt8)
  deriving DecidableEq, Repr

/-- `json_node_t *`. -/
inductive NodePtr (D : Type) where
  | null
  | node (type : NodeType) (value : NodeValue D) (next child : NodePtr D)
      (key : Option (List UInt8))
  deriving DecidableEq, Repr

variable {D : Type}

namespace NodePtr

/-- `node->next = next`. -/
def setNext : NodePtr D → NodePtr D → NodePtr D
  | .null, _ => .null
  | .node ty v _ child key, next => .node ty v next child key

/-- A node as `json_node_create` leaves it, with its value set. -/
def leaf (ty : NodeType) (v : NodeValue D) : NodePtr D := .node ty v .null .null none

/-- The chain of key nodes the loop of `json_parse_object` builds. -/
def linkMembers : List (List UInt8 × NodePtr D) → NodePtr D
  | [] => .null
  | (key, value) :: ms => .node .object .zero (linkMembers ms) value (some key)

/-- The chain of elements the loop of `json_parse_array` builds. -/
def linkElements : List (NodePtr D) → NodePtr D
  | [] => .null
  | e :: es => e.setNext (linkElements es)

/-- The root of `json_parse_object`. -/
def objectNode (ms : List (List UInt8 × NodePtr D)) : NodePtr D :=
  .node .object .zero (linkMembers ms) (linkMembers ms) none

/-- The root of `json_parse_array`. -/
def arrayNode (es : List (NodePtr D)) : NodePtr D :=
  .node .array .zero (linkElements es) (linkElements es) none

end NodePtr

/-! ## Values -/

/-- `COBALT_JSON_DOM_MAX_DEPTH`. -/
def maxDepth : Nat := 128

/-- `sizeof(json_node_t)`. -/
def nodeSize : Nat := 56

/-- The optional minus of a number. -/
def scanMinus (c : Ctx) : Ctx :=
  match c.test 0x2D with
  | (true, c) => c.advance 1
  | (false, c) => c

/-- The optional fraction of a number. -/
def scanFrac (c : Ctx) : Ctx :=
  match c.test 0x2E with
  | (true, c) => scan isDigit (c.advance 1)
  | (false, c) => c

/-- `ctx->str[ctx->pos] == a || ctx->str[ctx->pos] == b`, with one check of
the position. -/
def Ctx.testEither (c : Ctx) (a b : UInt8) : Bool × Ctx :=
  match c.test a with
  | (true, c) => (true, c)
  | (false, c) => c.test b

/-- The optional exponent of a number. -/
def scanExp (c : Ctx) : Ctx :=
  match c.testEither 0x65 0x45 with
  | (false, c) => c
  | (true, c) =>
      match (c.advance 1).testEither 0x2B 0x2D with
      | (true, c) => scan isDigit (c.advance 1)
      | (false, c) => scan isDigit c

/-- The scan of a number, the cursor on its first byte. -/
def jsonScanNumber (c : Ctx) : Ctx := scanExp (scanFrac (scan isDigit (scanMinus c)))

/-- `strncmp(ctx->str + ctx->pos, word, n) == 0`, guarded by the length. -/
def Ctx.matchWord (c : Ctx) (word : List UInt8) : Bool × Ctx :=
  if c.pos + word.length ≤ c.len then
    let (bs, c) := c.loadRange c.pos word.length
    (bs == word, c)
  else (false, c)

section

variable (arena : Arena) (strtod : List UInt8 → D)

/-- `json_node_create`, with the value its caller then stores. -/
def jsonNodeCreate (ty : NodeType) (v : NodeValue D) (c : Ctx) : NodePtr D × Ctx :=
  match jalloc arena nodeSize c with
  | (false, c) => (.null, c)
  | (true, c) => (.leaf ty v, c)

/-- The number branch of `json_parse_value`. -/
def jsonParseNumber (c : Ctx) : NodePtr D × Ctx :=
  let start := c.pos
  let c := jsonScanNumber c
  let numLen := c.pos - start
  match jalloc arena (numLen + 1) c with
  | (false, c) => (.null, c)
  | (true, c) =>
      let (numStr, c) := c.loadRange start numLen
      let c := (c.touch (numLen + 1) 0 numLen).touch (numLen + 1) numLen 1
      jsonNodeCreate arena .number (.number (strtod numStr)) c

/-- The literal branches of `json_parse_value`. -/
def jsonParseWord (c : Ctx) : NodePtr D × Ctx :=
  match c.matchWord trueText with
  | (true, c) => jsonNodeCreate arena .true .zero (c.advance 4)
  | (false, c) =>
      match c.matchWord falseText with
      | (true, c) => jsonNodeCreate arena .false .zero (c.advance 5)
      | (false, c) =>
          match c.matchWord nullText with
          | (true, c) => jsonNodeCreate arena .null .zero (c.advance 4)
          | (false, c) => (.null, c)

/-- The string branch of `json_parse_value`. -/
def jsonParseStringNode (c : Ctx) : NodePtr D × Ctx :=
  match jsonParseString arena c with
  | (none, c) => (.null, c)
  | (some s, c) => jsonNodeCreate arena .string (.string s) c

/-- The loop of `json_parse_object` up to the colon: the key, the cursor
past the colon. -/
def jsonParseKey (c : Ctx) : Option (List UInt8) × Ctx :=
  match (jsonSkipWhitespace c).test quote with
  | (false, c) => (none, c)
  | (true, c) =>
      match jsonParseString arena c with
      | (none, c) => (none, c)
      | (some key, c) =>
          match (jsonSkipWhitespace c).test colon with
          | (false, c) => (none, c)
          | (true, c) => (some key, c.advance 1)

mutual

/-- `json_parse_object`. -/
def jsonParseObject : Nat → Ctx → NodePtr D × Ctx
  | 0, c => (.null, c)
  | n + 1, c =>
      if c.depth ≥ maxDepth then (.null, { c with depthExceeded := true })
      else
        let c := jsonSkipWhitespace { c with depth := c.depth + 1 }
        match c.test lbrace with
        | (false, c) => (.null, c)
        | (true, c) =>
            match jalloc arena nodeSize (c.advance 1) with
            | (false, c) => (.null, c.leave)
            | (true, c) =>
                match (jsonSkipWhitespace c).test rbrace with
                | (true, c) => (.objectNode [], (c.advance 1).leave)
                | (false, c) =>
                    let (ms, c) := jsonParseMembers n c
                    -- the second test for a closing brace, after the loop
                    match (jsonSkipWhitespace c).test rbrace with
                    | (true, c) => (.objectNode ms, (c.advance 1).leave)
                    | (false, c) => (.objectNode ms, c.leave)

/-- The loop of `json_parse_object`: the members it appends from here on. -/
def jsonParseMembers : Nat → Ctx → List (List UInt8 × NodePtr D) × Ctx
  | 0, c => ([], c)
  | n + 1, c =>
      match jsonParseKey arena c with
      | (none, c) => ([], c)
      | (some key, c) =>
          match jsonParseValue n c with
          | (.null, c) => ([], c)
          | (value, c) =>
              match jalloc arena nodeSize c with
              | (false, c) => ([], c)
              | (true, c) =>
                  match (jsonSkipWhitespace c).test comma with
                  | (true, c) =>
                      let (ms, c) := jsonParseMembers n (c.advance 1)
                      ((key, value) :: ms, c)
                  | (false, c) =>
                      match c.test rbrace with
                      | (true, c) => ([(key, value)], c.advance 1)
                      | (false, c) => ([(key, value)], c)

/-- `json_parse_array`. -/
def jsonParseArray : Nat → Ctx → NodePtr D × Ctx
  | 0, c => (.null, c)
  | n + 1, c =>
      if c.depth ≥ maxDepth then (.null, { c with depthExceeded := true })
      else
        let c := jsonSkipWhitespace { c with depth := c.depth + 1 }
        match c.test lbracket with
        | (false, c) => (.null, c)
        | (true, c) =>
            match jalloc arena nodeSize (c.advance 1) with
            | (false, c) => (.null, c.leave)
            | (true, c) =>
                match (jsonSkipWhitespace c).test rbracket with
                | (true, c) => (.arrayNode [], (c.advance 1).leave)
                | (false, c) =>
                    let (es, c) := jsonParseElements n c
                    match (jsonSkipWhitespace c).test rbracket with
                    | (true, c) => (.arrayNode es, (c.advance 1).leave)
                    | (false, c) => (.arrayNode es, c.leave)

/-- The loop of `json_parse_array`: the elements it appends from here on. -/
def jsonParseElements : Nat → Ctx → List (NodePtr D) × Ctx
  | 0, c => ([], c)
  | n + 1, c =>
      match jsonParseValue n c with
      | (.null, c) => ([], c)
      | (elem, c) =>
          match (jsonSkipWhitespace c).test comma with
          | (true, c) =>
              let (es, c) := jsonParseElements n (c.advance 1)
              (elem :: es, c)
          | (false, c) => ([elem], c)

/-- `json_parse_value`. -/
def jsonParseValue : Nat → Ctx → NodePtr D × Ctx
  | 0, c => (.null, c)
  | n + 1, c =>
      let c := jsonSkipWhitespace c
      if c.pos ≥ c.len then (.null, c)
      else
        let (b, c) := c.load c.pos
        if b == lbrace then jsonParseObject n c
        else if b == lbracket then jsonParseArray n c
        else if b == quote then jsonParseStringNode arena c
        else if b == 0x2D || isDigit b then jsonParseNumber arena strtod c
        else jsonParseWord arena c

end

/-- Fuel for a value: a nested container costs three calls for one byte. -/
def valueFuel (c : Ctx) : Nat := 3 * (c.len - c.pos) + 3

/-- The context both entry points start with. -/
def Ctx.start (text : List UInt8) : Ctx := ⟨text, 0, 0, false, 0, []⟩

/-- `json_parse_with_arena`, for a text and an arena that are not `NULL`,
with the context it ends in. -/
def jsonParseWithArena (text : CString) : NodePtr D × Ctx :=
  let c := Ctx.start text.bytes
  if c.len = 0 then (.null, c)
  else
    let c := jsonSkipWhitespace c
    if c.pos ≥ c.len then (.null, c)
    else
      let (root, c) := jsonParseValue arena strtod (valueFuel c) c
      if c.depthExceeded then (.null, c) else (root, c)

end

/-- `json_parse` when every allocation succeeds: the arena it creates for
itself grants every request. -/
def jsonParse (strtod : List UInt8 → D) (text : CString) : NodePtr D :=
  (jsonParseWithArena (fun _ _ => true) strtod text).1

/-! ## What a tree denotes -/

/-- The value of one node, from the values of the chain under `child`. -/
def fieldsDenote (ty : NodeType) (v : NodeValue D) (es : Option (List (Val D)))
    (ms : Option (List (List UInt8 × Val D))) : Option (Val D) :=
  match ty, v with
  | .null, _ => some .null
  | .true, _ => some .true
  | .false, _ => some .false
  | .number, .number x => some (.number x)
  | .string, .string s => some (.string (cstr s))
  | .array, _ => es.map .array
  | .object, _ => ms.map .object
  | _, _ => none

namespace NodePtr

mutual

/-- The elements along a chain of siblings. -/
def denoteElements : NodePtr D → Option (List (Val D))
  | .null => some []
  | .node ty v next child _ => do
      let x ← fieldsDenote ty v (denoteElements child) (denoteMembers child)
      let xs ← denoteElements next
      return x :: xs

/-- The members along a chain of key nodes: the key of each, and the value
under its `child`. -/
def denoteMembers : NodePtr D → Option (List (List UInt8 × Val D))
  | .null => some []
  | .node _ _ next child key => do
      let k ← key
      let x ← denote child
      let ms ← denoteMembers next
      return (cstr k, x) :: ms

/-- The JSON value a node stands for: `child` is the first child of a
container, `next` the next sibling of a child. -/
def denote : NodePtr D → Option (Val D)
  | .null => none
  | .node ty v _ child _ => fieldsDenote ty v (denoteElements child) (denoteMembers child)

end

end NodePtr

end Cobalt.Json
