/-
Cobalt.Json.Serialize — the serializer, `src/module/json_serialize.c`.

Every function here returns the bytes its counterpart appends to the
buffer. The buffer only matters when memory runs out: while every
allocation succeeds `buf_ensure` makes room and `oom` stays false, and that
is the case modelled.

A node offers two links, and `serialize_node` takes `child` when it is set
and `next` otherwise. For a container in a chain of siblings `next` is the
next sibling. `serializeElements` and `serializeMembers` are the two loops
over the chain it takes. What `snprintf` prints a number as is the
parameter `fmt`.
-/
import Cobalt.Json.Dom

namespace Cobalt.Json

variable {D : Type}

/-! ## Strings -/

/-- The bytes the fast scan of `buf_append_escaped_string` looks for. -/
def needsEscape (b : UInt8) : Bool := b == quote || b == backslash || b < 0x20

/-- A digit of `%02x`. -/
def hexDigit (n : Nat) : UInt8 := UInt8.ofNat (if n < 10 then 0x30 + n else 0x61 + (n - 10))

/-- The `switch` of the slow path. -/
def escapeByte (b : UInt8) : List UInt8 :=
  if b == quote then [backslash, quote]
  else if b == backslash then [backslash, backslash]
  else if b == 0x0A then [backslash, 0x6E]
  else if b == 0x0D then [backslash, 0x72]
  else if b == 0x09 then [backslash, 0x74]
  else if b == 0x08 then [backslash, 0x62]
  else if b == 0x0C then [backslash, 0x66]
  else if b < 0x20 then
    [backslash, 0x75, 0x30, 0x30, hexDigit (b.toNat / 16), hexDigit (b.toNat % 16)]
  else [b]

/-- `buf_append_escaped_string`. -/
def bufAppendEscapedString (s : List UInt8) : List UInt8 :=
  quote :: ((if s.any needsEscape then s.flatMap escapeByte else s) ++ [quote])

/-! ## Nodes -/

namespace NodePtr

def isNull : NodePtr D → Bool
  | .null => Bool.true
  | .node .. => Bool.false

/-- `kv->child ? kv->next : (kv->next ? kv->next->next : NULL)`. -/
def memberAfter (next child : NodePtr D) : NodePtr D :=
  if child.isNull then
    match next with
    | .null => .null
    | .node _ _ next' _ _ => next'
  else next

lemma memberAfter_of_child {child : NodePtr D} (h : child.isNull = Bool.false)
    (next : NodePtr D) : next.memberAfter child = next := by
  unfold memberAfter
  rw [h]
  rfl

end NodePtr

/-- The comma before every child but the first. -/
def separator (first : Bool) : List UInt8 := if first then [] else [comma]

/-- `kv->key ? kv->key : ""`, escaped. -/
def keyText (key : Option (List UInt8)) : List UInt8 := bufAppendEscapedString (cstr (key.getD []))

section

variable (fmt : D → List UInt8)

/-- The `switch` of `serialize_node`, given what its two loops append. The
number in a zeroed union is `0.0`. -/
def fieldsText (ty : NodeType) (v : NodeValue D) (elements members : List UInt8) : List UInt8 :=
  match ty, v with
  | .null, _ => nullText
  | .true, _ => trueText
  | .false, _ => falseText
  | .number, .number x => fmt x
  | .number, _ => [0x30]
  | .string, .string s => bufAppendEscapedString (cstr s)
  | .string, _ => [quote, quote]
  | .array, _ => lbracket :: (elements ++ [rbracket])
  | .object, _ => lbrace :: (members ++ [rbrace])

mutual

/-- `serialize_node`. -/
def serializeNode : NodePtr D → List UInt8
  | .null => nullText
  | .node ty v next child _ =>
      fieldsText fmt ty v
        (if child.isNull then serializeElements Bool.true next
          else serializeElements Bool.true child)
        (if child.isNull then serializeMembers Bool.true next
          else serializeMembers Bool.true child)

/-- The loop of the array case, from `elem` on. -/
def serializeElements (first : Bool) : NodePtr D → List UInt8
  | .null => []
  | .node ty v next child _ =>
      separator first
        -- `serialize_node(elem)`
        ++ (fieldsText fmt ty v
          (if child.isNull then serializeElements Bool.true next
            else serializeElements Bool.true child)
          (if child.isNull then serializeMembers Bool.true next
            else serializeMembers Bool.true child)
        ++ serializeElements Bool.false next)

/-- The loop of the object case, from `kv` on. -/
def serializeMembers (first : Bool) : NodePtr D → List UInt8
  | .null => []
  | .node _ _ next child key =>
      separator first ++ (keyText key ++ colon ::
        ((if child.isNull then serializeNode next else serializeNode child)
        ++ (if child.isNull then
              match next with
              | .null => []
              | .node _ _ next' _ _ => serializeMembers Bool.false next'
            else serializeMembers Bool.false next)))

end

/-- `json_serialize`. -/
def jsonSerialize (node : NodePtr D) : List UInt8 :=
  if node.isNull then nullText else serializeNode fmt node

lemma serializeMembers_node (first : Bool) (ty : NodeType) (v : NodeValue D)
    (next child : NodePtr D) (key : Option (List UInt8)) :
    serializeMembers fmt first (.node ty v next child key)
      = separator first ++ (keyText key ++ colon ::
        ((if child.isNull then serializeNode fmt next else serializeNode fmt child)
        ++ serializeMembers fmt Bool.false (next.memberAfter child))) := by
  cases next <;> cases child <;> rfl

end

end Cobalt.Json
