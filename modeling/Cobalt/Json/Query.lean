/-
Cobalt.Json.Query — looking up the members of an object,
`json_tree_get_child` of `src/module/json.c`.

A container has its children under `child`, and the lookup goes along the key
nodes there. Without any it takes `next` for an older layout, in which keys and
values follow each other; an empty object under a key has neither.
-/
import Cobalt.Json.SerializeTheorems

namespace Cobalt.Json

open List NodePtr

variable {D : Type}

/-- `kv->key && strcmp(kv->key, key) == 0`. -/
def hasKey (key : List UInt8) (k : Option (List UInt8)) : Bool := k.any (cstr · == cstr key)

/-- The loop over the key nodes under `child`. -/
def NodePtr.findMember (key : List UInt8) : NodePtr D → NodePtr D
  | .null => .null
  | .node _ _ next child k =>
    if hasKey key k then (if child.isNull then next else child) else findMember key next

/-- The loop over keys and values in turn. -/
def NodePtr.findInTurn (key : List UInt8) : NodePtr D → NodePtr D
  | .null => .null
  | .node _ _ .null _ _ => .null
  | .node _ _ (.node ty v next child k') _ k =>
    if hasKey key k then .node ty v next child k' else findInTurn key next

/-- `json_tree_get_child`. -/
def jsonTreeGetChild (parent : NodePtr D) (key : Option (List UInt8)) : NodePtr D :=
  match parent, key with
  | .node .object _ next child _, some key =>
    if child.isNull then next.findInTurn key else child.findMember key
  | _, _ => .null

/-- The value of the first member with a key. -/
def Val.member? (key : List UInt8) : Val D → Option (Val D)
  | .object ms => ms.lookup key
  | _ => none

lemma findMember_link {k : Nat} {ms : List (List UInt8 × NodePtr D)}
    {xs : List (List UInt8 × Val D)} (h : List.Forall₂ DenotesMember ms xs)
    (hms : ∀ m ∈ ms, Built k m.2) (key : List UInt8) :
    BuiltOrNull k ((linkMembers ms).findMember key) ∧
      ((linkMembers ms).findMember key).denote = xs.lookup (cstr key) := by
  induction h with
  | nil => exact ⟨.inl rfl, rfl⟩
  | @cons m x ms xs hd _ ih =>
    have hbuilt := hms m mem_cons_self
    have hchild : m.2.isNull = false := by
      cases hm : m.2 <;> simp_all [isNull, hbuilt.ne_null]
    rw [linkMembers, findMember, hasKey, Option.any_some, hchild, List.lookup, hd.1]
    by_cases hkey : x.1 = cstr key
    · rw [if_pos (beq_iff_eq.mpr hkey), hkey, beq_self_eq_true]
      exact ⟨.inr hbuilt, hd.2⟩
    · rw [if_neg (by simpa using hkey), beq_eq_false_iff_ne.mpr (Ne.symm hkey)]
      exact ih fun m hm => hms m (mem_cons_of_mem _ hm)

lemma jsonTreeGetChild_spec {k : Nat} {p : NodePtr D} (h : BuiltOrNull k p) (key : List UInt8) :
    BuiltOrNull k (jsonTreeGetChild p (some key)) ∧
      (jsonTreeGetChild p (some key)).denote = p.denote.bind (Val.member? (cstr key)) := by
  rcases h with rfl | h
  · exact ⟨.inl rfl, rfl⟩
  obtain ⟨v, hv⟩ := h.denotes
  rw [show p.denote = some v from hv]
  cases h with
  | null | true | false | number | string => cases hv; exact ⟨.inl rfl, rfl⟩
  | array h =>
    obtain ⟨xs, rfl, -⟩ := denotes_arrayNode_inv (fun hmem => (h _ hmem).ne_null rfl) hv
    exact ⟨.inl rfl, rfl⟩
  | @object k ms h =>
    obtain ⟨xs, rfl, hxs⟩ := denotes_objectNode_inv hv
    cases ms with
    | nil => cases hxs; exact ⟨.inl rfl, rfl⟩
    | cons m ms => exact findMember_link hxs (fun m hm => (h m hm).mono (Nat.le_succ k)) key

lemma path_spec {k : Nat} (path : List (List UInt8)) {p : NodePtr D} (h : BuiltOrNull k p) :
    BuiltOrNull k (path.foldl (fun p key => jsonTreeGetChild p (some key)) p) ∧
      (path.foldl (fun p key => jsonTreeGetChild p (some key)) p).denote =
        path.foldl (fun v key => v.bind (Val.member? (cstr key))) p.denote := by
  induction path generalizing p with
  | nil => exact ⟨h, rfl⟩
  | cons key path ih =>
    obtain ⟨hchild, hdenote⟩ := jsonTreeGetChild_spec h key
    rw [foldl_cons, foldl_cons, ← hdenote]
    exact ih hchild

lemma BuiltOrNull.eq_null_iff {k : Nat} {p : NodePtr D} (h : BuiltOrNull k p) :
    p = .null ↔ p.denote = none := by
  rcases h with rfl | h
  · exact iff_of_true rfl rfl
  · obtain ⟨v, hv⟩ := h.denotes
    exact iff_of_false h.ne_null (by rw [show p.denote = some v from hv]; exact Option.some_ne_none v)

/-- For every text and every outcome of the allocations, going down a path of keys in the tree
that the parser returned is going down the path in its value, by the first member with each key,
and ends at the null pointer just where the value has nothing there. -/
theorem jsonTreeGetChild_path (arena : Arena) (strtod : List UInt8 → D) (text : CString)
    (path : List (List UInt8)) :
    let root := (jsonParseWithArena arena strtod text).1
    let found := path.foldl (fun p key => jsonTreeGetChild p (some key)) root
    let value := path.foldl (fun v key => v.bind (Val.member? (cstr key))) root.denote
    found.denote = value ∧ (found = .null ↔ value = none) := by
  obtain ⟨hbuilt, hdenote⟩ := path_spec path (jsonParseWithArena_built arena strtod text)
  refine ⟨hdenote, ?_⟩
  rw [hbuilt.eq_null_iff, hdenote]

end Cobalt.Json
