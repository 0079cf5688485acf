/-
Cobalt.Json.DomShape — the trees the DOM parser can return.

`Built k p` says that `p` is laid out as the parser lays out a value: a
leaf, or a container whose two links both start the chain of its children,
with at most `k` containers inside one another. `parsersBuilt` shows that
nothing else comes out, on any text and with any arena.
-/
import Cobalt.Json.DomRun
import Cobalt.Json.DomSync

namespace Cobalt.Json

open List NodePtr

variable {D : Type}

/-- A tree as `json_parse_value` lays it out, `k` containers deep or less. -/
inductive Built : Nat → NodePtr D → Prop where
  | null (k : Nat) : Built k (.leaf .null .zero)
  | true (k : Nat) : Built k (.leaf .true .zero)
  | false (k : Nat) : Built k (.leaf .false .zero)
  | number (k : Nat) (x : D) : Built k (.leaf .number (.number x))
  | string (k : Nat) (s : List UInt8) : Built k (.leaf .string (.string s))
  | array {k : Nat} {es : List (NodePtr D)} (h : ∀ e ∈ es, Built k e) :
      Built (k + 1) (.arrayNode es)
  | object {k : Nat} {ms : List (List UInt8 × NodePtr D)} (h : ∀ m ∈ ms, Built k m.2) :
      Built (k + 1) (.objectNode ms)

lemma Built.mono {k k' : Nat} {p : NodePtr D} (h : Built k p) (hk : k ≤ k') : Built k' p := by
  induction h generalizing k' with
  | null => exact .null k'
  | true => exact .true k'
  | false => exact .false k'
  | number _ x => exact .number k' x
  | string _ s => exact .string k' s
  | array _ ih =>
    obtain ⟨k', rfl⟩ : ∃ m, k' = m + 1 := ⟨k' - 1, by omega⟩
    exact .array fun e he => ih e he (by omega)
  | object _ ih =>
    obtain ⟨k', rfl⟩ : ∃ m, k' = m + 1 := ⟨k' - 1, by omega⟩
    exact .object fun m hm => ih m hm (by omega)

/-- What is left of the nesting cap. -/
def Ctx.budget (c : Ctx) : Nat := maxDepth - c.depth

lemma Ctx.Ext.budget {c c' : Ctx} (h : c.Ext c') : c'.budget ≤ c.budget :=
  Nat.sub_le_sub_left h.depth _

/-- Either no node, or one the parser built. -/
def BuiltOrNull (k : Nat) (p : NodePtr D) : Prop := p = .null ∨ Built k p

section

variable (arena : Arena) (strtod : List UInt8 → D)

lemma nodeCreate_built {k : Nat} {ty : NodeType} {v : NodeValue D} (h : Built k (.leaf ty v))
    (c : Ctx) : BuiltOrNull k (jsonNodeCreate arena ty v c).1 := by
  rw [jsonNodeCreate]
  split
  · exact .inl rfl
  · exact .inr h

lemma parseNumber_built (k : Nat) (c : Ctx) : BuiltOrNull k (jsonParseNumber arena strtod c).1 := by
  rw [jsonParseNumber]
  dsimp only
  split
  · exact .inl rfl
  · exact nodeCreate_built arena (.number k _) _

lemma parseWord_built (k : Nat) (c : Ctx) : BuiltOrNull k (jsonParseWord (D := D) arena c).1 := by
  rw [jsonParseWord]
  split
  · exact nodeCreate_built arena (.true k) _
  · split
    · exact nodeCreate_built arena (.false k) _
    · split
      · exact nodeCreate_built arena (.null k) _
      · exact .inl rfl

lemma parseStringNode_built (k : Nat) (c : Ctx) :
    BuiltOrNull k (jsonParseStringNode (D := D) arena c).1 := by
  rw [jsonParseStringNode]
  split
  · exact .inl rfl
  · exact nodeCreate_built arena (.string k _) _

/-- What the recursive functions return, at one fuel. -/
structure ParsersBuilt (n : Nat) : Prop where
  object : ∀ c : Ctx, BuiltOrNull c.budget (jsonParseObject arena strtod n c).1
  members : ∀ c : Ctx, ∀ m ∈ (jsonParseMembers arena strtod n c).1, Built c.budget m.2
  array : ∀ c : Ctx, BuiltOrNull c.budget (jsonParseArray arena strtod n c).1
  elements : ∀ c : Ctx, ∀ e ∈ (jsonParseElements arena strtod n c).1, Built c.budget e
  value : ∀ c : Ctx, BuiltOrNull c.budget (jsonParseValue arena strtod n c).1

namespace ParsersBuilt

variable {arena strtod} {n : Nat}

lemma zero : ParsersBuilt arena strtod 0 :=
  ⟨fun _ => .inl rfl, fun _ _ h => absurd h not_mem_nil, fun _ => .inl rfl,
    fun _ _ h => absurd h not_mem_nil, fun _ => .inl rfl⟩

/-- The children of a container are built one level down. -/
lemma budget_enter {c c1 : Ctx} (hc : ¬ c.depth ≥ maxDepth)
    (h : Ctx.Ext { c with depth := c.depth + 1 } c1) : ∃ k, c.budget = k + 1 ∧ c1.budget ≤ k := by
  refine ⟨maxDepth - (c.depth + 1), ?_, ?_⟩
  · rw [Ctx.budget]
    omega
  · exact Nat.sub_le_sub_left h.depth _

lemma container_built {ι : Type} {first last : UInt8} {loop : Ctx → List ι × Ctx}
    {node : List ι → NodePtr D} {P : Nat → ι → Prop} (hmono : ∀ i k k', P k i → k ≤ k' → P k' i)
    (hloop : ∀ c, ∀ i ∈ (loop c).1, P c.budget i)
    (hnode : ∀ is k, (∀ i ∈ is, P k i) → Built (k + 1) (node is)) (c : Ctx) :
    BuiltOrNull c.budget (jsonParseContainer arena first last loop node c).1 := by
  rw [jsonParseContainer]
  split
  · exact .inl rfl
  · rename_i hc
    split
    · exact .inl rfl
    · have h1 := ((ext_skip_test ‹_›).2 rfl).1
      split
      · exact .inl rfl
      · have h2 := h1.trans (ext_jalloc arena ‹_›)
        split
        · obtain ⟨k, hk, -⟩ := budget_enter hc h2
          rw [hk]
          exact .inr (hnode _ k fun _ h => absurd h not_mem_nil)
        · rename_i c3 ht
          obtain ⟨k, hk, hle⟩ := budget_enter hc (h2.trans (ext_skip_test ht).1)
          rw [hk]
          have hitems := hnode _ k fun i hi => hmono i _ k (hloop c3 i hi) hle
          split <;> exact .inr hitems

variable (h : ParsersBuilt arena strtod n)

include h

lemma object_succ (c : Ctx) : BuiltOrNull c.budget (jsonParseObject arena strtod (n + 1) c).1 := by
  rw [jsonParseObject_succ]
  exact container_built (P := fun k m => Built k m.2) (fun _ _ _ hm => hm.mono) h.members
    (fun _ _ => .object) c

lemma array_succ (c : Ctx) : BuiltOrNull c.budget (jsonParseArray arena strtod (n + 1) c).1 := by
  rw [jsonParseArray_succ]
  exact container_built (fun _ _ _ he => he.mono) h.elements (fun _ _ => .array) c

lemma elements_succ (c : Ctx) :
    ∀ e ∈ (jsonParseElements arena strtod (n + 1) c).1, Built c.budget e := by
  have hv := h.value c
  have hext := ((parsersReach arena strtod n).value c).ext
  rw [jsonParseElements]
  split
  · exact fun _ h => absurd h not_mem_nil
  · rename_i e c1 hne heq
    simp only [heq] at hv hext
    have he := hv.resolve_left hne
    split
    · rename_i c2 ht
      have hle := (hext.trans ((ext_skip_test ht).2 rfl).1).budget
      rw [forall_mem_cons]
      exact ⟨he, fun e' he' => (h.elements _ e' he').mono hle⟩
    · simpa using he

lemma members_succ (c : Ctx) :
    ∀ m ∈ (jsonParseMembers arena strtod (n + 1) c).1, Built c.budget m.2 := by
  rw [jsonParseMembers]
  split
  · exact fun _ h => absurd h not_mem_nil
  · rename_i key c1 hkey
    have hv := h.value c1
    have hext := (ext_parseKey hkey).trans ((parsersReach arena strtod n).value c1).ext
    split
    · exact fun _ h => absurd h not_mem_nil
    · rename_i e c2 hne heq
      simp only [heq] at hv hext
      have he := (hv.resolve_left hne).mono (ext_parseKey hkey).budget
      split
      · exact fun _ h => absurd h not_mem_nil
      · have h3 := hext.trans (ext_jalloc arena ‹_›)
        split
        · rename_i c4 ht
          have hle := (h3.trans ((ext_skip_test ht).2 rfl).1).budget
          rw [forall_mem_cons]
          exact ⟨he, fun m hm => (h.members _ m hm).mono hle⟩
        · split <;> simpa using he

lemma value_succ (c : Ctx) : BuiltOrNull c.budget (jsonParseValue arena strtod (n + 1) c).1 := by
  have hle := ((ext_skip c).extend (.text (jsonSkipWhitespace c).pos 1)).budget
  rw [jsonParseValue]
  dsimp only [Ctx.load]
  split
  · exact .inl rfl
  · split
    · exact (h.object _).imp_right fun h => h.mono hle
    · split
      · exact (h.array _).imp_right fun h => h.mono hle
      · split
        · exact parseStringNode_built arena _ _
        · split
          · exact parseNumber_built arena strtod _ _
          · exact parseWord_built arena _ _

end ParsersBuilt

/-- The recursive functions return built trees only. -/
lemma parsersBuilt (n : Nat) : ParsersBuilt arena strtod n := by
  induction n with
  | zero => exact .zero
  | succ n ih =>
    exact ⟨ih.object_succ, ih.members_succ, ih.array_succ, ih.elements_succ, ih.value_succ⟩

/-- A tree that `json_parse_with_arena` returns is built, within the cap. -/
lemma jsonParseWithArena_built (text : CString) :
    BuiltOrNull maxDepth (jsonParseWithArena arena strtod text).1 := by
  rw [jsonParseWithArena]
  dsimp only
  split
  · exact .inl rfl
  · split
    · exact .inl rfl
    · split
      · exact .inl rfl
      · refine ((parsersBuilt arena strtod _).value _).imp_right fun h => h.mono ?_
        exact Nat.sub_le _ _

end

/-! ## What a built tree denotes -/

lemma Built.ne_null {k : Nat} {p : NodePtr D} (h : Built k p) : p ≠ .null := by
  cases h <;> simp [leaf, arrayNode, objectNode]

lemma exists_forall₂ {α β : Type} {R : α → β → Prop} {l : List α}
    (h : ∀ a ∈ l, ∃ b, R a b) : ∃ l', List.Forall₂ R l l' := by
  induction l with
  | nil => exact ⟨[], .nil⟩
  | cons a l ih =>
    obtain ⟨b, hb⟩ := h a (mem_cons_self ..)
    obtain ⟨l', hl'⟩ := ih fun x hx => h x (mem_cons_of_mem _ hx)
    exact ⟨b :: l', .cons hb hl'⟩

/-- Every built tree denotes a value. -/
lemma Built.denotes {k : Nat} {p : NodePtr D} (h : Built k p) : ∃ v, p.Denotes v := by
  induction h with
  | null | true | false | number | string => exact ⟨_, rfl⟩
  | @array k es h ih =>
    obtain ⟨xs, hxs⟩ := exists_forall₂ ih
    have hnull : NodePtr.null ∉ es := fun hmem => (h _ hmem).ne_null rfl
    exact ⟨.array xs, (denotes_arrayNode hnull xs).mpr hxs⟩
  | @object k ms h ih =>
    have hms : ∀ m ∈ ms, ∃ x, NodePtr.DenotesMember m x := by
      intro m hm
      obtain ⟨v, hv⟩ := ih m hm
      exact ⟨(cstr m.1, v), rfl, hv⟩
    obtain ⟨xs, hxs⟩ := exists_forall₂ hms
    exact ⟨.object xs, (denotes_objectNode ms xs).mpr hxs⟩

end Cobalt.Json
