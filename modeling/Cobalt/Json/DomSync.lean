/-
Cobalt.Json.DomSync — when the DOM parser's cursor keeps step with the text.

`json_parse_object` looks for its closing brace twice: in the loop, right
after the last member, and once more after the loop. The second look takes
a brace that belongs to an enclosing object. `Val.closeRun` counts the
braces a value takes too many and `eat` takes them, so that after a value
`v` with `r` left of the text the cursor stands before `eat v.closeRun r`.
Nothing is lost as long as every object that is entered too late finds a
closing bracket or the end there. It finds a comma exactly when a value
that takes two braces too many is not the last child of its container;
`Val.synced` excludes that.

The last section reads the chains of nodes back: which lists of children
stand for which lists of values.
-/
import Cobalt.Json.DomScalars

namespace Cobalt.Json

open List Option

variable {D : Type}

/-! ## Braces taken too many -/

namespace Val

mutual

/-- How many braces after it a value takes with it. -/
def closeRun : Val D → Nat
  | .object ms => closeRunMembers ms
  | _ => 0

def closeRunMembers : List (List UInt8 × Val D) → Nat
  | [] => 0
  | [(_, v)] => 1 + v.closeRun
  | _ :: m :: ms => closeRunMembers (m :: ms)

end

/-- A non-empty object whose last member holds a non-empty object. -/
def endsDeep : Val D → Bool
  | .object ms =>
      match ms.getLast? with
      | some (_, .object (_ :: _)) => Bool.true
      | _ => Bool.false
  | _ => Bool.false

mutual

/-- No child of a container but the last one is a non-empty object whose
last member holds a non-empty object. -/
def synced : Val D → Bool
  | .array xs => syncedElems xs
  | .object ms => syncedMembers ms
  | _ => Bool.true

def syncedElems : List (Val D) → Bool
  | [] => Bool.true
  | x :: xs => x.synced && (xs.isEmpty || !x.endsDeep) && syncedElems xs

def syncedMembers : List (List UInt8 × Val D) → Bool
  | [] => Bool.true
  | (_, x) :: ms => x.synced && (ms.isEmpty || !x.endsDeep) && syncedMembers ms

end

lemma closeRunMembers_pos (m : List UInt8 × Val D) (ms : List (List UInt8 × Val D)) :
    0 < closeRunMembers (m :: ms) := by
  induction ms generalizing m with
  | nil => obtain ⟨k, v⟩ := m; simp [closeRunMembers]
  | cons m' ms ih => rw [closeRunMembers]; exact ih m'

lemma closeRun_pos_iff {v : Val D} : 0 < v.closeRun ↔ ∃ m ms, v = .object (m :: ms) := by
  cases v with
  | object ms =>
    cases ms with
    | nil => simp [closeRun, closeRunMembers]
    | cons m ms => simp [closeRun, closeRunMembers_pos]
  | _ => simp [closeRun]

lemma closeRunMembers_getLast {ms : List (List UInt8 × Val D)} (k : List UInt8) (v : Val D)
    (h : ms.getLast? = some (k, v)) : closeRunMembers ms = 1 + v.closeRun := by
  induction ms with
  | nil => cases h
  | cons m ms ih =>
    cases ms with
    | nil => cases h; rfl
    | cons m' ms => rw [closeRunMembers]; exact ih (by simpa using h)

lemma endsDeep_eq_false_iff {v : Val D} : v.endsDeep = Bool.false ↔ v.closeRun ≤ 1 := by
  cases v with
  | object ms =>
    rw [endsDeep, closeRun]
    cases h : ms.getLast? with
    | none =>
      rw [getLast?_eq_none_iff] at h
      subst h
      simp [closeRunMembers]
    | some m =>
      obtain ⟨k, v⟩ := m
      rw [closeRunMembers_getLast k v h]
      have hv := closeRun_pos_iff (v := v)
      cases v with
      | object ms' =>
        cases ms' with
        | nil => simp [closeRun, closeRunMembers]
        | cons m' ms' => simpa using ne_of_gt (hv.mpr ⟨m', ms', rfl⟩)
      | _ => simp [closeRun]
  | _ => simp [endsDeep, closeRun]

end Val

/-- Skip white space and take up to `j` closing braces, with the white
space after each. -/
def eat : Nat → List UInt8 → List UInt8
  | 0, s => skip s
  | j + 1, s =>
      match skip s with
      | [] => []
      | b :: t => if b == rbrace then eat j t else b :: t

lemma eat_skip (j : Nat) (s : List UInt8) : eat j (skip s) = eat j s := by
  cases j <;> simp only [eat, skip_skip]

lemma eat_brace (j : Nat) {w : List UInt8} (hw : Ws w) (r : List UInt8) :
    eat (j + 1) (w ++ rbrace :: r) = eat j r := by
  rw [eat, skip_ws_cons hw (by decide)]
  simp

/-- Braces are only taken where there are some. -/
lemma eat_of_head {b : UInt8} {s t : List UInt8} (h : skip s = b :: t) (hb : b ≠ rbrace)
    (j : Nat) : eat j s = b :: t := by
  cases j with
  | zero => exact h
  | succ j => simp [eat, h, hb]

lemma eat_of_nil {s : List UInt8} (h : skip s = []) (j : Nat) : eat j s = [] := by
  cases j with
  | zero => exact h
  | succ j => simp [eat, h]

lemma skip_eat (j : Nat) (s : List UInt8) : skip (eat j s) = eat j s := by
  induction j generalizing s with
  | zero => exact skip_skip s
  | succ j ih =>
    cases hs : skip s with
    | nil => rw [eat_of_nil hs]; rfl
    | cons b t =>
      by_cases hb : b = rbrace
      · simpa [eat, hs, hb] using ih t
      · rw [eat_of_head hs hb, ← hs, skip_skip]

lemma eat_eat (i j : Nat) (s : List UInt8) : eat i (eat j s) = eat (i + j) s := by
  induction j generalizing s with
  | zero => exact eat_skip i s
  | succ j ih =>
    cases hs : skip s with
    | nil => rw [eat_of_nil hs, eat_of_nil hs, eat_of_nil (by rfl)]
    | cons b t =>
      by_cases hb : b = rbrace
      · subst hb
        have h1 : eat (j + 1) s = eat j t := by simp [eat, hs]
        have h2 : eat (i + (j + 1)) s = eat (i + j) t := by simp [eat, hs]
        rw [h1, h2, ih]
      · rw [eat_of_head hs hb, eat_of_head hs hb]
        exact eat_of_head (by rw [← hs, skip_skip]) hb i

/-- No comma turns up while the objects that end together are left: the
loop of each looks for one after its last member. -/
def Clear (m : Nat) (r : List UInt8) : Prop := ∀ j, j + 2 ≤ m → (eat j r).head? ≠ some comma

lemma clear_of_le_one {m : Nat} (h : m ≤ 1) (r : List UInt8) : Clear m r :=
  fun _ hj => absurd hj (by omega)

lemma Clear.mono {m m' : Nat} {r : List UInt8} (h : Clear m r) (hm : m' ≤ m) : Clear m' r :=
  fun j hj => h j (by omega)

/-- Before a comma, clear means that at most one brace is taken. -/
lemma Clear.shallow {v : Val D} {w s : List UInt8} (hw : Ws w)
    (h : Clear v.closeRun (w ++ comma :: s)) : v.endsDeep = false := by
  rw [Val.endsDeep_eq_false_iff]
  by_contra hdeep
  refine h 0 (by omega) ?_
  rw [eat, skip_ws_cons hw (by decide)]
  rfl

lemma Clear.inner {m : Nat} {w r : List UInt8} (hw : Ws w) (h : Clear (1 + m) r) :
    Clear m (w ++ rbrace :: r) := by
  intro j hj
  cases j with
  | zero => rw [eat, skip_ws_cons hw (by decide)]; simp
  | succ j => rw [eat_brace j hw]; exact h j (by omega)

/-- After the last value of an object its loop finds no comma. -/
lemma Clear.head_inner {m : Nat} {w r : List UInt8} (hw : Ws w) (h : Clear (1 + m) r) :
    (eat m (w ++ rbrace :: r)).head? ≠ some comma := by
  cases m with
  | zero => rw [eat, skip_ws_cons hw (by decide)]; simp
  | succ m => rw [eat_brace m hw]; exact h m (by omega)

/-! ## Strings without NUL -/

lemma utf8_ne_zero {u : Nat} (hu : u ≠ 0) (h : u < 0x110000) : ∀ b ∈ utf8 u, b ≠ 0 := by
  have hof : ∀ n, n < 256 → n ≠ 0 → UInt8.ofNat n ≠ 0 := by
    intro n hn h0 heq
    have := congrArg UInt8.toNat heq
    rw [UInt8.toNat_ofNat_of_lt' hn] at this
    exact h0 this
  simp only [utf8]
  intro b hb
  repeat' split at hb
  all_goals
    simp only [mem_cons, not_mem_nil, or_false] at hb
    rcases hb with rfl | rfl | rfl | rfl <;> exact hof _ (by omega) (by omega)

lemma escByte?_ne_zero {c x : UInt8} (h : escByte? c = some x) : x ≠ 0 := by
  rw [escByte?] at h
  repeat' split at h
  all_goals cases h
  all_goals decide

/-- A literal without a `\u0000` escape denotes bytes that are not zero. -/
lemma decode_ne_zero {cs : List StrChar} (hv : ValidChars cs) (hn : noNulEscape cs = true) :
    ∀ b ∈ decode cs, b ≠ 0 := by
  have huni : ∀ a b c d, StrChar.uni a b c d ∈ cs → unit a b c d ≠ 0 := by
    intro a b c d hmem
    simpa using all_eq_true.mp hn _ hmem
  clear hn
  induction cs using decode.induct with
  | case1 => simp [decode]
  | case2 b cs ih =>
    have hb : 0x20 ≤ b := by
      have := hv _ (mem_cons_self ..)
      simp only [StrChar.valid, Bool.and_eq_true, decide_eq_true_eq] at this
      exact this.1.1
    have hb0 : b ≠ 0 := by rintro rfl; exact absurd hb (by decide)
    rw [decode, forall_mem_cons]
    exact ⟨hb0, ih (fun x hx => hv x (mem_cons_of_mem _ hx))
      fun a b c d h => huni a b c d (mem_cons_of_mem _ h)⟩
  | case3 e cs ih =>
    obtain ⟨x, hx⟩ : ∃ x, escByte? e = some x := isSome_iff_exists.mp (hv _ (mem_cons_self ..))
    rw [decode, hx, forall_mem_cons]
    exact ⟨escByte?_ne_zero hx, ih (fun x hx => hv x (mem_cons_of_mem _ hx))
      fun a b c d h => huni a b c d (mem_cons_of_mem _ h)⟩
  | case4 a b c d a' b' c' d' cs hif ih =>
    obtain ⟨hhi, hlo⟩ := Bool.and_eq_true_iff.mp hif
    simp only [isHigh, isLow, Bool.and_eq_true, decide_eq_true_eq] at hhi hlo
    have hp : pairPoint (unit a b c d) (unit a' b' c' d') ≠ 0 := by unfold pairPoint; omega
    rw [decode, if_pos hif, forall_mem_append]
    exact ⟨utf8_ne_zero hp (pairPoint_lt hhi.2 hlo.2), ih (fun x hx => hv x (by simp [hx]))
      fun a b c d h => huni a b c d (by simp [h])⟩
  | case5 a b c d a' b' c' d' cs hif ih =>
    rw [decode, if_neg hif, forall_mem_append]
    exact ⟨utf8_ne_zero (huni a b c d (by simp)) (lt_trans (unit_lt ..) (by decide)),
      ih (fun x hx => hv x (mem_cons_of_mem _ hx))
      fun a b c d h => huni a b c d (mem_cons_of_mem _ h)⟩
  | case6 a b c d cs hcs ih =>
    rw [decode]
    · rw [forall_mem_append]
      exact ⟨utf8_ne_zero (huni a b c d (by simp)) (lt_trans (unit_lt ..) (by decide)),
        ih (fun x hx => hv x (mem_cons_of_mem _ hx))
        fun a b c d h => huni a b c d (mem_cons_of_mem _ h)⟩
    · exact hcs

lemma cstr_decode {cs : List StrChar} (hv : ValidChars cs) (hp : portable cs = true) :
    cstr (decode cs) = decode cs := cstr_eq_self (decode_ne_zero hv (Bool.and_eq_true_iff.mp hp).1)

/-! ## Chains of nodes -/

namespace NodePtr

/-- A node of the tree and the value it stands for. -/
def Denotes (p : NodePtr D) (v : Val D) : Prop := p.denote = some v

lemma Denotes.ne_null {p : NodePtr D} {v : Val D} (h : p.Denotes v) : p ≠ .null := by
  rintro rfl
  cases h

/-- A key with its node, and the member they stand for. -/
def DenotesMember (m : List UInt8 × NodePtr D) (x : List UInt8 × Val D) : Prop :=
  cstr m.1 = x.1 ∧ m.2.Denotes x.2

lemma denoteElements_setNext {p : NodePtr D} (hp : p ≠ .null) (q : NodePtr D) :
    (p.setNext q).denoteElements
      = p.denote.bind fun x => q.denoteElements.map fun xs => x :: xs := by
  cases p with
  | null => exact absurd rfl hp
  | node ty v next child key =>
    simp only [setNext, denoteElements, denote, Option.bind_eq_bind, Option.pure_def]
    congr 1
    funext x
    cases q.denoteElements <;> rfl

lemma denoteElements_link {es : List (NodePtr D)} (hes : NodePtr.null ∉ es) (xs : List (Val D)) :
    (linkElements es).denoteElements = some xs ↔ List.Forall₂ Denotes es xs := by
  induction es generalizing xs with
  | nil => simp [linkElements, denoteElements, eq_comm]
  | cons e es ih =>
    rw [mem_cons, not_or] at hes
    rw [linkElements, denoteElements_setNext (Ne.symm hes.1), List.forall₂_cons_left_iff]
    simp only [bind_eq_some_iff, map_eq_some_iff, ih hes.2]
    constructor
    · rintro ⟨x, hx, ys, hys, rfl⟩
      exact ⟨x, ys, hx, hys, rfl⟩
    · rintro ⟨x, ys, hx, hys, rfl⟩
      exact ⟨x, hx, ys, hys, rfl⟩

lemma denotes_arrayNode {es : List (NodePtr D)} (hes : NodePtr.null ∉ es) (xs : List (Val D)) :
    (arrayNode es).Denotes (.array xs) ↔ List.Forall₂ Denotes es xs := by
  rw [← denoteElements_link hes, Denotes, arrayNode, denote, fieldsDenote]
  simp

lemma denoteMembers_link (ms : List (List UInt8 × NodePtr D)) (xs : List (List UInt8 × Val D)) :
    (linkMembers ms).denoteMembers = some xs ↔ List.Forall₂ DenotesMember ms xs := by
  induction ms generalizing xs with
  | nil => simp [linkMembers, denoteMembers, eq_comm]
  | cons m ms ih =>
    obtain ⟨k, p⟩ := m
    rw [linkMembers, denoteMembers, List.forall₂_cons_left_iff]
    simp only [Option.bind_eq_bind, Option.pure_def, Option.bind_some, Option.bind_eq_some_iff,
      Option.some.injEq, ih]
    constructor
    · rintro ⟨x, hx, ys, hys, rfl⟩
      exact ⟨(cstr k, x), ys, ⟨rfl, hx⟩, hys, rfl⟩
    · rintro ⟨⟨k', x⟩, ys, ⟨hk, hx⟩, hys, rfl⟩
      exact ⟨x, hx, ys, hys, by simp only at hk; rw [hk]⟩

lemma denotes_objectNode (ms : List (List UInt8 × NodePtr D)) (xs : List (List UInt8 × Val D)) :
    (objectNode ms).Denotes (.object xs) ↔ List.Forall₂ DenotesMember ms xs := by
  rw [← denoteMembers_link, Denotes, objectNode, denote, fieldsDenote]
  simp

end NodePtr

end Cobalt.Json
