/-
Cobalt.Lib.Chained — singly linked lists, and families of them.

`Chained next p xs` says that the nodes from `p` on, along `next`, are `xs`.
The list can be computed with `walk`, its last node with `lastOf`; both stop
after as many nodes as there are. `Partition L S` says that the lists of a
family share no node and have the nodes of `S` between them: what an
operation that moves nodes between two lists has to show is that the two
lists together are the same up to order.
-/
import Mathlib

namespace Cobalt

open List

open Function (update update_self update_of_ne)

variable {α ι : Type}

/-! ## Lists through a next field -/

/-- The nodes from `p` on are `xs`. -/
def Chained (next : α → Option α) : Option α → List α → Prop
  | p, [] => p = none
  | p, x :: xs => p = some x ∧ Chained next (next x) xs

/-- The nodes from `p` on, at most so many. -/
def walk (next : α → Option α) : Nat → Option α → List α
  | 0, _ => []
  | _, none => []
  | fuel + 1, some x => x :: walk next fuel (next x)

/-- The last node of the list that starts with `x`. -/
def lastOf (next : α → Option α) : Nat → α → Option α
  | 0, _ => none
  | fuel + 1, x =>
      match next x with
      | none => some x
      | some y => lastOf next fuel y

namespace Chained

variable {next next' : α → Option α} {p q : Option α} {x y : α} {xs ys : List α}

@[simp] lemma nil_iff : Chained next p [] ↔ p = none := Iff.rfl

@[simp] lemma cons_iff : Chained next p (x :: xs) ↔ p = some x ∧ Chained next (next x) xs :=
  Iff.rfl

@[simp] lemma none_iff : Chained next none xs ↔ xs = [] := by
  cases xs <;> simp

lemma some_iff : Chained next (some x) xs ↔ ∃ ys, xs = x :: ys ∧ Chained next (next x) ys := by
  cases xs with
  | nil => simp
  | cons y ys =>
    constructor
    · rintro ⟨h, hl⟩
      cases h
      exact ⟨ys, rfl, hl⟩
    · rintro ⟨zs, h, hl⟩
      cases h
      exact ⟨rfl, hl⟩

lemma congr (h : Chained next p xs) (heq : ∀ x ∈ xs, next' x = next x) : Chained next' p xs := by
  induction xs generalizing p with
  | nil => exact h
  | cons x xs ih =>
    refine ⟨h.1, ?_⟩
    rw [heq x (mem_cons_self ..)]
    exact ih h.2 fun y hy => heq y (mem_cons_of_mem _ hy)

variable [DecidableEq α] {r : Option α}

lemma write (h : Chained next p xs) (hy : y ∉ xs) : Chained (update next y r) p xs :=
  h.congr fun _ hx => update_of_ne (ne_of_mem_of_not_mem hx hy) ..

lemma append (h : Chained next p xs) (hnodup : xs.Nodup) (hlast : xs.getLast? = some y)
    (hr : Chained (update next y r) r ys) : Chained (update next y r) p (xs ++ ys) := by
  induction xs generalizing p with
  | nil => cases hlast
  | cons x xs ih =>
    refine ⟨h.1, ?_⟩
    cases xs with
    | nil =>
      rw [getLast?_singleton, Option.some.injEq] at hlast
      subst hlast
      rw [update_self]
      exact hr
    | cons z zs =>
      rw [getLast?_cons_cons] at hlast
      have hne : x ≠ y := by
        rintro rfl
        exact (nodup_cons.mp hnodup).1 (mem_of_getLast? hlast)
      rw [update_of_ne hne]
      exact ih h.2 (nodup_cons.mp hnodup).2 hlast

omit [DecidableEq α]

lemma walk_eq (h : Chained next p xs) {fuel : Nat} (hfuel : xs.length ≤ fuel) :
    walk next fuel p = xs := by
  induction xs generalizing p fuel with
  | nil =>
    cases h
    cases fuel <;> rfl
  | cons x xs ih =>
    obtain ⟨rfl, hrest⟩ := h
    cases fuel with
    | zero => simp at hfuel
    | succ fuel => rw [walk, ih hrest (Nat.le_of_succ_le_succ hfuel)]

lemma lastOf_eq (h : Chained next (some x) xs) {fuel : Nat} (hfuel : xs.length ≤ fuel) :
    lastOf next fuel x = xs.getLast? := by
  induction xs generalizing x fuel with
  | nil => cases h
  | cons z zs ih =>
    obtain ⟨⟨⟩, hrest⟩ := h
    cases fuel with
    | zero => simp at hfuel
    | succ fuel =>
      rw [lastOf]
      cases hnext : next z with
      | none =>
        rw [hnext, none_iff] at hrest
        subst hrest
        rfl
      | some y =>
        rw [hnext] at hrest
        obtain ⟨ws, rfl, -⟩ := some_iff.mp hrest
        rw [getLast?_cons_cons]
        exact ih hrest (Nat.le_of_succ_le_succ hfuel)

end Chained

/-! ## Lists that share no node -/

/-- The nodes that satisfy `S` are in one list of the family each, and once. -/
structure Partition (L : ι → List α) (S : α → Prop) : Prop where
  nodup : ∀ p, (L p).Nodup
  apart : ∀ p q x, x ∈ L p → x ∈ L q → p = q
  mem_iff : ∀ x, (∃ p, x ∈ L p) ↔ S x

namespace Partition

variable {L : ι → List α} {S S' : α → Prop} {p q : ι} {x : α} {xs ys : List α}

lemma not_mem (h : Partition L S) (hx : x ∈ L p) (hne : q ≠ p) : x ∉ L q :=
  fun hq => hne (h.apart q p x hq hx)

lemma existsUnique (h : Partition L S) (hx : S x) : ∃! p, x ∈ L p := by
  obtain ⟨p, hp⟩ := (h.mem_iff x).mpr hx
  exact ⟨p, hp, fun q hq => h.apart q p x hq hp⟩

variable [DecidableEq ι]

lemma move (h : Partition L S) (hne : p ≠ q) (hperm : (xs ++ ys).Perm (L p ++ L q)) :
    Partition (update (update L p xs) q ys) S := by
  have hnodup : (xs ++ ys).Nodup := by
    refine hperm.nodup_iff.mpr (nodup_append'.mpr ⟨h.nodup p, h.nodup q, ?_⟩)
    exact fun x hp hq => hne (h.apart p q x hp hq)
  have hmem : ∀ x, x ∈ xs ∨ x ∈ ys ↔ x ∈ L p ∨ x ∈ L q := by
    intro x
    rw [← mem_append, ← mem_append, hperm.mem_iff]
  have hat : ∀ r, r ≠ p → r ≠ q → update (update L p xs) q ys r = L r := by
    intro r hp hq
    rw [update_of_ne hq, update_of_ne hp]
  have hp : update (update L p xs) q ys p = xs := by
    rw [update_of_ne hne, update_self]
  have hq : update (update L p xs) q ys q = ys := update_self ..
  -- where a node of one list of the new family was before
  have hwas : ∀ r x, x ∈ update (update L p xs) q ys r →
      (r = p ∧ x ∈ xs) ∨ (r = q ∧ x ∈ ys) ∨ (r ≠ p ∧ r ≠ q ∧ x ∈ L r) := by
    intro r x hx
    by_cases hrp : r = p
    · exact .inl ⟨hrp, by rwa [hrp, hp] at hx⟩
    · by_cases hrq : r = q
      · exact .inr (.inl ⟨hrq, by rwa [hrq, hq] at hx⟩)
      · exact .inr (.inr ⟨hrp, hrq, by rwa [hat r hrp hrq] at hx⟩)
  refine ⟨fun r => ?_, fun r r' x hx hx' => ?_, fun x => ?_⟩
  · by_cases hrp : r = p
    · rw [hrp, hp]
      exact (nodup_append'.mp hnodup).1
    · by_cases hrq : r = q
      · rw [hrq, hq]
        exact (nodup_append'.mp hnodup).2.1
      · rw [hat r hrp hrq]
        exact h.nodup r
  · have hdisj : x ∈ xs → x ∉ ys := fun hx hy => (nodup_append'.mp hnodup).2.2 hx hy
    have hold : x ∈ xs ∨ x ∈ ys → ∀ r, x ∈ L r → r = p ∨ r = q := by
      intro hx r hr
      exact ((hmem x).mp hx).imp (h.apart r p x hr) (h.apart r q x hr)
    rcases hwas r x hx with ⟨hr, hx⟩ | ⟨hr, hx⟩ | ⟨hp, hq, hx⟩ <;>
      rcases hwas r' x hx' with ⟨hr', hx'⟩ | ⟨hr', hx'⟩ | ⟨hp', hq', hx'⟩
    · exact hr.trans hr'.symm
    · exact absurd hx' (hdisj hx)
    · exact ((hold (.inl hx) r' hx').elim hp' hq').elim
    · exact absurd hx (hdisj hx')
    · exact hr.trans hr'.symm
    · exact ((hold (.inr hx) r' hx').elim hp' hq').elim
    · exact ((hold (.inl hx') r hx).elim hp hq).elim
    · exact ((hold (.inr hx') r hx).elim hp hq).elim
    · exact h.apart r r' x hx hx'
  · rw [← h.mem_iff x]
    constructor
    · rintro ⟨r, hx⟩
      rcases hwas r x hx with ⟨-, hx⟩ | ⟨-, hx⟩ | ⟨-, -, hx⟩
      · exact ((hmem x).mp (.inl hx)).elim (fun h => ⟨p, h⟩) (fun h => ⟨q, h⟩)
      · exact ((hmem x).mp (.inr hx)).elim (fun h => ⟨p, h⟩) (fun h => ⟨q, h⟩)
      · exact ⟨r, hx⟩
    · rintro ⟨r, hx⟩
      by_cases hr : r = p ∨ r = q
      · have hx' : x ∈ L p ∨ x ∈ L q := by
          rcases hr with rfl | rfl
          · exact .inl hx
          · exact .inr hx
        rcases (hmem x).mpr hx' with hx' | hx'
        · exact ⟨p, by rwa [hp]⟩
        · exact ⟨q, by rwa [hq]⟩
      · rw [not_or] at hr
        exact ⟨r, hat r hr.1 hr.2 ▸ hx⟩

lemma add (h : Partition L S) (hp : L p = []) (hx : ¬ S x) (hS : ∀ y, S' y ↔ S y ∨ y = x) :
    Partition (update L p [x]) S' := by
  have hfresh : ∀ r, x ∉ L r := fun r hr => hx ((h.mem_iff x).mp ⟨r, hr⟩)
  have hwas : ∀ r y, y ∈ update L p [x] r → (r = p ∧ y = x) ∨ (r ≠ p ∧ y ∈ L r) := by
    intro r y hy
    by_cases hr : r = p
    · subst hr
      rw [update_self, mem_singleton] at hy
      exact .inl ⟨rfl, hy⟩
    · rw [update_of_ne hr] at hy
      exact .inr ⟨hr, hy⟩
  refine ⟨fun r => ?_, fun r r' y hy hy' => ?_, fun y => ?_⟩
  · by_cases hr : r = p
    · subst hr
      rw [update_self]
      exact nodup_singleton x
    · rw [update_of_ne hr]
      exact h.nodup r
  · rcases hwas r y hy with ⟨hr, rfl⟩ | ⟨hr, hy⟩ <;>
      rcases hwas r' _ hy' with ⟨hr', hyx⟩ | ⟨hr', hy'⟩
    · exact hr.trans hr'.symm
    · exact absurd hy' (hfresh r')
    · exact absurd (hyx ▸ hy) (hfresh r)
    · exact h.apart r r' y hy hy'
  · rw [hS, ← h.mem_iff y]
    constructor
    · rintro ⟨r, hy⟩
      exact (hwas r y hy).elim (fun h => .inr h.2) (fun h => .inl ⟨r, h.2⟩)
    · rintro (⟨r, hy⟩ | rfl)
      · refine ⟨r, ?_⟩
        rw [update_of_ne]
        · exact hy
        · rintro rfl
          rw [hp] at hy
          cases hy
      · exact ⟨p, by rw [update_self]; exact mem_singleton_self y⟩

end Partition

end Cobalt
