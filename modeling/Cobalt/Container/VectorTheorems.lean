/-
Cobalt.Container.VectorTheorems — when the dynamic array is a list.

`Holds v l` is the invariant: the storage has room for `capacity` items,
`size` is at most `capacity`, and the first `size` cells are the items of `l`.
Every call keeps it, except that a full vector of `maxCap` items grows to the
capacity it already has and writes behind its storage. The invariant is not
there at the start when the allocation of the array has failed: `create`
stores the capacity it has asked for.
-/
import Cobalt.Container.Vector

namespace Cobalt.Container.Vector

open List Block

open Block (Fault)

variable {α : Type} {v v' : Vec α} {l l' : List α} {c : Call α} {a : Answer α}

/-- The vector is well formed and holds the items of `l`. -/
structure Holds (v : Vec α) (l : List α) : Prop where
  storage : v.capacity ≤ v.storage.length
  size_le : v.size ≤ v.capacity
  capacity_le : v.capacity ≤ maxCap
  items : v.storage.window 0 v.size = l.map some

/-- What a call may do to the list: a call that reports a failure changes nothing,
and only an allocation that fails, or a size that does not fit, is a failure. -/
def Allowed (l : List α) : Call α → Answer α → List α → Prop
  | .push item grown, a, l' =>
    a = .code 0 ∧ l' = l ++ [item] ∨ grown = false ∧ a = .code (-1) ∧ l' = l
  | .set index item, a, l' =>
    if index < l.length then a = .code 0 ∧ l' = l.set index item
    else a = .code (-1) ∧ l' = l
  | .get index, a, l' =>
    l' = l ∧ a = match l[index]? with
      | some item => .item (some item)
      | none => .null
  | .removeAt index, a, l' => a = .void ∧ l' = l.eraseIdx index
  | .reserve n grown, a, l' =>
    l' = l ∧ (a = .code 0 ∨ (grown = false ∨ n > maxCap) ∧ a = .code (-1))
  | .shrinkToFit allocated, a, l' =>
    l' = l ∧ (a = .code 0 ∨ allocated = false ∧ a = .code (-1))

/-! ## Small facts -/

namespace Holds

lemma length_eq (h : Holds v l) : l.length = v.size := by
  have hlen := congrArg List.length h.items
  rw [length_window (by have := h.storage; have := h.size_le; omega)] at hlen
  simpa using hlen.symm

lemma exists_items (h : Holds v l) (hpos : 0 < v.capacity) :
    ∃ b, v.items = some b ∧ v.storage = b ∧ v.capacity ≤ b.length := by
  have hle := h.storage
  cases hitems : v.items with
  | some b =>
    have hstorage : v.storage = b := by simp [Vec.storage, hitems]
    exact ⟨b, rfl, hstorage, hstorage ▸ hle⟩
  | none =>
    simp [Vec.storage, hitems] at hle
    omega

lemma getElem? (h : Holds v l) {i : Nat} (hi : i < v.size) : v.storage[i]? = (l[i]?).map some := by
  have hcell := congrArg (fun cells => cells[i]?) h.items
  simp only [getElem?_window, if_pos hi, Nat.zero_add, getElem?_map] at hcell
  exact hcell

end Holds

lemma newCap_gt {capacity : Nat} (h : capacity < maxCap) : capacity < newCap capacity := by
  unfold newCap
  split
  · omega
  · split
    · exact h
    · omega

lemma newCap_le (capacity : Nat) : newCap capacity ≤ maxCap := by
  have hone : 1 ≤ maxCap := by decide
  unfold newCap
  split
  · exact hone
  · split
    · exact Nat.le_refl _
    · omega

/-! ## The calls -/

section

variable (h : Holds v l)

include h

lemma Holds.realloc {n : Nat} (hn : v.capacity ≤ n) (hmax : n ≤ maxCap) :
    Holds (v.realloc n) l := by
  have hle := h.storage
  have hsize := h.size_le
  refine ⟨?_, Nat.le_trans hsize hn, hmax, ?_⟩
  · simp [Vec.realloc, Vec.storage]
  · change (v.storage.resize n).window 0 v.size = l.map some
    rw [window_resize (by omega) (by omega)]
    exact h.items

variable {index : Nat}

lemma Holds.store (item : α) (hindex : index < v.capacity) :
    ∃ b, v.store index item = .ok { v with items := some b } ∧ b.length = v.storage.length ∧
      b.window index 1 = [some item] ∧ ∀ i, i < index ∨ index + 1 ≤ i → b[i]? = v.storage[i]? := by
  obtain ⟨b0, hb0, hstorage, hle⟩ := h.exists_items (by omega)
  have hfits : index + [some item].length ≤ b0.length := by simp; omega
  obtain ⟨b, hb, hlen, hself, hother⟩ := write_ok hfits
  refine ⟨b, ?_, by rw [hlen, hstorage], hself, fun i hi => by rw [hother i hi, hstorage]⟩
  simp only [Vec.store, Vec.deref, hb0, ok_bind, hb]

lemma Holds.append (item : α) (hroom : v.size < v.capacity) :
    ∃ v', v.append item = .ok v' ∧ Holds v' (l ++ [item]) := by
  obtain ⟨b, hb, hlen, hself, hother⟩ := h.store item hroom
  refine ⟨{ v with items := some b, size := v.size + 1 }, ?_, ?_, hroom, h.capacity_le, ?_⟩
  · rw [Vec.append, hb]
    rfl
  · have hle := h.storage
    change v.capacity ≤ b.length
    omega
  · change b.window 0 (v.size + 1) = (l ++ [item]).map some
    rw [window_add, Nat.zero_add, hself, map_append, ← h.items]
    congr 1
    exact window_congr fun i hi => by simpa using hother i (.inl hi)

lemma push_bounds {item : α} (hfull : v.size = maxCap) : push v item true = .error .bounds := by
  have hcap : v.capacity = maxCap := Nat.le_antisymm h.capacity_le (hfull ▸ h.size_le)
  rw [push, if_pos (by omega), if_pos rfl, hcap, show newCap maxCap = maxCap by decide]
  have hout : (v.storage.resize maxCap).write maxCap [some item] = .error .bounds :=
    write_error (by simp)
  simp only [Vec.append, Vec.store, Vec.deref, Vec.realloc, hfull, ok_bind, hout, error_bind]

lemma Holds.push {item : α} {grown : Bool} (hroom : v.size < maxCap ∨ grown = false) :
    ∃ v' a l', push v item grown = .ok (v', a) ∧ Allowed l (.push item grown) a l' ∧
      Holds v' l' := by
  by_cases hfull : v.size ≥ v.capacity
  · cases grown with
    | false =>
      exact ⟨v, .code (-1), l, by rw [Vector.push, if_pos hfull]; rfl, .inr ⟨rfl, rfl, rfl⟩, h⟩
    | true =>
      have hlt : v.size < maxCap := hroom.resolve_right (by simp)
      have hsize := h.size_le
      have hgt : v.capacity < newCap v.capacity := newCap_gt (by omega)
      have hgrown := h.realloc (Nat.le_of_lt hgt) (newCap_le _)
      obtain ⟨v', hv', hholds⟩ := hgrown.append item
        (show v.size < newCap v.capacity by omega)
      refine ⟨v', .code 0, l ++ [item], ?_, .inl ⟨rfl, rfl⟩, hholds⟩
      rw [Vector.push, if_pos hfull, if_pos rfl, hv']
      rfl
  · obtain ⟨v', hv', hholds⟩ := h.append item (by omega)
    refine ⟨v', .code 0, l ++ [item], ?_, .inl ⟨rfl, rfl⟩, hholds⟩
    rw [Vector.push, if_neg hfull, hv']
    rfl

lemma Holds.set {item : α} :
    ∃ v' a l', set v index item = .ok (v', a) ∧ Allowed l (.set index item) a l' ∧ Holds v' l' := by
  by_cases hindex : index ≥ v.size
  · refine ⟨v, .code (-1), l, by rw [Vector.set, if_pos hindex], ?_, h⟩
    rw [Allowed, if_neg (by rw [h.length_eq]; omega)]
    exact ⟨rfl, rfl⟩
  · have hsize := h.size_le
    obtain ⟨b, hb, hlen, hself, hother⟩ := h.store item
      (show index < v.capacity by omega)
    refine ⟨{ v with items := some b }, .code 0, l.set index item, ?_, ?_,
      ⟨?_, hsize, h.capacity_le, ?_⟩⟩
    · rw [Vector.set, if_neg hindex, hb]
      rfl
    · rw [Allowed, if_pos (by rw [h.length_eq]; omega)]
      exact ⟨rfl, rfl⟩
    · have hle := h.storage
      change v.capacity ≤ b.length
      omega
    · -- cell by cell: the one at `index` is new, the others are as before
      have hcell : b[index]? = some (some item) := by
        have hget : (b.window index 1)[0]? = b[index + 0]? := getElem?_window
        rw [hself] at hget
        exact hget.symm
      change b.window 0 v.size = (l.set index item).map some
      refine ext_getElem? fun i => ?_
      rw [getElem?_window, getElem?_map, Nat.zero_add]
      by_cases hi : i < v.size
      · rw [if_pos hi]
        by_cases hii : i = index
        · subst hii
          rw [hcell, getElem?_set_self (by rw [h.length_eq]; omega)]
          rfl
        · rw [hother i (by omega), getElem?_set_ne (fun heq => hii heq.symm), h.getElem? hi]
      · rw [if_neg hi, getElem?_eq_none (by rw [length_set, h.length_eq]; omega)]
        rfl

lemma Holds.get : ∃ a, get v index = .ok (v, a) ∧ Allowed l (.get index) a l := by
  by_cases hindex : index ≥ v.size
  · refine ⟨.null, by rw [Vector.get, if_pos hindex], rfl, ?_⟩
    rw [getElem?_eq_none (by rw [h.length_eq]; omega)]
  · have hsize := h.size_le
    obtain ⟨b, hb, hstorage, hle⟩ := h.exists_items (by omega)
    have hread : b.read index 1 = .ok (b.window index 1) := read_ok (by omega)
    have hcell : b[index]? = (l[index]?).map some := hstorage ▸ h.getElem? (by omega)
    obtain ⟨item, hitem⟩ : ∃ item, l[index]? = some item :=
      ⟨_, getElem?_eq_getElem (by rw [h.length_eq]; omega)⟩
    have hhead : (b.window index 1).head? = some (some item) := by
      rw [head?_eq_getElem?, getElem?_window, if_pos Nat.zero_lt_one, Nat.add_zero, hcell, hitem]
      rfl
    refine ⟨.item (some item), ?_, rfl, by rw [hitem]⟩
    rw [Vector.get, if_neg hindex]
    simp only [Vec.deref, hb, ok_bind, hread, hhead, Option.join_some]

lemma Holds.removeAt : ∃ v', removeAt v index = .ok (v', .void) ∧ Holds v' (l.eraseIdx index) := by
  have hlen := h.length_eq
  by_cases hindex : index ≥ v.size
  · refine ⟨v, by rw [Vector.removeAt, if_pos hindex], ?_⟩
    rw [eraseIdx_of_length_le (by omega)]
    exact h
  · have hsize := h.size_le
    obtain ⟨b, hb, hstorage, hle⟩ := h.exists_items (by omega)
    have hdst : index + (v.size - index - 1) ≤ b.length := by omega
    have hsrc : index + 1 + (v.size - index - 1) ≤ b.length := by omega
    obtain ⟨b', hb', hblen, hmoved, hother⟩ := move_ok hdst hsrc
    refine ⟨{ v with items := some b', size := v.size - 1 }, ?_, ⟨?_, ?_, h.capacity_le, ?_⟩⟩
    · rw [Vector.removeAt, if_neg hindex]
      simp only [Vec.deref, hb, ok_bind, hb']
    · change v.capacity ≤ b'.length
      omega
    · exact Nat.le_trans (Nat.sub_le _ _) hsize
    · -- the items in front stay, the ones behind move up
      have hbefore : b'.window 0 index = (l.take index).map some := by
        rw [map_take, ← h.items, hstorage]
        refine ext_getElem? fun i => ?_
        rw [getElem?_window, getElem?_take, getElem?_window, Nat.zero_add]
        by_cases hi : i < index
        · rw [if_pos hi, if_pos hi, if_pos (by omega), hother i (.inl hi)]
        · rw [if_neg hi, if_neg hi]
      have hafter : b'.window index (v.size - index - 1) = (l.drop (index + 1)).map some := by
        rw [hmoved, map_drop, ← h.items, hstorage]
        refine ext_getElem? fun i => ?_
        rw [getElem?_window, getElem?_drop, getElem?_window, Nat.zero_add]
        by_cases hi : i < v.size - index - 1
        · rw [if_pos hi, if_pos (by omega)]
        · rw [if_neg hi, if_neg (by omega)]
      change b'.window 0 (v.size - 1) = (l.eraseIdx index).map some
      rw [show v.size - 1 = index + (v.size - index - 1) by omega, window_add, Nat.zero_add,
        hbefore, hafter, ← map_append, eraseIdx_eq_take_drop_succ]

lemma Holds.reserve {n : Nat} {grown : Bool} :
    Holds (reserve v n grown).1 l ∧ Allowed l (.reserve n grown) (reserve v n grown).2 l := by
  unfold Vector.reserve
  split
  · exact ⟨h, rfl, .inl rfl⟩
  · split
    · rename_i hmax
      exact ⟨h, rfl, .inr ⟨.inr hmax, rfl⟩⟩
    · split
      · exact ⟨h.realloc (by omega) (by omega), rfl, .inl rfl⟩
      · rename_i hgrown
        exact ⟨h, rfl, .inr ⟨.inl (Bool.eq_false_iff.mpr hgrown), rfl⟩⟩

lemma Holds.shrinkToFit {allocated : Bool} :
    ∃ v' a, shrinkToFit v allocated = .ok (v', a) ∧ Allowed l (.shrinkToFit allocated) a l ∧
      Holds v' l := by
  by_cases hfull : v.capacity ≤ v.size
  · exact ⟨v, .code 0, by rw [Vector.shrinkToFit, if_pos hfull], ⟨rfl, .inl rfl⟩, h⟩
  by_cases hzero : v.size = 0
  · refine ⟨{ v with items := none, capacity := 0 }, .code 0, ?_, ⟨rfl, .inl rfl⟩,
      ⟨Nat.zero_le _, Nat.le_of_eq hzero, Nat.zero_le _, ?_⟩⟩
    · rw [Vector.shrinkToFit, if_neg hfull, if_pos hzero]
    · have hitems := h.items
      rw [hzero, window_zero] at hitems
      rw [← hitems]
      exact (congrArg _ hzero).trans window_zero
  cases allocated with
  | false =>
    refine ⟨v, .code (-1), ?_, ⟨rfl, .inr ⟨rfl, rfl⟩⟩, h⟩
    rw [Vector.shrinkToFit, if_neg hfull, if_neg hzero]
    rfl
  | true =>
    have hsize := h.size_le
    obtain ⟨b, hb, hstorage, hle⟩ := h.exists_items (by omega)
    have hread : b.read 0 v.size = .ok (b.window 0 v.size) := read_ok (by omega)
    have hcells : (b.window 0 v.size).length = v.size := length_window (by omega)
    have hfits : 0 + (b.window 0 v.size).length ≤ (fresh v.size : Block α).length := by
      rw [hcells, length_fresh]
      omega
    obtain ⟨b', hb', hlen, hself, -⟩ := write_ok hfits
    rw [hcells] at hself
    rw [length_fresh] at hlen
    refine ⟨{ v with items := some b', capacity := v.size }, .code 0, ?_, ⟨rfl, .inl rfl⟩,
      ⟨Nat.le_of_eq hlen.symm, Nat.le_refl _, Nat.le_trans hsize h.capacity_le, ?_⟩⟩
    · rw [Vector.shrinkToFit, if_neg hfull, if_neg hzero, if_pos rfl]
      simp only [hb, hread, ok_bind, hb']
    · change b'.window 0 v.size = l.map some
      rw [hself, ← hstorage]
      exact h.items

end

/-! ## Every run -/

/-- There is room for the item of a push, or its allocation fails. -/
def Room (v : Vec α) : Call α → Prop
  | .push _ grown => v.size < maxCap ∨ grown = false
  | _ => True

instance decidableRoom (v : Vec α) : (c : Call α) → Decidable (Room v c)
  | .push _ grown => inferInstanceAs (Decidable (v.size < maxCap ∨ grown = false))
  | .set _ _ | .get _ | .removeAt _ | .reserve _ _ | .shrinkToFit _ => isTrue trivial

/-- Every call keeps the invariant and does what it may do to the list. -/
lemma Holds.step (h : Holds v l) (hroom : Room v c) :
    ∃ v' a l', step v c = .ok (v', a) ∧ Allowed l c a l' ∧ Holds v' l' := by
  cases c with
  | push item grown => exact h.push hroom
  | set index item => exact h.set
  | get index =>
    obtain ⟨a, ha, hallowed⟩ := h.get
    exact ⟨v, a, l, ha, hallowed, h⟩
  | removeAt index =>
    obtain ⟨v', hv', hholds⟩ := h.removeAt
    exact ⟨v', .void, _, hv', ⟨rfl, rfl⟩, hholds⟩
  | reserve n grown =>
    obtain ⟨hholds, hallowed⟩ := h.reserve
    exact ⟨_, _, l, rfl, hallowed, hholds⟩
  | shrinkToFit allocated =>
    obtain ⟨v', a, hv', hallowed, hholds⟩ := h.shrinkToFit
    exact ⟨v', a, l, hv', hallowed, hholds⟩

/-- The run of the calls from `v` on never faults, is a run of the list from `l`
on, and all its states are well formed. -/
def Refines : Vec α → List α → List (Call α) → Prop
  | v, l, [] => Holds v l
  | v, l, c :: cs => Holds v l ∧
      ∃ v' a l', step v c = .ok (v', a) ∧ Allowed l c a l' ∧ Refines v' l' cs

/-- No push of the run with a successful allocation finds `maxCap` items. -/
def Fits : Vec α → List (Call α) → Prop
  | _, [] => True
  | v, c :: cs => Room v c ∧ match step v c with
      | .ok (v', _) => Fits v' cs
      | .error _ => True

instance decidableFits : (v : Vec α) → (cs : List (Call α)) → Decidable (Fits v cs)
  | _, [] => isTrue trivial
  | v, c :: cs =>
    have : Decidable (match step v c with
        | .ok (v', _) => Fits v' cs
        | .error _ => True) :=
      match step v c with
      | .ok (v', _) => decidableFits v' cs
      | .error _ => isTrue trivial
    inferInstanceAs (Decidable (_ ∧ _))

lemma Refines.holds {cs : List (Call α)} (h : Refines v l cs) : Holds v l := by
  cases cs with
  | nil => exact h
  | cons c cs => exact h.1

/-- A well-formed vector stays one exactly as long as the items fit. -/
lemma Holds.refines_iff {cs : List (Call α)} (h : Holds v l) : Refines v l cs ↔ Fits v cs := by
  induction cs generalizing v l with
  | nil => exact ⟨fun _ => trivial, fun _ => h⟩
  | cons c cs ih =>
    constructor
    · rintro ⟨-, v', a, l', hstep, -, hrest⟩
      refine ⟨?_, ?_⟩
      · by_contra hroom
        cases c with
        | push item grown =>
          simp only [Room, not_or, Nat.not_lt, Bool.not_eq_false] at hroom
          obtain ⟨hfull, rfl⟩ := hroom
          have hsize : v.size = maxCap :=
            Nat.le_antisymm (Nat.le_trans h.size_le h.capacity_le) hfull
          rw [Vector.step, push_bounds h hsize] at hstep
          cases hstep
        | _ => exact hroom trivial
      · rw [hstep]
        exact (ih hrest.holds).mp hrest
    · rintro ⟨hroom, hfits⟩
      obtain ⟨v', a, l', hstep, hallowed, hholds⟩ := h.step hroom
      rw [hstep] at hfits
      exact ⟨h, v', a, l', hstep, hallowed, (ih hholds).mpr hfits⟩

/-- A new vector is well formed exactly if its array was allocated. -/
lemma holds_create_iff {initialCapacity : Nat} {structOk itemsOk : Bool}
    (hv : create initialCapacity structOk itemsOk = some v) :
    Holds v [] ↔ initialCapacity = 0 ∨ itemsOk = true := by
  unfold create at hv
  split at hv
  · split at hv
    · cases hv
    · rename_i hmax
      cases hv
      constructor
      · intro h
        have hle := h.storage
        by_contra hnone
        simp only [not_or, Bool.not_eq_true] at hnone
        simp only [Vec.storage, hnone.2, Bool.false_eq_true, and_false, if_false,
          Option.getD_none, length_nil] at hle
        omega
      · intro hok
        refine ⟨?_, Nat.zero_le _, Nat.not_lt.mp hmax, window_zero⟩
        by_cases hzero : initialCapacity = 0
        · simp [hzero]
        · simp only [Vec.storage, hok.resolve_left hzero, and_true,
            if_pos (Nat.pos_of_ne_zero hzero), Option.getD_some, length_fresh]
          exact Nat.le_refl _
  · cases hv

/-- **A vector is a list** along a run exactly when its array was allocated at the
start and no push with a successful allocation finds `maxCap` items. -/
theorem vector_refines_iff {initialCapacity : Nat} {structOk itemsOk : Bool}
    (hv : create initialCapacity structOk itemsOk = some v) (cs : List (Call α)) :
    Refines v [] cs ↔ (initialCapacity = 0 ∨ itemsOk = true) ∧ Fits v cs := by
  rw [← holds_create_iff hv]
  constructor
  · intro h
    exact ⟨h.holds, h.holds.refines_iff.mp h⟩
  · rintro ⟨h, hfits⟩
    exact h.refines_iff.mpr hfits

/-- A vector of one cell that grows, shrinks and grows again. -/
theorem vector_refines_grow :
    ∃ v : Vec Nat, create 1 true true = some v ∧
      Refines v [] [.push 7 false, .push 8 true, .push 9 true, .removeAt 0, .shrinkToFit true,
        .reserve 5 false, .get 1] := by
  have hv : (create 1 true true : Option (Vec Nat)) = some ⟨some [none], 1, 0⟩ := rfl
  exact ⟨_, hv, (vector_refines_iff hv _).mpr ⟨.inr rfl, by decide⟩⟩

/-- The allocation of the array fails and the vector is returned all the same, with
the capacity it was asked for: the first push writes through a null pointer. -/
theorem create_without_items :
    ∃ v : Vec Nat, create 1 true false = some v ∧ v.items = none ∧ v.capacity = 1 ∧
      push v 7 true = .error .null ∧ ¬ Refines v [] [.push 7 true] := by
  refine ⟨⟨none, 1, 0⟩, rfl, rfl, rfl, rfl, fun h => ?_⟩
  have hle := h.holds.storage
  exact absurd hle (by decide)

end Cobalt.Container.Vector
