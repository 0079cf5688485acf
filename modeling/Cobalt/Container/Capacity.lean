/-
Cobalt.Container.Capacity — the blocks that the containers ask the allocator for.

A container rounds the requested capacity, records it, and asks for the
capacity times the size of an element. Both are computed modulo 2 ^ 64: a
rounded capacity or a product that wraps looks like a small request, which
the allocator grants, and the loop that initialises the elements runs past
the end of the block.
-/
import Cobalt.Container.HashMapTheorems
import Cobalt.Container.StreamBuffer

namespace Cobalt.Container.Capacity

open StreamBuffer HashMap

open HashMap (nextPow2 nextPow2_eq_clog defaultBuckets)

/-- The recorded capacity and the size of the block. -/
structure Store where
  capacity : Nat
  bytes : Nat
  deriving DecidableEq, Repr

/-- `alloc(sizeof(element) * capacity)`. -/
def Store.alloc (elementSize capacity : Nat) : Store :=
  ⟨capacity, elementSize * capacity % 2 ^ 64⟩

/-- Every element is inside the block. -/
def Store.Covers (s : Store) (elementSize : Nat) : Prop := elementSize * s.capacity ≤ s.bytes

/-- `sizeof(hashmap_slot_t)`. -/
def slotSize : Nat := 40

/-- `sizeof(cobalt_lfqueue_cell_t)`. -/
def cellSize : Nat := 16

/-- A table of the hash map whose slots are inside its block. -/
structure Table extends Store where
  covers : toStore.Covers slotSize
  word : bytes < 2 ^ 64

/-- The calls that succeed. -/
inductive Call where
  | hashmapCreate (initialBuckets : UInt64)
  | hashmapEnsureCapacity (table : Table) (minCapacity : UInt64)
  | lfqueueCreate (capacity : UInt64)
  | bufferCreate (initialCapacity prependSize : UInt64)

namespace Call

def elementSize : Call → Nat
  | hashmapCreate _ => slotSize
  | hashmapEnsureCapacity _ _ => slotSize
  | lfqueueCreate _ => cellSize
  | bufferCreate _ _ => 1

def requested : Call → Nat
  | hashmapCreate initialBuckets => initialBuckets.toNat
  | hashmapEnsureCapacity _ minCapacity => minCapacity.toNat
  | lfqueueCreate capacity => capacity.toNat
  | bufferCreate initialCapacity _ => initialCapacity.toNat

/-- What the call records and the block it has. A map created for no bucket has none. -/
def store : Call → Store
  | hashmapCreate initialBuckets =>
    if initialBuckets > 0 then .alloc slotSize (nextPow2 initialBuckets.toNat) else ⟨0, 0⟩
  | hashmapEnsureCapacity table minCapacity =>
    let newCap := nextPow2
      (if minCapacity.toNat < defaultBuckets then defaultBuckets else minCapacity.toNat)
    if newCap ≤ table.capacity ∧ table.capacity ≠ 0 then table.toStore else .alloc slotSize newCap
  | lfqueueCreate capacity =>
    -- `lfqueue_next_pow2` is `hashmap_next_pow2`
    .alloc cellSize (nextPow2 (if capacity.toNat < 2 then 2 else capacity.toNat))
  | bufferCreate initialCapacity prependSize =>
    .alloc 1 ((orDefault initialCapacity.toNat defaultInitialCapacity
      + orDefault prependSize.toNat defaultPrependSize) % 2 ^ 64)

/-- The recorded capacity is the requested one or more, and every element is in the block. -/
def Sized (c : Call) : Prop := c.requested ≤ c.store.capacity ∧ c.store.Covers c.elementSize

/-- The request is small enough. -/
def Fits : Call → Prop
  | hashmapCreate initialBuckets => initialBuckets.toNat ≤ 2 ^ 58
  | hashmapEnsureCapacity _ minCapacity => minCapacity.toNat ≤ 2 ^ 58
  | lfqueueCreate capacity => capacity.toNat ≤ 2 ^ 59
  | bufferCreate initialCapacity prependSize => initialCapacity = 0 ∨
      initialCapacity.toNat + orDefault prependSize.toNat
        defaultPrependSize < 2 ^ 64

end Call

/-! ## The models of the containers -/

lemma create_capacity {K : Type} (initialBuckets : UInt64) :
    (create initialBuckets : HashMap.Impl K).capacity =
      (Call.hashmapCreate initialBuckets).store.capacity := by
  unfold HashMap.create
  simp only [Call.store]
  split <;> rfl

lemma ensureCapacity_capacity {K : Type} {impl impl' : HashMap.Impl K} {table : Table}
    {minCapacity : UInt64} (htable : table.capacity = impl.capacity)
    (h : ensureCapacity impl minCapacity.toNat = some impl') :
    impl'.capacity = (Call.hashmapEnsureCapacity table minCapacity).store.capacity := by
  simp only [ensureCapacity] at h
  simp only [Call.store, htable]
  generalize nextPow2 _ = newCap at h ⊢
  split at h
  · rw [if_pos ‹_›, htable, Option.some.inj h]
  · rw [if_neg ‹_›]
    obtain ⟨slots, -, h⟩ := Option.bind_eq_some_iff.mp h
    rw [← Option.some.inj h]
    rfl

/-! ## Rounding and the product -/

/-- Requests below `m` are raised to `m`. Rounding up to a power of two and multiplying stay inside
a word up to `2 ^ k` elements. -/
lemma alloc_sized_iff {e k v m : Nat} (hm : 1 < m) (hmk : m ≤ 2 ^ k) (hword : v < 2 ^ 64)
    (hk : k < 63) (hlow : e * 2 ^ k < 2 ^ 64) (hhigh : 2 ^ 64 ≤ e * 2 ^ (k + 1)) :
    v ≤ nextPow2 (if v < m then m else v) ∧
      (Store.alloc e (nextPow2 (if v < m then m else v))).Covers e ↔ v ≤ 2 ^ k := by
  have hpow : 2 ^ k < 2 ^ 63 := Nat.pow_lt_pow_right (by omega) hk
  have hraised : (if v < m then m else v) ≤ 2 ^ k ↔ v ≤ 2 ^ k := by split <;> omega
  have hle : v ≤ if v < m then m else v := by split <;> omega
  rw [← hraised]
  generalize hw : (if v < m then m else v) = w at *
  rw [nextPow2_eq_clog (by grind) (by grind), ← Nat.clog_le_iff_le_pow Nat.one_lt_two]
  constructor
  · rintro ⟨hround, hcovers⟩
    by_contra hbig
    split at hround
    · have hpow : e * 2 ^ (k + 1) ≤ e * 2 ^ Nat.clog 2 w :=
        Nat.mul_le_mul_left e (Nat.pow_le_pow_right (by omega) (by omega))
      rw [if_pos ‹_›] at hcovers
      have hmod : e * 2 ^ Nat.clog 2 w % 2 ^ 64 < 2 ^ 64 := Nat.mod_lt _ (by omega)
      unfold Store.Covers Store.alloc at hcovers
      dsimp only at hcovers
      omega
    · rw [Nat.clog_le_iff_le_pow Nat.one_lt_two] at hbig
      grind
  · intro hround
    rw [if_pos (by omega)]
    refine ⟨hle.trans (Nat.le_pow_clog Nat.one_lt_two w), ?_⟩
    have hpow : e * 2 ^ Nat.clog 2 w ≤ e * 2 ^ k :=
      Nat.mul_le_mul_left e (Nat.pow_le_pow_right (by omega) hround)
    unfold Store.Covers Store.alloc
    rw [Nat.mod_eq_of_lt (by omega)]

lemma table_kept_iff (table : Table) {v : Nat} (hword : v < 2 ^ 64)
    (hkept : nextPow2 (if v < defaultBuckets then defaultBuckets else v) ≤ table.capacity) :
    v ≤ table.capacity ↔ v ≤ 2 ^ 58 := by
  have hm : 1 < defaultBuckets := by decide
  have hsized := alloc_sized_iff (e := slotSize) (k := 58) hm (by decide) hword (by omega)
    (by decide) (by decide)
  constructor
  · intro hle
    have hcovers : 40 * table.capacity ≤ table.bytes := table.covers
    have hbytes := table.word
    -- far below the capacities that wrap, so that rounding has not lowered the request
    have hround := (alloc_sized_iff (e := 2) (k := 62) hm (by decide) hword (by omega) (by decide)
      (by decide)).mpr (by omega)
    refine hsized.mp ⟨hround.1, ?_⟩
    unfold Store.Covers Store.alloc slotSize
    rw [Nat.mod_eq_of_lt (by omega)]
  · intro hle
    exact le_trans (hsized.mpr hle).1 hkept

namespace Call

/-- **The recorded capacity and the block are large enough** exactly if the request is so small
that the rounding and the product stay inside a word. -/
theorem sized_iff (c : Call) : c.Sized ↔ c.Fits := by
  cases c with
  | hashmapCreate v =>
    rw [Sized, Fits, store]
    split
    · have hpos : 0 < v.toNat := ‹0 < v›
      have htwo : nextPow2 v.toNat = nextPow2 (if v.toNat < 2 then 2 else v.toNat) := by
        split
        · rw [show v.toNat = 1 by omega]
          decide
        · rfl
      rw [htwo]
      exact alloc_sized_iff (by decide) (by decide) v.toNat_lt (by omega) (by decide) (by decide)
    · have hzero : v.toNat = 0 := Nat.eq_zero_of_not_pos ‹¬ 0 < v›
      simp [requested, hzero, Store.Covers]
  | hashmapEnsureCapacity table v =>
    rw [Sized, Fits, store]
    by_cases hkept : nextPow2 (if v.toNat < defaultBuckets then defaultBuckets else v.toNat)
        ≤ table.capacity ∧ table.capacity ≠ 0
    · rw [if_pos hkept]
      exact (and_iff_left table.covers).trans (table_kept_iff table v.toNat_lt hkept.1)
    · rw [if_neg hkept]
      exact alloc_sized_iff (by decide) (by decide) v.toNat_lt (by omega) (by decide) (by decide)
  | lfqueueCreate v =>
    exact alloc_sized_iff (by decide) (by decide) v.toNat_lt (by omega) (by decide) (by decide)
  | bufferCreate i p =>
    have hp := p.toNat_lt
    have hi := i.toNat_lt
    have hzero : i = 0 ↔ i.toNat = 0 := UInt64.toNat_inj.symm
    simp only [Sized, Fits, store, requested, Store.Covers, Store.alloc, elementSize, hzero,
      orDefault, defaultInitialCapacity, defaultPrependSize, Nat.mod_mod, one_mul]
    split <;> split <;> omega

/-- A request for 2 ^ 59 buckets gets a block of 2 ^ 62 bytes for slots of 5 * 2 ^ 62, one for
more than 2 ^ 63 gets two slots, and the sizes of a queue and of a buffer wrap to 0. -/
theorem not_sized :
    (hashmapCreate (2 ^ 59)).store = ⟨2 ^ 59, 2 ^ 62⟩ ∧
    (hashmapCreate (2 ^ 63 + 1)).store.capacity = 2 ∧ (lfqueueCreate (2 ^ 60)).store = ⟨2 ^ 60, 0⟩ ∧
    (bufferCreate (2 ^ 64 - 8) 8).store = ⟨0, 0⟩ ∧ ¬ (∀ c : Call, c.Sized) := by
  have hstore : (hashmapCreate (2 ^ 59)).store = ⟨2 ^ 59, 2 ^ 62⟩ := by decide +kernel
  refine ⟨hstore, by decide +kernel, by decide +kernel, by decide +kernel, fun hall => ?_⟩
  have hcovers := (hall (hashmapCreate (2 ^ 59))).2
  rw [hstore] at hcovers
  exact absurd hcovers (by decide +kernel : ¬ 40 * 2 ^ 59 ≤ 2 ^ 62)

end Call

end Cobalt.Container.Capacity
