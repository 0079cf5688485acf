/-
Cobalt.Container.HashMap — the Robin Hood hash map of `hashmap.c`.

Slots lie in an array of a power of two. An entry stands `psl` slots after
the slot its hash points to; an insertion takes the slot of an entry that
is nearer to its home and carries that one on; a removal shifts the entries
behind it back. A slot is empty when its `psl` is the largest 32 bit word.

Keys are compared by equality and are values here; allocations succeed. The
loops of the source run until they find a slot: `none` says that a loop has
gone once around the array without stopping. Sizes are 64 bit words; the size
of an array in bytes, which wraps from 2 ^ 59 slots of 40 bytes on, is left out.
-/
import Cobalt.Lib.Smear

namespace Cobalt.Container.HashMap

/-- A `void *`; 0 is `NULL`. -/
abbrev Ptr := Nat

def null : Ptr := 0

/-- `hashmap_slot_t`; the key is `none` for `NULL`. -/
structure Slot (K : Type) where
  key : Option K
  value : Ptr
  hash : UInt32
  psl : UInt32
  deriving DecidableEq, Repr

/-- `COBALT_HASHMAP_EMPTY_PSL`. -/
def emptyPsl : UInt32 := 0xFFFFFFFF

/-- What `init_slots` writes to every slot. -/
def Slot.init {K : Type} : Slot K := ⟨none, null, 0, emptyPsl⟩

/-- `hashmap_impl_t`. `slots` is `NULL` exactly when the capacity is 0. -/
structure Impl (K : Type) where
  slots : Nat → Slot K
  capacity : Nat
  mask : Nat
  size : Nat
  maxLoad : Nat

/-- `hashmap_next_pow2`. -/
def nextPow2 (v : Nat) : Nat :=
  let v := (v + 2 ^ 64 - 1) % 2 ^ 64
  let v := v ||| v >>> 1
  let v := v ||| v >>> 2
  let v := v ||| v >>> 4
  let v := v ||| v >>> 8
  let v := v ||| v >>> 16
  let v := v ||| v >>> 32
  let v := (v + 1) % 2 ^ 64
  if v < 2 then 2 else v

/-- `COBALT_HASHMAP_DEFAULT_BUCKETS`. -/
def defaultBuckets : Nat := 16

/-- The expansion threshold. -/
def loadOf (capacity : Nat) : Nat := capacity * 3 % 2 ^ 64 / 4

variable {K : Type} [DecidableEq K]

/-! ## The table -/

/-- The loop of `find_slot`; the inner `none` is the result `(size_t)-1`. -/
def findLoop (slots : Nat → Slot K) (mask : Nat) (key : K) (hash : UInt32) :
    Nat → Nat → UInt32 → Option (Option Nat)
  | 0, _, _ => none
  | fuel + 1, idx, curPsl =>
      let slot := slots idx
      if slot.psl = emptyPsl then some none
      else if slot.psl < curPsl then some none
      else if slot.hash = hash ∧ slot.key = some key then some (some idx)
      else findLoop slots mask key hash fuel ((idx + 1) &&& mask) (curPsl + 1)

def findSlot (impl : Impl K) (key : K) (hash : UInt32) : Option (Option Nat) :=
  if impl.capacity = 0 ∨ impl.size = 0 then some none
  else findLoop impl.slots impl.mask key hash impl.capacity (hash.toNat &&& impl.mask) 0

/-- The loop of `robin_hood_insert_entry`. -/
def insertLoop (mask : Nat) : Nat → (Nat → Slot K) → Nat → Slot K → Option (Nat → Slot K)
  | 0, _, _, _ => none
  | fuel + 1, slots, idx, curr =>
      let slot := slots idx
      if slot.psl = emptyPsl then some (Function.update slots idx curr)
      else if slot.psl < curr.psl then
        -- the nearer entry is carried on
        insertLoop mask fuel (Function.update slots idx curr) ((idx + 1) &&& mask)
          { slot with psl := slot.psl + 1 }
      else
        insertLoop mask fuel slots ((idx + 1) &&& mask) { curr with psl := curr.psl + 1 }

/-- `robin_hood_insert_entry` on an array of `capacity` slots. -/
def robinHoodInsertEntry (capacity : Nat) (slots : Nat → Slot K) (mask : Nat) (entry : Slot K) :
    Option (Nat → Slot K) :=
  insertLoop mask capacity slots (entry.hash.toNat &&& mask) { entry with psl := 0 }

/-- The loop of `hashmap_ensure_capacity` over the first `i` old slots. -/
def rehash (newCap newMask : Nat) (old : Nat → Slot K) : Nat → Option (Nat → Slot K)
  | 0 => some fun _ => .init
  | i + 1 => do
      let slots ← rehash newCap newMask old i
      if (old i).psl ≠ emptyPsl then robinHoodInsertEntry newCap slots newMask (old i)
      else some slots

/-- The slots of the new array: those of the old one, if there are any. -/
def newSlots (impl : Impl K) (newCap newMask : Nat) : Option (Nat → Slot K) :=
  if impl.capacity ≠ 0 ∧ impl.size > 0 then rehash newCap newMask impl.slots impl.capacity
  else some fun _ => .init

/-- `hashmap_ensure_capacity`. -/
def ensureCapacity (impl : Impl K) (minCapacity : Nat) : Option (Impl K) :=
  let newCap := nextPow2 (if minCapacity < defaultBuckets then defaultBuckets else minCapacity)
  if newCap ≤ impl.capacity ∧ impl.capacity ≠ 0 then some impl
  else do
    let newMask := newCap - 1
    let slots ← newSlots impl newCap newMask
    some ⟨slots, newCap, newMask, impl.size, loadOf newCap⟩

/-- The backward shift of `hashmap_remove_key`, which ends by clearing the
slot it has come to. -/
def shiftLoop (mask : Nat) : Nat → (Nat → Slot K) → Nat → Option (Nat → Slot K)
  | 0, _, _ => none
  | fuel + 1, slots, curr =>
      let next := (curr + 1) &&& mask
      if (slots next).psl = emptyPsl ∨ (slots next).psl = 0 then
        some (Function.update slots curr .init)
      else
        let moved := { slots next with psl := (slots next).psl - 1 }
        shiftLoop mask fuel (Function.update slots curr moved) next

/-! ## The operations -/

/-- `cobalt_hashmap_create`. -/
def create (initialBuckets : UInt64) : Impl K :=
  if initialBuckets > 0 then
    let capacity := nextPow2 initialBuckets.toNat
    ⟨fun _ => .init, capacity, capacity - 1, 0, loadOf capacity⟩
  else ⟨fun _ => .init, 0, 0, 0, 0⟩

/-- The resize in `cobalt_hashmap_put`. -/
def resizeIfFull (impl : Impl K) : Option (Impl K) :=
  if impl.capacity = 0 ∨ impl.size ≥ impl.maxLoad then
    ensureCapacity impl
      (if impl.capacity = 0 then defaultBuckets else impl.capacity <<< 1 % 2 ^ 64)
  else some impl

variable (hash : K → UInt32)

/-- `cobalt_hashmap_put`. -/
def put (impl : Impl K) (key : K) (value : Ptr) : Option (Impl K × Int) := do
  match ← findSlot impl key (hash key) with
  | some existing =>
      let slot := { impl.slots existing with value := value }
      some ({ impl with slots := Function.update impl.slots existing slot }, 0)
  | none =>
      let impl ← resizeIfFull impl
      let slots ← robinHoodInsertEntry impl.capacity impl.slots impl.mask
        ⟨some key, value, hash key, 0⟩
      some ({ impl with slots := slots, size := (impl.size + 1) % 2 ^ 64 }, 0)

/-- `cobalt_hashmap_get`. -/
def get (impl : Impl K) (key : K) : Option Ptr := do
  match ← findSlot impl key (hash key) with
  | some idx => some (impl.slots idx).value
  | none => some null

/-- `cobalt_hashmap_remove`. -/
def remove (impl : Impl K) (key : K) : Option (Impl K × Int) := do
  match ← findSlot impl key (hash key) with
  | none => some (impl, -1)
  | some idx =>
      let slots ← shiftLoop impl.mask impl.capacity impl.slots idx
      some ({ impl with slots := slots, size := (impl.size + 2 ^ 64 - 1) % 2 ^ 64 }, 0)

/-- `hashmap_map_clear`. -/
def clear (impl : Impl K) : Impl K :=
  if impl.capacity ≠ 0 then { impl with slots := fun _ => .init, size := 0 } else impl

end Cobalt.Container.HashMap
