/-
Cobalt.Container.BinaryKeys — the hash map with binary keys.

`slot_equal` hands the equality function the length of the key that is
searched for, never the length of the stored one. A shorter stored key is
read beyond its end, and a longer one that begins with the key is taken for
it. Either needs two keys of different lengths with one hash:
`sound_of_uniform` excludes these, call by call.

The equality function compares as many bytes of both keys as it is told.
The caller leaves the bytes of the keys alone; allocations succeed.
-/
import Cobalt.Container.HashMap

namespace Cobalt.Container.HashMap

open Function (update)

abbrev Bytes := List UInt8

/-- Why a call does not return: it has read beyond a stored key, or its loop
has gone once around the array. -/
inductive Stop where
  | overread
  | endless
  deriving DecidableEq, Repr

def orEndless {α : Type} : Option α → Except Stop α
  | some x => .ok x
  | none => .error .endless

/-! ## The calls -/

/-- `slot_equal` with an `equal_func`. -/
def slotEqual (slot : Slot Bytes) (key : Bytes) : Except Stop Bool :=
  let stored := slot.key.getD []
  if stored.length < key.length then .error .overread
  else .ok (stored.take key.length == key)

/-- The loop of `find_slot`. -/
def findLoopExt (slots : Nat → Slot Bytes) (mask : Nat) (key : Bytes) (hash : UInt32) :
    Nat → Nat → UInt32 → Except Stop (Option Nat)
  | 0, _, _ => .error .endless
  | fuel + 1, idx, curPsl => do
      let slot := slots idx
      if slot.psl = emptyPsl then return none
      if slot.psl < curPsl then return none
      if ← if slot.hash = hash then slotEqual slot key else .ok false then return some idx
      findLoopExt slots mask key hash fuel ((idx + 1) &&& mask) (curPsl + 1)

def findSlotExt (impl : Impl Bytes) (key : Bytes) (hash : UInt32) : Except Stop (Option Nat) :=
  if impl.capacity = 0 ∨ impl.size = 0 then .ok none
  else findLoopExt impl.slots impl.mask key hash impl.capacity (hash.toNat &&& impl.mask) 0

variable (hash : Bytes → UInt32)

/-- `cobalt_hashmap_put_ext`. -/
def putExt (impl : Impl Bytes) (key : Bytes) (value : Ptr) : Except Stop (Impl Bytes × Int) := do
  match ← findSlotExt impl key (hash key) with
  | some existing =>
      let slot := { impl.slots existing with value := value }
      return ({ impl with slots := update impl.slots existing slot }, 0)
  | none =>
      let impl ← orEndless (resizeIfFull impl)
      let slots ← orEndless (robinHoodInsertEntry impl.capacity impl.slots impl.mask
        ⟨some key, value, hash key, 0⟩)
      return ({ impl with slots := slots, size := (impl.size + 1) % 2 ^ 64 }, 0)

/-- `cobalt_hashmap_get_ext`. -/
def getExt (impl : Impl Bytes) (key : Bytes) : Except Stop Ptr := do
  match ← findSlotExt impl key (hash key) with
  | some idx => return (impl.slots idx).value
  | none => return null

/-- `cobalt_hashmap_remove_ext`. -/
def removeExt (impl : Impl Bytes) (key : Bytes) : Except Stop (Impl Bytes × Int) := do
  match ← findSlotExt impl key (hash key) with
  | none => return (impl, -1)
  | some idx =>
      let slots ← orEndless (shiftLoop impl.mask impl.capacity impl.slots idx)
      return ({ impl with slots := slots, size := (impl.size + 2 ^ 64 - 1) % 2 ^ 64 }, 0)

inductive ExtCall where
  | put (key : Bytes) (value : Ptr)
  | get (key : Bytes)
  | remove (key : Bytes)

namespace ExtCall

def key : ExtCall → Bytes
  | put key _ | get key | remove key => key

/-- The map after the call. -/
def exec (impl : Impl Bytes) : ExtCall → Except Stop (Impl Bytes)
  | put key value => Prod.fst <$> putExt hash impl key value
  | get key => (fun _ => impl) <$> getExt hash impl key
  | remove key => Prod.fst <$> removeExt hash impl key

end ExtCall

/-! ## Sound searches -/

/-- The search of the call reads no stored key beyond its end, and the entry
that it takes for the key's own has this very key. -/
def Sound (impl : Impl Bytes) (call : ExtCall) : Prop :=
  findSlotExt impl call.key (hash call.key) ≠ .error .overread ∧
    ∀ idx, findSlotExt impl call.key (hash call.key) = .ok (some idx) →
      (impl.slots idx).key = some call.key

/-- Every entry with the hash of the call's key has a key of the same length. -/
def Uniform (impl : Impl Bytes) (call : ExtCall) : Prop :=
  ∀ idx ≤ impl.mask, (impl.slots idx).psl ≠ emptyPsl → (impl.slots idx).hash = hash call.key →
    ∃ stored, (impl.slots idx).key = some stored ∧ stored.length = call.key.length

/-- `ok` holds at every call of a sequence, in the map that the calls before
it have left. -/
def Along (ok : Impl Bytes → ExtCall → Prop) : Impl Bytes → List ExtCall → Prop
  | _, [] => True
  | impl, call :: calls =>
    ok impl call ∧ ∀ impl', call.exec hash impl = .ok impl' → Along ok impl' calls

variable {hash}

lemma slotEqual_of_length {slot : Slot Bytes} {key stored : Bytes} (hkey : slot.key = some stored)
    (hlen : stored.length = key.length) : slotEqual slot key = .ok (stored == key) := by
  simp [slotEqual, hkey, ← hlen]

lemma findLoopExt_sound {slots : Nat → Slot Bytes} {mask : Nat} {key : Bytes} {h : UInt32}
    (hu : ∀ idx ≤ mask, (slots idx).psl ≠ emptyPsl → (slots idx).hash = h →
      ∃ stored, (slots idx).key = some stored ∧ stored.length = key.length)
    (fuel idx : Nat) (curPsl : UInt32) (hidx : idx ≤ mask) :
    findLoopExt slots mask key h fuel idx curPsl ≠ .error .overread ∧
      ∀ i, findLoopExt slots mask key h fuel idx curPsl = .ok (some i) →
        (slots i).key = some key := by
  induction fuel generalizing idx curPsl with
  | zero => simp [findLoopExt]
  | succ fuel ih =>
    have hrest := ih ((idx + 1) &&& mask) (curPsl + 1) Nat.and_le_right
    rw [findLoopExt]
    by_cases hempty : (slots idx).psl = emptyPsl
    · simp [hempty, pure, Except.pure]
    by_cases hnear : (slots idx).psl < curPsl
    · simp [hempty, hnear, pure, Except.pure]
    by_cases hhash : (slots idx).hash = h
    · obtain ⟨stored, hkey, hlen⟩ := hu idx hidx hempty hhash
      by_cases hsame : stored = key
      · simp [hempty, hnear, hhash, slotEqual_of_length hkey hlen, hsame, hkey, pure, bind,
          Except.pure, Except.bind]
      · simpa [hempty, hnear, hhash, slotEqual_of_length hkey hlen, hsame, pure, bind,
          Except.pure, Except.bind] using hrest
    · simpa [hempty, hnear, hhash, pure, bind, Except.pure, Except.bind] using hrest

lemma sound_of_uniform {impl : Impl Bytes} {call : ExtCall} (h : Uniform hash impl call) :
    Sound hash impl call := by
  rw [Sound, findSlotExt]
  split
  · simp
  · exact findLoopExt_sound h _ _ _ Nat.and_le_right

/-- **Binary keys are told apart**, and none is read beyond its end, at every
call of a sequence whose calls find no entry with the hash of their key and a
key of another length. -/
theorem sound_along {impl : Impl Bytes} {calls : List ExtCall}
    (h : Along hash (Uniform hash) impl calls) : Along hash (Sound hash) impl calls := by
  induction calls generalizing impl with
  | nil => trivial
  | cons call calls ih =>
    exact ⟨sound_of_uniform h.1, fun impl' hexec => ih (h.2 impl' hexec)⟩

/-- Two keys of one length and one hash. -/
theorem sound_along_two :
    Along (fun _ => 0) (Sound fun _ => 0) (create 2) [.put [1, 2] 5, .get [1, 3]] := by
  refine sound_along ⟨fun idx _ hpsl => absurd rfl hpsl, fun impl hexec => ⟨?_, fun _ _ => trivial⟩⟩
  obtain rfl := Except.ok.inj hexec
  intro idx hidx hpsl _
  obtain rfl | rfl := Nat.le_one_iff_eq_zero_or_eq_one.mp hidx
  · exact ⟨[1, 2], rfl, rfl⟩
  · exact absurd rfl hpsl

/-- The value of a longer key is found under its first byte, and the search
for the longer key reads beyond the shorter one. -/
theorem keys_confused :
    (∃ impl, putExt (fun _ => 0) (create 2) [1, 2] 5 = .ok (impl, 0) ∧
      getExt (fun _ => 0) impl [1] = .ok 5) ∧
    (∃ impl, putExt (fun _ => 0) (create 2) [1] 5 = .ok (impl, 0) ∧
      getExt (fun _ => 0) impl [1, 2] = .error .overread) ∧
    ¬ ∀ hash calls, Along hash (Sound hash) (create 2) calls :=
  ⟨⟨_, rfl, rfl⟩, ⟨_, rfl, rfl⟩,
    fun h => ((h (fun _ => 0) [.put [1] 5, .get [1, 2]]).2 _ rfl).1.1 rfl⟩

end Cobalt.Container.HashMap
