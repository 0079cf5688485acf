/-
Cobalt.Container.LfHashMap — the split-ordered hash map of `lfhashmap.c`, one
thread at work.

All nodes are in one list in the order of their so_keys, the sentinels of the
buckets among them. With one thread no node stays marked: remove marks its
victim and unlinks it in its second search. The list is kept as the list of
its nodes, and a pointer to a sentinel as the so_key of the sentinel, which
no other node has.

A call is given the outcomes of the allocations it will make; when there are
no more of them, allocations succeed. `count / bucket_count > 0.75` is exact
in doubles, since `bucket_count` is a power of two.
-/
import Cobalt.Container.HashMap

namespace Cobalt.Container.LfHashMap

open HashMap (Ptr null)

variable {K : Type}

/-! ## Split-order keys -/

/-- One line of `reverse_bits64`. -/
def swapBits (shift : Nat) (mask v : BitVec 64) : BitVec 64 :=
  ((v >>> shift) &&& mask) ||| ((v &&& mask) <<< shift)

def reverseBits64 (v : BitVec 64) : BitVec 64 :=
  let v := swapBits 1 0x5555555555555555 v
  let v := swapBits 2 0x3333333333333333 v
  let v := swapBits 4 0x0F0F0F0F0F0F0F0F v
  let v := swapBits 8 0x00FF00FF00FF00FF v
  let v := swapBits 16 0x0000FFFF0000FFFF v
  (v >>> 32) ||| (v <<< 32)

def makeRegularSoKey (hash : BitVec 64) : Nat := (reverseBits64 (hash ||| 1 <<< 63)).toNat

def makeDummySoKey (bucketIdx : Nat) : Nat := (reverseBits64 (BitVec.ofNat 64 bucketIdx)).toNat

/-! ## The map -/

/-- `hash_func` and `equal_func`. -/
structure Hashing (K : Type) where
  hash : K → BitVec 64
  equal : K → K → Bool

/-- `cobalt_lfhashmap_node_t`; a sentinel has no key. -/
structure Node (K : Type) where
  soKey : Nat
  key : Option K
  value : Ptr

structure Map (K : Type) where
  nodes : List (Node K)
  segments : Nat → Option (Nat → Option Nat)
  count : Nat
  bucketCount : Nat

/-- Outcomes of the allocations to come. -/
abbrev Grants := List Bool

def alloc : Grants → Bool × Grants
  | [] => (true, [])
  | granted :: g => (granted, g)

/-- `get_bucket_location`. -/
def location (bucketIdx : Nat) : Nat × Nat :=
  if bucketIdx < 2 then (0, bucketIdx)
  else (bucketIdx.log2, bucketIdx ^^^ 1 <<< bucketIdx.log2)

def Map.slot (m : Map K) (bucketIdx : Nat) : Option Nat :=
  (m.segments (location bucketIdx).1).bind fun s => s (location bucketIdx).2

def Map.setSlot (m : Map K) (bucketIdx p : Nat) : Map K :=
  { m with
    segments := Function.update m.segments (location bucketIdx).1
      ((m.segments (location bucketIdx).1).map fun s =>
        Function.update s (location bucketIdx).2 (some p)) }

/-- `get_or_create_segment`; the answer says whether the segment is there. -/
def getOrCreateSegment (m : Map K) (g : Grants) (seg : Nat) : Map K × Grants × Bool :=
  if seg ≥ 32 then (m, g, false)
  else if (m.segments seg).isSome then (m, g, true)
  else
    match alloc g with
    | (true, g) =>
        ({ m with segments := Function.update m.segments seg (some fun _ => none) }, g, true)
    | (false, g) => (m, g, false)

/-! ## The list -/

/-- Where a search ends: the nodes up to `pred`, and those from `curr` on. -/
inductive Found (K : Type) where
  | found (upto : List (Node K)) (curr : Node K) (rest : List (Node K))
  | missing (upto rest : List (Node K))

def Found.prepend (front : List (Node K)) : Found K → Found K
  | found upto curr rest => .found (front ++ upto) curr rest
  | missing upto rest => .missing (front ++ upto) rest

/-- The loop of `find_pred_curr`. -/
def findLoop (so : Nat) (hit : Node K → Bool) : List (Node K) → Found K
  | [] => .missing [] []
  | c :: cs =>
      if c.soKey > so then .missing [] (c :: cs)
      else if c.soKey = so ∧ hit c then .found [] c cs
      else (findLoop so hit cs).prepend [c]

/-- `find_pred_curr` from the sentinel `head`. -/
def findPredCurr (nodes : List (Node K)) (head so : Nat) (hit : Node K → Bool) : Found K :=
  match nodes.dropWhile (·.soKey != head) with
  | [] => .missing nodes []
  | n :: rest => (findLoop so hit rest).prepend (nodes.takeWhile (·.soKey != head) ++ [n])

/-- `get_or_init_bucket`. Every call is for a smaller bucket, so `bucketIdx + 1` calls
are enough. -/
def getOrInitBucket : Nat → Map K → Grants → Nat → Map K × Grants × Option Nat
  | 0, m, g, _ => (m, g, none)
  | fuel + 1, m, g, bucketIdx =>
      match getOrCreateSegment m g (location bucketIdx).1 with
      | (m, g, false) => (m, g, none)
      | (m, g, true) =>
          match m.slot bucketIdx with
          | some p => (m, g, some p)
          | none =>
              if bucketIdx = 0 then
                match alloc g with
                | (true, g) => (({ m with nodes := [⟨0, none, null⟩] } : Map K).setSlot 0 0, g, some 0)
                | (false, g) => (m, g, none)
              else
                match getOrInitBucket fuel m g (bucketIdx ^^^ 1 <<< bucketIdx.log2) with
                | (m, g, none) => (m, g, none)
                | (m, g, some parent) =>
                    match alloc g with
                    | (false, g) => (m, g, none)
                    | (true, g) =>
                        let so := makeDummySoKey bucketIdx
                        match findPredCurr m.nodes parent so fun _ => true with
                        | .found _ curr _ => (m.setSlot bucketIdx curr.soKey, g, some curr.soKey)
                        | .missing upto rest =>
                            (({ m with nodes := upto ++ ⟨so, none, null⟩ :: rest } : Map K).setSlot
                              bucketIdx so, g, some so)

/-! ## The operations -/

inductive Result where
  /-- With what is stored in `out_value` or `out_old_value`. -/
  | success (out : Ptr)
  | alreadyExists
  | notFound
  | outOfMemory
  deriving DecidableEq, Repr

variable (f : Hashing K)

/-- `curr->key != NULL && keys_equal(map, curr->key, key)`. -/
def Hashing.hit (key : K) (n : Node K) : Bool := n.key.any fun k => f.equal k key

/-- The sentinel of the key's bucket. -/
def headOf (m : Map K) (g : Grants) (key : K) : Map K × Grants × Option Nat :=
  let bucketIdx := (f.hash key).toNat &&& (m.bucketCount - 1)
  getOrInitBucket (bucketIdx + 1) m g bucketIdx

/-- The search for a key. -/
def Map.find (m : Map K) (head : Nat) (key : K) : Found K :=
  findPredCurr m.nodes head (makeRegularSoKey (f.hash key)) (f.hit key)

/-- A new node between `pred` and `curr`, and the doubling. -/
def Map.addNode (m : Map K) (g : Grants) (upto rest : List (Node K)) (key : K) (value : Ptr) :
    Map K × Result :=
  match alloc g with
  | (false, _) => (m, .outOfMemory)
  | (true, _) =>
      let count := m.count + 1
      ({ m with
        nodes := upto ++ ⟨makeRegularSoKey (f.hash key), some key, value⟩ :: rest
        count := count
        bucketCount :=
          if 4 * count > 3 * m.bucketCount ∧ m.bucketCount < 1 <<< 31 then m.bucketCount * 2
          else m.bucketCount }, .success null)

def insert (m : Map K) (g : Grants) (key : K) (value : Ptr) : Map K × Result :=
  match headOf f m g key with
  | (m, _, none) => (m, .outOfMemory)
  | (m, g, some head) =>
      match m.find f head key with
      | .found _ _ _ => (m, .alreadyExists)
      | .missing upto rest => m.addNode f g upto rest key value

def put (m : Map K) (g : Grants) (key : K) (value : Ptr) : Map K × Result :=
  match headOf f m g key with
  | (m, _, none) => (m, .outOfMemory)
  | (m, g, some head) =>
      match m.find f head key with
      | .found upto curr rest =>
          ({ m with nodes := upto ++ { curr with value := value } :: rest }, .success curr.value)
      | .missing upto rest => m.addNode f g upto rest key value

/-- The loop of `cobalt_lfhashmap_get`. -/
def getLoop (so : Nat) (hit : Node K → Bool) : List (Node K) → Option Ptr
  | [] => none
  | c :: cs =>
      if c.soKey = so ∧ hit c then some c.value
      else if c.soKey > so then none
      else getLoop so hit cs

def get (m : Map K) (g : Grants) (key : K) : Map K × Result :=
  match headOf f m g key with
  | (m, _, none) => (m, .notFound)
  | (m, _, some head) =>
      match getLoop (makeRegularSoKey (f.hash key)) (f.hit key)
        (m.nodes.dropWhile (·.soKey != head)) with
      | some value => (m, .success value)
      | none => (m, .notFound)

def remove (m : Map K) (g : Grants) (key : K) : Map K × Result :=
  match headOf f m g key with
  | (m, _, none) => (m, .notFound)
  | (m, _, some head) =>
      match m.find f head key with
      | .found upto curr rest =>
          ({ m with nodes := upto ++ rest, count := m.count - 1 }, .success curr.value)
      | .missing _ _ => (m, .notFound)

/-- A call; `cobalt_lfhashmap_contains` asks get. -/
inductive Op (K : Type) where
  | insert (key : K) (value : Ptr)
  | put (key : K) (value : Ptr)
  | get (key : K)
  | remove (key : K)

def Op.key : Op K → K
  | insert key _ | put key _ | get key | remove key => key

def apply (m : Map K) (g : Grants) : Op K → Map K × Result
  | .insert key value => insert f m g key value
  | .put key value => put f m g key value
  | .get key => get f m g key
  | .remove key => remove f m g key

/-- `cobalt_lfhashmap_create`, when it has memory. -/
def create : Map K := (getOrInitBucket 1 ⟨[], fun _ => none, 0, 4⟩ [] 0).1

/-- The maps of the sequential runs whose calls all meet `ok`. -/
inductive Run (ok : Map K → Grants → Op K → Prop) : Map K → Prop where
  | create : Run ok create
  | apply {m : Map K} (h : Run ok m) (g : Grants) (op : Op K) (hok : ok m g op) :
      Run ok (apply f m g op).1

/-- The key/value pairs in the order of the list. -/
def pairsOf (nodes : List (Node K)) : List (K × Ptr) :=
  nodes.filterMap fun n => n.key.map fun k => (k, n.value)

end Cobalt.Container.LfHashMap
