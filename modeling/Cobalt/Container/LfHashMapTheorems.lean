/-
Cobalt.Container.LfHashMapTheorems — the split-ordered map is a finite map.

The so_key of a bucket has no bit that the so_keys of its items do not have,
and neither does the so_key of its parent: so from the sentinel of a bucket
a search in so_key order meets every item of the bucket. That holds in every
sequential run, whatever allocations fail. When the sentinel cannot be made
there is no search, and get and remove then say that there is no such key.
-/
import Cobalt.Container.LfHashMap

namespace Cobalt.Container.LfHashMap

open List Option Bool
open BitVec (getLsbD_or getLsbD_of_ge testBit_toNat)

open HashMap (Ptr null)

/-! ## Reversed bits -/

/-- The mask has the bits at the indices without `shift`. -/
def Halves (shift : Nat) (mask : BitVec 64) : Prop :=
  ∀ i < 64, if mask.getLsbD i then
      shift + i = i ^^^ shift ∧ (i < shift ∨ mask.getLsbD (i - shift) = false)
    else shift ≤ i ∧ i - shift = i ^^^ shift ∧ mask.getLsbD (i - shift) = true

instance (shift : Nat) (mask : BitVec 64) : Decidable (Halves shift mask) :=
  inferInstanceAs (Decidable (∀ i < 64, _))

lemma getLsbD_swapBits {shift : Nat} {mask : BitVec 64} (h : Halves shift mask) (v : BitVec 64)
    {i : Nat} (hi : i < 64) : (swapBits shift mask v).getLsbD i = v.getLsbD (i ^^^ shift) := by
  have h := h i hi
  simp only [swapBits, getLsbD_or, BitVec.getLsbD_and, BitVec.getLsbD_ushiftRight,
    BitVec.getLsbD_shiftLeft, hi, decide_true, Bool.true_and]
  split at h
  · rename_i hm
    rw [hm, h.1, Bool.and_true]
    rcases h.2 with hlt | hoff
    · simp [hlt]
    · simp [hoff]
  · rename_i hm
    simp [hm, h.2.2, ← h.2.1, Nat.not_lt.mpr h.1]

lemma getLsbD_reverseBits64 (v : BitVec 64) {i : Nat} (hi : i < 64) :
    (reverseBits64 v).getLsbD i = v.getLsbD (63 - i) := by
  have hxor : ∀ {i}, i < 64 → ∀ j < 64, i ^^^ j < 64 :=
    fun hi j hj => Nat.xor_lt_two_pow (n := 6) hi hj
  have h32 : ∀ i < 64, i ^^^ 32 = if i < 32 then 32 + i else i - 32 := by decide
  have hall : ∀ i < 64, i ^^^ 32 ^^^ 16 ^^^ 8 ^^^ 4 ^^^ 2 ^^^ 1 = 63 - i := by decide
  have hlast : ∀ w : BitVec 64, (w >>> 32 ||| w <<< 32).getLsbD i = w.getLsbD (i ^^^ 32) := by
    intro w
    rw [h32 i hi, getLsbD_or, BitVec.getLsbD_ushiftRight, BitVec.getLsbD_shiftLeft]
    split
    · rename_i hlt
      simp [hlt]
    · rename_i hge
      simp [hge, hi, getLsbD_of_ge w (32 + i) (by omega)]
  have h1 := hxor hi 32 (by decide)
  have h2 := hxor h1 16 (by decide)
  have h3 := hxor h2 8 (by decide)
  have h4 := hxor h3 4 (by decide)
  have h5 := hxor h4 2 (by decide)
  rw [reverseBits64, hlast, getLsbD_swapBits (by decide) _ h1, getLsbD_swapBits (by decide) _ h2,
    getLsbD_swapBits (by decide) _ h3, getLsbD_swapBits (by decide) _ h4,
    getLsbD_swapBits (by decide) _ h5, hall i hi]

lemma testBit_makeDummySoKey (b i : Nat) :
    (makeDummySoKey b).testBit i = (decide (i < 64) && b.testBit (63 - i)) := by
  by_cases hi : i < 64
  · rw [makeDummySoKey, testBit_toNat, getLsbD_reverseBits64 _ hi, BitVec.getLsbD_ofNat]
    simp [hi, show 63 - i < 64 by omega]
  · rw [makeDummySoKey, testBit_toNat, getLsbD_of_ge _ _ (by omega)]
    simp [hi]

lemma testBit_makeRegularSoKey (h : BitVec 64) (i : Nat) :
    (makeRegularSoKey h).testBit i = (decide (i < 64) && (h.getLsbD (63 - i) || decide (i = 0))) := by
  by_cases hi : i < 64
  · rw [makeRegularSoKey, testBit_toNat, getLsbD_reverseBits64 _ hi, getLsbD_or]
    have hone : ∀ i < 64, (1 <<< 63 : BitVec 64).getLsbD (63 - i) = decide (i = 0) := by decide
    rw [hone i hi]
    simp [hi]
  · rw [makeRegularSoKey, testBit_toNat, getLsbD_of_ge _ _ (by omega)]
    simp [hi]

lemma le_of_testBit {x y : Nat} (h : ∀ i, x.testBit i = true → y.testBit i = true) : x ≤ y := by
  have hand : x &&& y = x := by
    refine Nat.eq_of_testBit_eq fun i => ?_
    rw [Nat.testBit_and]
    cases hx : x.testBit i with
    | false => rfl
    | true => rw [h i hx, Bool.and_true]
  exact hand ▸ Nat.and_le_right

lemma makeDummySoKey_lt_regular (h : BitVec 64) {j : Nat} (hj : j < 64) :
    makeDummySoKey (h.toNat &&& (2 ^ j - 1)) < makeRegularSoKey h := by
  refine lt_of_le_of_ne (le_of_testBit fun i hi => ?_) fun heq => ?_
  · rw [testBit_makeDummySoKey, Nat.testBit_and, and_eq_true, and_eq_true] at hi
    rw [testBit_makeRegularSoKey, hi.1, ← testBit_toNat, hi.2.1]
    rfl
  · -- a regular so_key is odd
    have h0 := congrArg (Nat.testBit · 0) heq
    simp only [testBit_makeDummySoKey, testBit_makeRegularSoKey, Nat.testBit_and,
      Nat.testBit_two_pow_sub_one] at h0
    simp [show ¬ 63 < j by omega] at h0

lemma testBit_parent {b : Nat} (hb : b ≠ 0) (i : Nat) :
    (b ^^^ 1 <<< b.log2).testBit i = (b.testBit i && decide (i ≠ b.log2)) := by
  rw [Nat.testBit_xor, Nat.shiftLeft_eq, one_mul, Nat.testBit_two_pow]
  by_cases hi : i = b.log2
  · subst hi
    simp [Nat.testBit_log2 hb]
  · simp [hi, Ne.symm hi]

lemma parent_lt {b : Nat} (hb : b ≠ 0) : b ^^^ 1 <<< b.log2 < b := by
  refine lt_of_le_of_ne (le_of_testBit fun i hi => ?_) fun heq => ?_
  · rw [testBit_parent hb, and_eq_true] at hi
    exact hi.1
  · have htop := testBit_parent hb b.log2
    simp [heq, Nat.testBit_log2 hb] at htop

lemma makeDummySoKey_parent_lt {b : Nat} (hb : b ≠ 0) (hlt : b < 2 ^ 64) :
    makeDummySoKey (b ^^^ 1 <<< b.log2) < makeDummySoKey b := by
  have hlog : b.log2 < 64 := (Nat.log2_lt hb).mpr hlt
  refine lt_of_le_of_ne (le_of_testBit fun i hi => ?_) fun heq => ?_
  · rw [testBit_makeDummySoKey, testBit_parent hb, and_eq_true, and_eq_true] at hi
    rw [testBit_makeDummySoKey, hi.1, hi.2.1]
    rfl
  · have htop := congrArg (Nat.testBit · (63 - b.log2)) heq
    simp only [testBit_makeDummySoKey, testBit_parent hb,
      show 63 - (63 - b.log2) = b.log2 by omega, Nat.testBit_log2 hb] at htop
    simp [show 63 - b.log2 < 64 by omega] at htop

variable {K : Type} {f : Hashing K} {m m' : Map K} {nodes upto rest : List (Node K)}
  {so head b : Nat} {hit : Node K → Bool} {g : Grants}

/-! ## Searches -/

/-- A search goes past the node. -/
def Passed (so : Nat) (hit : Node K → Bool) (n : Node K) : Prop :=
  n.soKey ≤ so ∧ ¬ (n.soKey = so ∧ hit n = true)

/-- What a search leaves behind it and what it has before it. -/
def Ends (nodes : List (Node K)) (so : Nat) (hit : Node K → Bool) : Found K → Prop
  | .found upto curr rest => nodes = upto ++ curr :: rest ∧ (∀ n ∈ upto, Passed so hit n) ∧
      curr.soKey = so ∧ hit curr = true
  | .missing upto rest => nodes = upto ++ rest ∧ (∀ n ∈ upto, Passed so hit n) ∧
      ∀ n ∈ rest, so < n.soKey

lemma Ends.prepend {r : Found K} (h : Ends nodes so hit r) (front : List (Node K))
    (hfront : ∀ n ∈ front, Passed so hit n) : Ends (front ++ nodes) so hit (r.prepend front) := by
  cases r with
  | found upto curr rest =>
    obtain ⟨rfl, hupto, hcurr⟩ := h
    exact ⟨by simp, forall_mem_append.mpr ⟨hfront, hupto⟩, hcurr⟩
  | missing upto rest =>
    obtain ⟨rfl, hupto, hrest⟩ := h
    exact ⟨by simp, forall_mem_append.mpr ⟨hfront, hupto⟩, hrest⟩

lemma findLoop_ends (hs : nodes.Pairwise fun a b => a.soKey ≤ b.soKey) :
    Ends nodes so hit (findLoop so hit nodes) := by
  induction nodes with
  | nil => simp [findLoop, Ends]
  | cons c cs ih =>
    rw [pairwise_cons] at hs
    rw [findLoop]
    split
    · rename_i hgt
      exact ⟨rfl, by simp, forall_mem_cons.mpr ⟨hgt, fun n hn => hgt.trans_le (hs.1 n hn)⟩⟩
    · rename_i hle
      split
      · rename_i hhit
        exact ⟨rfl, by simp, hhit⟩
      · rename_i hmiss
        exact (ih hs.2).prepend [c] (by simpa using ⟨Nat.not_lt.mp hle, hmiss⟩)

def Found.value? : Found K → Option Ptr
  | found _ curr _ => some curr.value
  | missing _ _ => none

lemma value_prepend (front : List (Node K)) (r : Found K) : (r.prepend front).value? = r.value? := by
  cases r <;> rfl

lemma getLoop_eq (so : Nat) (hit : Node K → Bool) (nodes : List (Node K)) :
    getLoop so hit nodes = (findLoop so hit nodes).value? := by
  induction nodes with
  | nil => rfl
  | cons c cs ih =>
    rw [getLoop, findLoop]
    by_cases hhit : c.soKey = so ∧ hit c = true
    · rw [if_pos hhit, if_neg (by omega), if_pos hhit]
      rfl
    · rw [if_neg hhit, if_neg hhit, ih]
      split
      · rfl
      · rw [value_prepend]

lemma dropWhile_head (h : ∃ n ∈ nodes, n.soKey = head) : ∃ n rest,
    nodes.dropWhile (·.soKey != head) = n :: rest ∧ n.soKey = head ∧
      nodes = nodes.takeWhile (·.soKey != head) ++ n :: rest := by
  cases hd : nodes.dropWhile (·.soKey != head) with
  | nil =>
    obtain ⟨n, hn, hso⟩ := h
    rw [dropWhile_eq_nil_iff] at hd
    simpa [hso] using hd n hn
  | cons n rest =>
    refine ⟨n, rest, rfl, ?_, ?_⟩
    · have hfirst := head_dropWhile_not (p := fun n : Node K => n.soKey != head) (l := nodes)
        (by simp [hd])
      simpa [hd] using hfirst
    · rw [← hd, takeWhile_append_dropWhile]

lemma findPredCurr_ends (hs : nodes.Pairwise fun a b => a.soKey ≤ b.soKey)
    (h : ∃ n ∈ nodes, n.soKey = head) (hlt : head < so) :
    Ends nodes so hit (findPredCurr nodes head so hit) := by
  obtain ⟨n, rest, hd, hn, hsplit⟩ := dropWhile_head h
  rw [findPredCurr, hd]
  dsimp only
  have hs' := hs
  rw [hsplit, pairwise_append] at hs'
  obtain ⟨-, hs2, hs3⟩ := hs'
  have hends : Ends rest so hit _ := findLoop_ends (pairwise_cons.mp hs2).2
  have hfront : ∀ x ∈ nodes.takeWhile (·.soKey != head) ++ [n], Passed so hit x := by
    intro x hx
    have hle : x.soKey ≤ head := by
      rcases mem_append.mp hx with hx | hx
      · exact hn ▸ hs3 x hx n (mem_cons_self ..)
      · exact (mem_singleton.mp hx ▸ hn).le
    exact ⟨by omega, by omega⟩
  have hall := hends.prepend _ hfront
  rwa [append_assoc, singleton_append, ← hsplit] at hall

lemma getLoop_head (h : ∃ n ∈ nodes, n.soKey = head) (hlt : head < so) :
    getLoop so hit (nodes.dropWhile (·.soKey != head)) =
      (findPredCurr nodes head so hit).value? := by
  obtain ⟨n, rest, hd, hn, -⟩ := dropWhile_head h
  rw [findPredCurr, hd]
  dsimp only
  rw [value_prepend, getLoop, if_neg (by omega), if_neg (by omega), getLoop_eq]

/-! ## The invariant -/

/-- The equality is an equivalence and the hash respects it. -/
structure Hashing.Consistent (f : Hashing K) : Prop where
  refl : ∀ a, f.equal a a = true
  symm : ∀ a b, f.equal a b = true → f.equal b a = true
  trans : ∀ a b c, f.equal a b = true → f.equal b c = true → f.equal a c = true
  hash : ∀ a b, f.equal a b = true → f.hash a = f.hash b

/-- The order of the list; only items share a so_key, and their keys differ. -/
def Before (f : Hashing K) (a b : Node K) : Prop :=
  a.soKey < b.soKey ∨
    a.soKey = b.soKey ∧ ∃ k k', a.key = some k ∧ b.key = some k' ∧ f.equal k k' = false

/-- The so_keys of sentinels are even. -/
def NodeOk (f : Hashing K) (n : Node K) : Prop :=
  match n.key with
  | some k => n.soKey = makeRegularSoKey (f.hash k)
  | none => n.soKey.testBit 0 = false

structure Listed (f : Hashing K) (nodes : List (Node K)) : Prop where
  sorted : nodes.Pairwise (Before f)
  ok : ∀ n ∈ nodes, NodeOk f n

/-- The sentinel of a bucket is in the list. -/
def HasSentinel (nodes : List (Node K)) (b : Nat) : Prop :=
  ∃ n ∈ nodes, n.soKey = makeDummySoKey b ∧ n.key = none

structure Inv (f : Hashing K) (m : Map K) : Prop where
  listed : Listed f m.nodes
  slots : ∀ b p, m.slot b = some p → b < 2 ^ 31 ∧ p = makeDummySoKey b ∧ HasSentinel m.nodes b
  root : (m.slot 0).isSome
  buckets : ∃ j ≤ 31, m.bucketCount = 2 ^ j
  count : m.count = (pairsOf m.nodes).length

lemma Listed.le (h : Listed f nodes) : nodes.Pairwise fun a b => a.soKey ≤ b.soKey :=
  h.sorted.imp fun hab => hab.elim le_of_lt fun heq => heq.1.le

variable {n : Node K}

lemma Listed.add (h : Listed f (upto ++ rest)) (hn : NodeOk f n)
    (hupto : ∀ x ∈ upto, Before f x n) (hrest : ∀ y ∈ rest, Before f n y) :
    Listed f (upto ++ n :: rest) := by
  obtain ⟨h1, h2, h3⟩ := pairwise_append.mp h.sorted
  constructor
  · refine pairwise_append.mpr ⟨h1, pairwise_cons.mpr ⟨hrest, h2⟩, fun x hx => ?_⟩
    exact forall_mem_cons.mpr ⟨hupto x hx, h3 x hx⟩
  · obtain ⟨hok, hok'⟩ := forall_mem_append.mp h.ok
    exact forall_mem_append.mpr ⟨hok, forall_mem_cons.mpr ⟨hn, hok'⟩⟩

lemma Listed.split (h : Listed f (upto ++ n :: rest)) : Listed f (upto ++ rest) ∧
    (∀ x ∈ upto, Before f x n) ∧ ∀ y ∈ rest, Before f n y := by
  obtain ⟨-, h2, h3⟩ := pairwise_append.mp h.sorted
  have hsub : (upto ++ rest).Sublist (upto ++ n :: rest) :=
    (sublist_cons_self n rest).append_left upto
  exact ⟨⟨h.sorted.sublist hsub, fun x hx => h.ok x (hsub.subset hx)⟩,
    fun x hx => h3 x hx n (mem_cons_self ..), (pairwise_cons.mp h2).1⟩

lemma testBit_zero_dummy (hb : b < 2 ^ 31) : (makeDummySoKey b).testBit 0 = false := by
  rw [testBit_makeDummySoKey, Nat.testBit_lt_two_pow (hb.trans (by decide)), Bool.and_false]

lemma NodeOk.key_isSome_iff (h : NodeOk f n) : n.key.isSome = n.soKey.testBit 0 := by
  cases hk : n.key with
  | none =>
    simp only [NodeOk, hk] at h
    rw [h]
    rfl
  | some k =>
    simp only [NodeOk, hk] at h
    rw [h, testBit_makeRegularSoKey]
    simp

lemma Listed.hasSentinel (h : Listed f nodes) (hb : b < 2 ^ 31) (hn : n ∈ nodes)
    (hso : n.soKey = makeDummySoKey b) : HasSentinel nodes b := by
  refine ⟨n, hn, hso, ?_⟩
  have hsome := (h.ok n hn).key_isSome_iff
  rw [hso, testBit_zero_dummy hb] at hsome
  simpa using hsome

/-! ## The directory -/

lemma location_injective : Function.Injective location := by
  intro b b' h
  have hlog : ∀ b, ¬ b < 2 → 1 ≤ b.log2 := fun b hb => (Nat.le_log2 (by omega)).mpr (by omega)
  simp only [location] at h
  split at h <;> split at h
  · exact (Prod.mk.inj h).2
  · rename_i hb'
    have := (Prod.mk.inj h).1
    have := hlog b' hb'
    omega
  · rename_i hb _
    have := (Prod.mk.inj h).1
    have := hlog b hb
    omega
  · obtain ⟨hseg, hoff⟩ := Prod.mk.inj h
    rw [hseg] at hoff
    exact Nat.xor_left_injective hoff

lemma slot_setSlot (m : Map K) (b p b' : Nat) : (m.setSlot b p).slot b' = m.slot b' ∨
    b' = b ∧ (m.setSlot b p).slot b' = some p := by
  simp only [Map.slot, Map.setSlot]
  by_cases hseg : (location b').1 = (location b).1
  · rw [hseg, Function.update_self]
    cases hs : m.segments (location b).1 with
    | none => exact .inl rfl
    | some s =>
      by_cases hoff : (location b').2 = (location b).2
      · exact .inr ⟨location_injective (Prod.ext hseg hoff), by simp [hoff]⟩
      · exact .inl (by simp [hoff])
  · rw [Function.update_of_ne hseg]
    exact .inl rfl

lemma slot_newSegment (seg : Nat) (h : ¬ (m.segments seg).isSome) (b : Nat) :
    ({ m with segments := Function.update m.segments seg (some fun _ => none) } : Map K).slot b =
      m.slot b := by
  simp only [Map.slot]
  by_cases hseg : (location b).1 = seg
  · rw [hseg, Function.update_self, not_isSome_iff_eq_none.mp h]
    rfl
  · rw [Function.update_of_ne hseg]

/-- The items are the same. -/
structure Kept (f : Hashing K) (m m' : Map K) : Prop where
  inv : Inv f m'
  pairs : pairsOf m'.nodes = pairsOf m.nodes
  find : ∀ key, m'.nodes.find? (f.hit key) = m.nodes.find? (f.hit key)
  bucketCount : m'.bucketCount = m.bucketCount

lemma Kept.trans {m1 m2 m3 : Map K} (h : Kept f m1 m2) (h' : Kept f m2 m3) : Kept f m1 m3 :=
  ⟨h'.inv, h'.pairs.trans h.pairs, fun key => (h'.find key).trans (h.find key),
    h'.bucketCount.trans h.bucketCount⟩

/-- What making the sentinel of a bucket leaves. -/
structure Inited (f : Hashing K) (m : Map K) (g : Grants) (b : Nat)
    (r : Map K × Grants × Option Nat) : Prop where
  kept : Kept f m r.1
  grants : ∀ x ∈ r.2.1, x ∈ g
  head : ∀ p, r.2.2 = some p → p = makeDummySoKey b ∧ HasSentinel r.1.nodes b
  failed : r.2.2 = none → false ∈ g

lemma alloc_mem {g' : Grants} {granted : Bool} (h : alloc g = (granted, g')) :
    (∀ x ∈ g', x ∈ g) ∧ (granted = false → false ∈ g) := by
  cases g with
  | nil =>
    cases h
    simp
  | cons x g =>
    cases h
    exact ⟨fun y hy => mem_cons_of_mem _ hy, fun hx => hx ▸ mem_cons_self ..⟩

lemma Inv.of_slots (hi : Inv f m) {segments : Nat → Option (Nat → Option Nat)}
    (h : ∀ b, ({ m with segments := segments } : Map K).slot b = m.slot b) :
    Inv f { m with segments := segments } := by
  refine { hi with slots := fun b p hp => ?_, root := ?_ }
  · exact hi.slots b p ((h b).symm.trans hp)
  · rw [h]
    exact hi.root

lemma Inv.setSlot (hi : Inv f m) (hb : b < 2 ^ 31)
    (hn : HasSentinel m.nodes b) : Inv f (m.setSlot b (makeDummySoKey b)) := by
  refine { hi with slots := fun b' p hp => ?_, root := ?_ }
  · rcases slot_setSlot m b (makeDummySoKey b) b' with h | ⟨rfl, h⟩
    · exact hi.slots b' p (h.symm.trans hp)
    · obtain rfl := Option.some.inj (h.symm.trans hp)
      exact ⟨hb, rfl, hn⟩
  · rcases slot_setSlot m b (makeDummySoKey b) 0 with h | ⟨-, h⟩
    · rw [h]
      exact hi.root
    · rw [h]
      rfl

lemma Inv.setNodes (hi : Inv f m) (hl : Listed f nodes)
    (hkeep : ∀ n ∈ m.nodes, n.key = none → n ∈ nodes) {buckets : Nat}
    (hbuckets : ∃ j ≤ 31, buckets = 2 ^ j) :
    Inv f ⟨nodes, m.segments, (pairsOf nodes).length, buckets⟩ where
  listed := hl
  slots b p hp := by
    obtain ⟨hb, heq, n, hn, hso, hkey⟩ := hi.slots b p hp
    exact ⟨hb, heq, n, hkeep n hn hkey, hso, hkey⟩
  root := hi.root
  buckets := hbuckets
  count := rfl

lemma Inv.addSentinel (hi : Inv f m) (hb : b < 2 ^ 31) (hsplit : m.nodes = upto ++ rest)
    (hupto : ∀ x ∈ upto, x.soKey < makeDummySoKey b)
    (hrest : ∀ y ∈ rest, makeDummySoKey b < y.soKey) :
    Inv f { m with nodes := upto ++ ⟨makeDummySoKey b, none, null⟩ :: rest } := by
  have hl := (hsplit ▸ hi.listed).add (n := ⟨makeDummySoKey b, none, null⟩) (testBit_zero_dummy hb)
    (fun x hx => .inl (hupto x hx)) fun y hy => .inl (hrest y hy)
  have hcount : (pairsOf (upto ++ ⟨makeDummySoKey b, none, null⟩ :: rest)).length = m.count := by
    rw [hi.count, hsplit]
    simp [pairsOf]
  rw [← hcount]
  refine hi.setNodes hl (fun n hn _ => ?_) hi.buckets
  simp only [hsplit, mem_append, mem_cons] at hn ⊢
  tauto

lemma getOrCreateSegment_kept (hi : Inv f m) (g : Grants) {seg : Nat} (hseg : seg < 32) :
    Kept f m (getOrCreateSegment m g seg).1 ∧ (∀ x ∈ (getOrCreateSegment m g seg).2.1, x ∈ g) ∧
      ((getOrCreateSegment m g seg).2.2 = false → false ∈ g) := by
  have hsame : Kept f m m := ⟨hi, rfl, fun _ => rfl, rfl⟩
  rw [getOrCreateSegment, if_neg (by omega)]
  split
  · exact ⟨hsame, fun _ => id, by rintro ⟨⟩⟩
  · rename_i hnone
    obtain ⟨granted, g', hg⟩ : ∃ granted g', alloc g = (granted, g') := ⟨_, _, rfl⟩
    rw [hg]
    cases granted with
    | true => exact ⟨⟨hi.of_slots (slot_newSegment _ hnone), rfl, fun _ => rfl, rfl⟩,
        (alloc_mem hg).1, by rintro ⟨⟩⟩
    | false => exact ⟨hsame, (alloc_mem hg).1, fun _ => (alloc_mem hg).2 rfl⟩

/-- From the sentinel of the parent, the sentinel of the bucket is found or made. -/
lemma Inv.initFrom (hi : Inv f m) (hb : b ≠ 0) (hlt : b < 2 ^ 31)
    (hparent : HasSentinel m.nodes (b ^^^ 1 <<< b.log2)) :
    match findPredCurr m.nodes (makeDummySoKey (b ^^^ 1 <<< b.log2)) (makeDummySoKey b)
      fun _ => true with
    | .found _ curr _ => curr.soKey = makeDummySoKey b ∧ HasSentinel m.nodes b
    | .missing upto rest => Inv f { m with nodes := upto ++ ⟨makeDummySoKey b, none, null⟩ :: rest } ∧
        m.nodes = upto ++ rest := by
  obtain ⟨n, hn, hso, -⟩ := hparent
  have hends : Ends m.nodes _ (fun _ => true) _ := findPredCurr_ends hi.listed.le ⟨n, hn, hso⟩
    (makeDummySoKey_parent_lt hb (by omega))
  split
  · rename_i upto curr rest heq
    rw [heq] at hends
    exact ⟨hends.2.2.1, hi.listed.hasSentinel hlt (by simp [hends.1]) hends.2.2.1⟩
  · rename_i upto rest heq
    rw [heq] at hends
    obtain ⟨hsplit, hupto, hrest⟩ := hends
    refine ⟨hi.addSentinel hlt hsplit (fun x hx => ?_) hrest, hsplit⟩
    obtain ⟨hle, hne⟩ := hupto x hx
    exact lt_of_le_of_ne hle fun heq => hne ⟨heq, rfl⟩

lemma getOrInitBucket_inited (fuel : Nat) (hi : Inv f m) (g : Grants) (hb : b < fuel)
    (hlt : b < 2 ^ 31) : Inited f m g b (getOrInitBucket fuel m g b) := by
  induction fuel generalizing m g b with
  | zero => omega
  | succ fuel ih =>
    have hseg : (location b).1 < 32 := by
      rw [location]
      split
      · exact Nat.zero_lt_succ 31
      · exact (Nat.log2_lt (by omega)).mpr (hlt.trans (by decide))
    obtain ⟨hkept, hgrants, hfailed⟩ := getOrCreateSegment_kept hi g hseg
    rw [getOrInitBucket]
    generalize getOrCreateSegment m g (location b).1 = r at hkept hgrants hfailed
    obtain ⟨m1, g1, ok⟩ := r
    cases ok with
    | false => exact ⟨hkept, hgrants, by rintro p ⟨⟩, fun _ => hfailed rfl⟩
    | true =>
      dsimp only at hkept hgrants ⊢
      cases hslot : m1.slot b with
      | some p =>
        refine ⟨hkept, hgrants, ?_, by rintro ⟨⟩⟩
        rintro p ⟨⟩
        exact (hkept.inv.slots b p hslot).2
      | none =>
        have hb0 : b ≠ 0 := by
          rintro rfl
          simpa [hslot] using hkept.inv.root
        dsimp only
        rw [if_neg hb0]
        have hsmall := parent_lt hb0
        have hrec := ih (b := b ^^^ 1 <<< b.log2) hkept.inv g1 (by omega) (by omega)
        generalize getOrInitBucket fuel m1 g1 (b ^^^ 1 <<< b.log2) = r at hrec
        obtain ⟨m2, g2, parent⟩ := r
        have hkept2 := hkept.trans hrec.kept
        cases parent with
        | none => exact ⟨hkept2, fun x hx => hgrants x (hrec.grants x hx), by rintro p ⟨⟩,
            fun _ => hgrants _ (hrec.failed rfl)⟩
        | some parent =>
          obtain ⟨rfl, hparent⟩ := hrec.head parent rfl
          obtain ⟨granted, g3, hg⟩ : ∃ granted g3, alloc g2 = (granted, g3) := ⟨_, _, rfl⟩
          dsimp only
          rw [hg]
          have hg3 : ∀ x ∈ g3, x ∈ g := fun x hx => hgrants x (hrec.grants x ((alloc_mem hg).1 x hx))
          cases granted with
          | false => exact ⟨hkept2, hg3, by rintro p ⟨⟩,
              fun _ => hgrants _ (hrec.grants _ ((alloc_mem hg).2 rfl))⟩
          | true =>
            have hinit := hrec.kept.inv.initFrom hb0 hlt hparent
            dsimp only
            split at hinit
            · rename_i upto curr rest hfind
              obtain ⟨hso, hn⟩ := hinit
              rw [hfind]
              dsimp only
              rw [hso]
              refine ⟨⟨hkept2.inv.setSlot hlt hn, hkept2.pairs, hkept2.find, hkept2.bucketCount⟩,
                hg3, ?_, by rintro ⟨⟩⟩
              rintro p ⟨⟩
              exact ⟨rfl, hn⟩
            · rename_i upto rest hfind
              obtain ⟨hinv, hsplit⟩ := hinit
              dsimp only at hsplit
              rw [hfind]
              have hn : HasSentinel (upto ++ ⟨makeDummySoKey b, none, null⟩ :: rest) b :=
                ⟨⟨makeDummySoKey b, none, null⟩, by simp, rfl, rfl⟩
              refine ⟨hkept2.trans ⟨hinv.setSlot hlt hn, ?_, fun key => ?_, rfl⟩, hg3, ?_,
                by rintro ⟨⟩⟩
              · simp [Map.setSlot, pairsOf, hsplit]
              · simp [Map.setSlot, hsplit, Hashing.hit]
              · rintro p ⟨⟩
                exact ⟨rfl, hn⟩

/-! ## Keys -/

variable {key key' : K}

/-- The value stored with a key. -/
def valueIn (f : Hashing K) (nodes : List (Node K)) (key : K) : Option Ptr :=
  (nodes.find? (f.hit key)).map Node.value

/-- The map from keys to values. -/
def Map.value (f : Hashing K) (m : Map K) (key : K) : Option Ptr := valueIn f m.nodes key

lemma hit_iff : f.hit key n = true ↔ ∃ k, n.key = some k ∧ f.equal k key = true := by
  cases hk : n.key <;> simp [Hashing.hit, hk]

lemma hit_congr (hf : f.Consistent) (h : f.equal key key' = true) (n : Node K) :
    f.hit key n = f.hit key' n := by
  rw [Bool.eq_iff_iff, hit_iff, hit_iff]
  refine exists_congr fun k => and_congr_right fun _ => ⟨fun hk => ?_, fun hk => ?_⟩
  · exact hf.trans _ _ _ hk h
  · exact hf.trans _ _ _ hk (hf.symm _ _ h)

lemma soKey_of_hit (hf : f.Consistent) (hn : NodeOk f n) (h : f.hit key n = true) :
    n.soKey = makeRegularSoKey (f.hash key) := by
  obtain ⟨k, hk, heq⟩ := hit_iff.mp h
  simp only [NodeOk, hk] at hn
  rw [hn, hf.hash k key heq]

lemma valueIn_absent (hf : f.Consistent) (hnone : ∀ n ∈ nodes, f.hit key n = false)
    (h : f.equal key key' = true) : valueIn f nodes key' = none := by
  have hnone' : nodes.find? (f.hit key') = none := by
    refine find?_eq_none.mpr fun n hn => ?_
    rw [← hit_congr hf h, hnone n hn]
    exact false_ne_true
  rw [valueIn, hnone']
  rfl

lemma valueIn_cons (hf : f.Consistent) (key' : K)
    (hnone : ∀ x ∈ upto ++ rest, f.hit key x = false) (hn : f.hit key n = true) :
    valueIn f (upto ++ n :: rest) key' =
      if f.equal key key' then some n.value else valueIn f (upto ++ rest) key' := by
  rw [valueIn, find?_append]
  by_cases heq : f.equal key key' = true
  · have hupto : upto.find? (f.hit key') = none := by
      refine find?_eq_none.mpr fun x hx => ?_
      rw [← hit_congr hf heq, hnone x (mem_append_left _ hx)]
      exact false_ne_true
    rw [if_pos heq, hupto, find?_cons_of_pos (hit_congr hf heq n ▸ hn)]
    rfl
  · have hmiss : ¬ f.hit key' n = true := by
      intro hhit
      obtain ⟨k, hk, hkey'⟩ := hit_iff.mp hhit
      obtain ⟨k', hk', hkey⟩ := hit_iff.mp hn
      obtain rfl := Option.some.inj (hk.symm.trans hk')
      exact heq (hf.trans _ _ _ (hf.symm _ _ hkey) hkey')
    rw [if_neg heq, find?_cons_of_neg hmiss, valueIn, find?_append]

/-- What a search for a key says about the items. -/
def Located (f : Hashing K) (m : Map K) (key : K) : Found K → Prop
  | .found upto curr rest => m.nodes = upto ++ curr :: rest ∧
      (∀ n ∈ upto ++ rest, f.hit key n = false) ∧ f.hit key curr = true
  | .missing upto rest => m.nodes = upto ++ rest ∧ (∀ n ∈ upto ++ rest, f.hit key n = false) ∧
      ∀ value, Listed f (upto ++ ⟨makeRegularSoKey (f.hash key), some key, value⟩ :: rest)

/-- A search from the sentinel of the key's bucket does not miss the key. -/
lemma Inv.find_located (hf : f.Consistent) (hi : Inv f m) {head : Nat}
    (hhead : ∃ n ∈ m.nodes, n.soKey = head) (hlt : head < makeRegularSoKey (f.hash key)) :
    Located f m key (m.find f head key) := by
  have hends : Ends m.nodes _ (f.hit key) _ := findPredCurr_ends hi.listed.le hhead hlt
  have hso : ∀ n ∈ m.nodes, f.hit key n = true → n.soKey = makeRegularSoKey (f.hash key) :=
    fun n hn => soKey_of_hit hf (hi.listed.ok n hn)
  rw [Map.find]
  generalize findPredCurr m.nodes head (makeRegularSoKey (f.hash key)) (f.hit key) = r at hends
  cases r with
  | found upto curr rest =>
    obtain ⟨hsplit, hupto, hcurr, hhit⟩ := hends
    have hl := hi.listed
    rw [hsplit] at hl hso
    refine ⟨hsplit, fun n hn => not_eq_true _ ▸ fun hn' => ?_, hhit⟩
    rcases mem_append.mp hn with hn | hn
    · exact (hupto n hn).2 ⟨hso n (by simp [hn]) hn', hn'⟩
    · -- behind the node that was found, another key with its so_key differs from its key
      have heq := hso n (by simp [hn]) hn'
      rcases hl.split.2.2 n hn with hlt | ⟨-, k, k', hk, hk', hne⟩
      · omega
      · obtain ⟨c, hc, hckey⟩ := hit_iff.mp hhit
        obtain ⟨c', hc', hckey'⟩ := hit_iff.mp hn'
        obtain rfl := Option.some.inj (hk.symm.trans hc)
        obtain rfl := Option.some.inj (hk'.symm.trans hc')
        rw [hf.trans _ _ _ hckey (hf.symm _ _ hckey')] at hne
        cases hne
  | missing upto rest =>
    obtain ⟨hsplit, hupto, hrest⟩ := hends
    have hl := hi.listed
    rw [hsplit] at hl hso
    have hnone : ∀ n ∈ upto ++ rest, f.hit key n = false := by
      refine fun n hn => not_eq_true _ ▸ fun hn' => ?_
      have heq := hso n hn hn'
      rcases mem_append.mp hn with hn | hn
      · exact (hupto n hn).2 ⟨heq, hn'⟩
      · exact absurd (hrest n hn) (by omega)
    refine ⟨hsplit, hnone, fun value => hl.add rfl (fun x hx => ?_) fun y hy => .inl (hrest y hy)⟩
    have hx' := mem_append_left rest hx
    rcases lt_or_eq_of_le (hupto x hx).1 with hlt | heq
    · exact .inl hlt
    · -- a node with an odd so_key is an item
      have hsome := (hl.ok x hx').key_isSome_iff
      rw [heq, testBit_makeRegularSoKey] at hsome
      obtain ⟨k, hk⟩ := isSome_iff_exists.mp (hsome.trans (by simp))
      refine .inr ⟨heq, k, key, hk, rfl, ?_⟩
      have hmiss := hnone x hx'
      rwa [Hashing.hit, hk, any_some] at hmiss

/-! ## The operations -/

/-- What the operations do to a finite map. -/
def spec (f : Hashing K) (v : K → Option Ptr) : Op K → (K → Option Ptr) × Result
  | .insert key value =>
      match v key with
      | some _ => (v, .alreadyExists)
      | none => (fun key' => if f.equal key key' then some value else v key', .success null)
  | .put key value =>
      (fun key' => if f.equal key key' then some value else v key', .success ((v key).getD null))
  | .get key =>
      match v key with
      | some value => (v, .success value)
      | none => (v, .notFound)
  | .remove key =>
      match v key with
      | some value => (fun key' => if f.equal key key' then none else v key', .success value)
      | none => (v, .notFound)

/-- What is said when there is no memory. -/
def Op.failure : Op K → Result
  | insert _ _ | put _ _ => .outOfMemory
  | get _ | remove _ => .notFound

/-- An operation does what it does to a finite map, or it has no memory and the items
stay as they are. -/
structure Done (f : Hashing K) (m : Map K) (g : Grants) (op : Op K) (r : Map K × Result) : Prop where
  inv : Inv f r.1
  spec : (r.1.value f, r.2) = spec f (m.value f) op ∨
    false ∈ g ∧ r.2 = op.failure ∧ pairsOf r.1.nodes = pairsOf m.nodes

/-- Making the bucket of the key comes before. -/
lemma Done.of_kept {m1 : Map K} {g1 : Grants} {op : Op K} {r : Map K × Result}
    (h : Done f m1 g1 op r) (hk : Kept f m m1) (hg : ∀ x ∈ g1, x ∈ g) : Done f m g op r := by
  have hvalue : m1.value f = m.value f := by
    funext key
    rw [Map.value, valueIn, hk.find]
    rfl
  refine ⟨h.inv, h.spec.imp (fun hspec => hvalue ▸ hspec) fun ⟨hfail, hres, hpairs⟩ => ?_⟩
  exact ⟨hg _ hfail, hres, hpairs.trans hk.pairs⟩

/-- The bucket of the key is there, and searches from its sentinel do not miss; or there is
no memory for it. -/
lemma Inv.done_of (hf : f.Consistent) (hi : Inv f m) {op : Op K} {r : Map K × Result}
    (hnone : ∀ m1 g1, headOf f m g op.key = (m1, g1, none) → r = (m1, op.failure))
    (hsome : ∀ m1 g1 head, headOf f m g op.key = (m1, g1, some head) → Inv f m1 →
      Located f m1 op.key (m1.find f head op.key) →
      getLoop (makeRegularSoKey (f.hash op.key)) (f.hit op.key)
        (m1.nodes.dropWhile (·.soKey != head)) = (m1.find f head op.key).value? →
      Done f m1 g1 op r) : Done f m g op r := by
  obtain ⟨j, hj, hbuckets⟩ := hi.buckets
  have hb : (f.hash op.key).toNat &&& (m.bucketCount - 1) < 2 ^ 31 := by
    rw [hbuckets, Nat.and_two_pow_sub_one_eq_mod]
    exact (Nat.mod_lt _ (Nat.two_pow_pos j)).trans_le (Nat.pow_le_pow_right (by decide) hj)
  have hlt : makeDummySoKey ((f.hash op.key).toNat &&& (m.bucketCount - 1)) <
      makeRegularSoKey (f.hash op.key) := by
    rw [hbuckets]
    exact makeDummySoKey_lt_regular _ (by omega)
  have hinit : Inited f m g _ (headOf f m g op.key) :=
    getOrInitBucket_inited _ hi g (Nat.lt_succ_self _) hb
  generalize headOf f m g op.key = h at hinit hnone hsome
  obtain ⟨m1, g1, head⟩ := h
  cases head with
  | none =>
    rw [hnone m1 g1 rfl]
    exact ⟨hinit.kept.inv, .inr ⟨hinit.failed rfl, rfl, hinit.kept.pairs⟩⟩
  | some head =>
    obtain ⟨rfl, n, hn, hso, -⟩ := hinit.head head rfl
    exact (hsome m1 g1 _ rfl hinit.kept.inv (hinit.kept.inv.find_located hf ⟨n, hn, hso⟩ hlt)
      (getLoop_head ⟨n, hn, hso⟩ hlt)).of_kept hinit.kept hinit.grants

section Located

variable {curr : Node K} (hf : f.Consistent)

include hf in
lemma value_found (hm : Located f m key (.found upto curr rest)) (key' : K) : m.value f key' =
    if f.equal key key' then some curr.value else valueIn f (upto ++ rest) key' := by
  rw [Map.value, hm.1]
  exact valueIn_cons hf _ hm.2.1 hm.2.2

include hf in
lemma value_key (hm : Located f m key (.found upto curr rest)) :
    m.value f key = some curr.value := by
  rw [value_found hf hm, if_pos (hf.refl key)]

include hf in
lemma value_missing (hm : Located f m key (.missing upto rest)) : m.value f key = none := by
  rw [Map.value, hm.1]
  exact valueIn_absent hf hm.2.1 (hf.refl key)

lemma mem_of_sentinel (hm : Located f m key (.found upto curr rest)) (hn : n ∈ m.nodes)
    (hkey : n.key = none) : n ∈ upto ++ rest := by
  obtain ⟨hsplit, -, hhit⟩ := hm
  obtain ⟨k, hk, -⟩ := hit_iff.mp hhit
  have hne : n ≠ curr := by
    rintro rfl
    rw [hkey] at hk
    cases hk
  simpa [hsplit, hne] using hn

end Located

lemma Inv.addNode (hf : f.Consistent) (hi : Inv f m) (hm : Located f m key (.missing upto rest))
    (g : Grants) (value : Ptr) {op : Op K} (hfail : op.failure = .outOfMemory)
    (hspec : spec f (m.value f) op =
      (fun key' => if f.equal key key' then some value else m.value f key', .success null)) :
    Done f m g op (m.addNode f g upto rest key value) := by
  obtain ⟨hsplit, hnone, hl⟩ := hm
  obtain ⟨granted, g', hg⟩ : ∃ granted g', alloc g = (granted, g') := ⟨_, _, rfl⟩
  rw [Map.addNode, hg]
  cases granted with
  | false => exact ⟨hi, .inr ⟨(alloc_mem hg).2 rfl, hfail.symm, rfl⟩⟩
  | true =>
    dsimp only
    constructor
    · have hcount : m.count + 1 = (pairsOf (upto ++
          ⟨makeRegularSoKey (f.hash key), some key, value⟩ :: rest)).length := by
        rw [hi.count, hsplit]
        simp [pairsOf, add_assoc]
      rw [hcount]
      refine hi.setNodes (hl value) (fun n hn _ => ?_) ?_
      · simp only [hsplit, mem_append, mem_cons] at hn ⊢
        tauto
      · obtain ⟨j, hj, hbuckets⟩ := hi.buckets
        split
        · rename_i hgrow
          rw [hbuckets] at hgrow ⊢
          have hlt : j < 31 := (Nat.pow_lt_pow_iff_right (by decide)).mp hgrow.2
          exact ⟨j + 1, hlt, (pow_succ ..).symm⟩
        · exact ⟨j, hj, hbuckets⟩
    · rw [hspec]
      refine .inl (Prod.ext (funext fun key' => ?_) rfl)
      simp only [Map.value, hsplit]
      exact valueIn_cons hf _ hnone (hit_iff.mpr ⟨key, rfl, hf.refl key⟩)

lemma Inv.insert_done (hf : f.Consistent) (hi : Inv f m) (g : Grants) (key : K) (value : Ptr) :
    Done f m g (.insert key value) (insert f m g key value) := by
  refine hi.done_of hf (fun m1 g1 heq => ?_) fun m1 g1 head heq hi1 hloc _ => ?_
  all_goals simp only [Op.key] at heq; rw [LfHashMap.insert, heq]
  · rfl
  dsimp only
  simp only [Op.key] at hloc
  generalize m1.find f head key = r at hloc
  cases r with
  | found upto curr rest => exact ⟨hi1, .inl (by simp only [LfHashMap.spec, value_key hf hloc])⟩
  | missing upto rest =>
    exact hi1.addNode hf hloc g1 value rfl (by simp only [LfHashMap.spec, value_missing hf hloc])

lemma Inv.put_done (hf : f.Consistent) (hi : Inv f m) (g : Grants) (key : K) (value : Ptr) :
    Done f m g (.put key value) (put f m g key value) := by
  refine hi.done_of hf (fun m1 g1 heq => ?_) fun m1 g1 head heq hi1 hloc _ => ?_
  all_goals simp only [Op.key] at heq; rw [put, heq]
  · rfl
  dsimp only
  simp only [Op.key] at hloc
  generalize m1.find f head key = r at hloc
  cases r with
  | found upto curr rest =>
    have hl := hloc.1 ▸ hi1.listed
    obtain ⟨hl', hbefore, hafter⟩ := hl.split
    have hok : NodeOk f { curr with value := value } := hl.ok curr (by simp)
    have hcount : m1.count = (pairsOf (upto ++ { curr with value := value } :: rest)).length := by
      rw [hi1.count, hloc.1]
      obtain ⟨k, hk, -⟩ := hit_iff.mp hloc.2.2
      simp [pairsOf, hk]
    rw [hcount]
    refine ⟨hi1.setNodes (hl'.add hok hbefore hafter) (fun n hn hkey => ?_) hi1.buckets,
      .inl (Prod.ext (funext fun key' => ?_) ?_)⟩
    · have hmem := mem_of_sentinel hloc hn hkey
      simp only [mem_append, mem_cons] at hmem ⊢
      tauto
    · have hnew := valueIn_cons hf key' hloc.2.1 (n := { curr with value := value }) hloc.2.2
      simp only [LfHashMap.spec, value_found hf hloc key']
      rw [Map.value, hnew]
      split <;> rfl
    · simp only [LfHashMap.spec, value_key hf hloc, getD_some]
  | missing upto rest =>
    exact hi1.addNode hf hloc g1 value rfl
      (by simp only [LfHashMap.spec, value_missing hf hloc, getD_none])

lemma Inv.get_done (hf : f.Consistent) (hi : Inv f m) (g : Grants) (key : K) :
    Done f m g (.get key) (get f m g key) := by
  refine hi.done_of hf (fun m1 g1 heq => ?_) fun m1 g1 head heq hi1 hloc hget => ?_
  all_goals simp only [Op.key] at heq; rw [LfHashMap.get, heq]
  · rfl
  dsimp only
  simp only [Op.key] at hloc hget
  rw [hget]
  generalize m1.find f head key = r at hloc
  cases r with
  | found upto curr rest =>
    exact ⟨hi1, .inl (by simp only [Found.value?, LfHashMap.spec, value_key hf hloc])⟩
  | missing upto rest =>
    exact ⟨hi1, .inl (by simp only [Found.value?, LfHashMap.spec, value_missing hf hloc])⟩

lemma Inv.remove_done (hf : f.Consistent) (hi : Inv f m) (g : Grants) (key : K) :
    Done f m g (.remove key) (remove f m g key) := by
  refine hi.done_of hf (fun m1 g1 heq => ?_) fun m1 g1 head heq hi1 hloc _ => ?_
  all_goals simp only [Op.key] at heq; rw [remove, heq]
  · rfl
  dsimp only
  simp only [Op.key] at hloc
  generalize m1.find f head key = r at hloc
  cases r with
  | found upto curr rest =>
    have hcount : m1.count - 1 = (pairsOf (upto ++ rest)).length := by
      rw [hi1.count, hloc.1]
      obtain ⟨k, hk, -⟩ := hit_iff.mp hloc.2.2
      simp [pairsOf, hk]
    rw [hcount]
    refine ⟨hi1.setNodes (hloc.1 ▸ hi1.listed).split.1
      (fun n hn hkey => mem_of_sentinel hloc hn hkey) hi1.buckets, .inl ?_⟩
    simp only [LfHashMap.spec, value_key hf hloc]
    refine Prod.ext (funext fun key' => ?_) rfl
    dsimp only
    rw [value_found hf hloc]
    split
    · rename_i hsame
      exact valueIn_absent hf hloc.2.1 hsame
    · rfl
  | missing upto rest =>
    exact ⟨hi1, .inl (by simp only [LfHashMap.spec, value_missing hf hloc])⟩

lemma Inv.apply_done (hf : f.Consistent) (hi : Inv f m) (g : Grants) (op : Op K) :
    Done f m g op (apply f m g op) := by
  cases op with
  | insert key value => exact hi.insert_done hf g key value
  | put key value => exact hi.put_done hf g key value
  | get key => exact hi.get_done hf g key
  | remove key => exact hi.remove_done hf g key

/-! ## Runs -/

lemma inv_create : Inv f (create : Map K) where
  listed := by
    refine ⟨pairwise_singleton .., fun n hn => ?_⟩
    obtain rfl := mem_singleton.mp hn
    exact Nat.zero_testBit 0
  slots b p hp := by
    rcases slot_setSlot (⟨[⟨0, none, null⟩],
      Function.update (fun _ => none) 0 (some fun _ => none), 0, 4⟩ : Map K) 0 0 b with h | ⟨rfl, h⟩
    · -- the new segment is empty
      have hnone := slot_newSegment (m := (⟨[⟨0, none, null⟩], fun _ => none, 0, 4⟩ : Map K))
        0 (by simp) b
      cases (hnone.symm.trans h.symm).trans hp
    · obtain rfl := Option.some.inj (h.symm.trans hp)
      have hzero : 0 = makeDummySoKey 0 := by decide
      exact ⟨by decide, hzero, ⟨0, none, null⟩, mem_singleton_self _, hzero, rfl⟩
  root := rfl
  buckets := ⟨2, by decide, rfl⟩
  count := rfl

lemma Run.inv (hf : f.Consistent) {ok : Map K → Grants → Op K → Prop} (hr : Run f ok m) :
    Inv f m := by
  induction hr with
  | create => exact inv_create
  | apply _ g op _ ih => exact (ih.apply_done hf g op).inv

/-- The items of a bucket and of the buckets split from it are the items of an interval that
begins with the sentinel. -/
lemma mod_eq_iff_interval (hb : b < 2 ^ 31) (h : BitVec 64) :
    (makeDummySoKey b < makeRegularSoKey h ∧
      makeRegularSoKey h < makeDummySoKey b + 2 ^ (64 - b.size)) ↔ h.toNat % 2 ^ b.size = b := by
  have hsize : b.size ≤ 31 := Nat.size_le.mpr hb
  have hlow : ∀ j, b.size ≤ j → b.testBit j = false := fun j hj =>
    Nat.testBit_lt_two_pow ((Nat.lt_size_self b).trans_le (Nat.pow_le_pow_right (by decide) hj))
  have hmod : makeDummySoKey b % 2 ^ (64 - b.size) = 0 := by
    refine Nat.eq_of_testBit_eq fun i => ?_
    rw [Nat.testBit_mod_two_pow, testBit_makeDummySoKey, Nat.zero_testBit]
    by_cases hi : i < 64 - b.size
    · rw [hlow (63 - i) (by omega), Bool.and_false, Bool.and_false]
    · rw [decide_eq_false hi, Bool.false_and]
  have hne : makeDummySoKey b ≠ makeRegularSoKey h := by
    intro heq
    have hzero := testBit_zero_dummy hb
    rw [heq, testBit_makeRegularSoKey] at hzero
    simp at hzero
  -- both sides say that the highest bits agree
  have hdiv : (makeDummySoKey b < makeRegularSoKey h ∧
      makeRegularSoKey h < makeDummySoKey b + 2 ^ (64 - b.size)) ↔
      makeRegularSoKey h / 2 ^ (64 - b.size) = makeDummySoKey b / 2 ^ (64 - b.size) := by
    have hd := Nat.div_add_mod (makeDummySoKey b) (2 ^ (64 - b.size))
    rw [hmod, add_zero, mul_comm] at hd
    rw [Nat.div_eq_iff (Nat.two_pow_pos _), hd]
    omega
  have hbits : ∀ j < b.size, (makeRegularSoKey h).testBit (63 - j) = h.toNat.testBit j ∧
      (makeDummySoKey b).testBit (63 - j) = b.testBit j := by
    intro j hj
    rw [testBit_makeRegularSoKey, testBit_makeDummySoKey, show 63 - (63 - j) = j by omega]
    simp [show 63 - j < 64 by omega, show 63 - j ≠ 0 by omega, testBit_toNat]
  rw [hdiv]
  constructor <;> intro heq <;> refine Nat.eq_of_testBit_eq fun i => ?_
  · rw [Nat.testBit_mod_two_pow]
    by_cases hi : i < b.size
    · have hbit := congrArg (Nat.testBit · (b.size - 1 - i)) heq
      simp only [Nat.testBit_div_two_pow,
        show b.size - 1 - i + (64 - b.size) = 63 - i by omega, hbits i hi] at hbit
      rw [hbit, decide_eq_true hi, Bool.true_and]
    · rw [hlow i (by omega), decide_eq_false hi, Bool.false_and]
  · rw [Nat.testBit_div_two_pow, Nat.testBit_div_two_pow]
    by_cases hi : i < b.size
    · obtain ⟨hreg, hdummy⟩ := hbits (b.size - 1 - i) (by omega)
      rw [show i + (64 - b.size) = 63 - (b.size - 1 - i) by omega, hreg, hdummy]
      have hbit := congrArg (Nat.testBit · (b.size - 1 - i)) heq
      simpa [Nat.testBit_mod_two_pow, show b.size - 1 - i < b.size by omega] using hbit
    · rw [testBit_makeRegularSoKey, testBit_makeDummySoKey,
        decide_eq_false (show ¬ i + (64 - b.size) < 64 by omega), Bool.false_and, Bool.false_and]

/-- In every run without failed allocations the map is a finite map of the size it says;
the list is in so_key order, and behind the sentinel of every bucket that is in use come the
items of the bucket and of those split from it. -/
theorem run_refines (hf : f.Consistent) (hr : Run f (fun _ g _ => false ∉ g) m) :
    (∀ key, (create : Map K).value f key = none) ∧ (∀ g op, false ∉ g →
      ((apply f m g op).1.value f, (apply f m g op).2) = spec f (m.value f) op) ∧
    m.count = (pairsOf m.nodes).length ∧ m.nodes.Pairwise (Before f) ∧
    ∀ b p, m.slot b = some p → p = makeDummySoKey b ∧ HasSentinel m.nodes b ∧
      ∀ n ∈ m.nodes, ∀ k, n.key = some k →
        (p < n.soKey ∧ n.soKey < p + 2 ^ (64 - b.size) ↔ (f.hash k).toNat % 2 ^ b.size = b) := by
  have hi := hr.inv hf
  refine ⟨fun key => rfl, fun g op hg => ?_, hi.count, hi.listed.sorted, fun b p hp => ?_⟩
  · exact (hi.apply_done hf g op).spec.resolve_right fun hfail => hg hfail.1
  · obtain ⟨hb, rfl, hsentinel⟩ := hi.slots b p hp
    refine ⟨rfl, hsentinel, fun n hn k hk => ?_⟩
    have hok := hi.listed.ok n hn
    simp only [NodeOk, hk] at hok
    rw [hok]
    exact mod_eq_iff_interval hb _

/-- Numbers as keys. -/
def numbers : Hashing Nat := ⟨BitVec.ofNat 64, fun a b => a == b⟩

lemma numbers_consistent : numbers.Consistent where
  refl := beq_self_eq_true
  symm _ _ h := beq_iff_eq.mpr (beq_iff_eq.mp h).symm
  trans _ _ _ h h' := beq_iff_eq.mpr ((beq_iff_eq.mp h).trans (beq_iff_eq.mp h'))
  hash _ _ h := congrArg _ (beq_iff_eq.mp h)

/-- Four items double the buckets. -/
def doubled : Map Nat := [(4, 14), (1, 11), (2, 12), (3, 13)].foldl
  (fun m e => (apply numbers m [] (.insert e.1 e.2)).1) create

lemma run_doubled {ok : Map Nat → Grants → Op Nat → Prop} (hok : ∀ m op, ok m [] op) :
    Run numbers ok doubled :=
  (((Run.create.apply [] (.insert 4 14) (hok _ _)).apply [] (.insert 1 11) (hok _ _)).apply []
    (.insert 2 12) (hok _ _)).apply [] (.insert 3 13) (hok _ _)

/-- A get of key 4 splits bucket 0; the key can be removed from its new bucket. -/
theorem run_refines_split : ∃ m, Run numbers (fun _ g _ => false ∉ g) m ∧ m.bucketCount = 8 ∧
    m.slot 4 = some (makeDummySoKey 4) ∧ m.value numbers 4 = some 14 ∧
    ((apply numbers m [] (.remove 4)).1.value numbers, (apply numbers m [] (.remove 4)).2) =
      spec numbers (m.value numbers) (.remove 4) ∧
    m.count = (pairsOf m.nodes).length ∧ HasSentinel m.nodes 4 := by
  have hr : Run numbers (fun _ g _ => false ∉ g) (apply numbers doubled [] (.get 4)).1 :=
    (run_doubled fun _ _ => by simp).apply [] (.get 4) (by simp)
  have hslot : (apply numbers doubled [] (.get 4)).1.slot 4 = some (makeDummySoKey 4) := by
    decide +kernel
  obtain ⟨-, hspec, hcount, -, hslots⟩ := run_refines numbers_consistent hr
  exact ⟨_, hr, by decide +kernel, hslot, by decide +kernel, hspec [] (.remove 4) (by simp), hcount,
    (hslots 4 _ hslot).2.1⟩

/-! ## Without memory -/

/-- A key that is not found is not there, and without memory the items stay. -/
def Honest (f : Hashing K) (m : Map K) (g : Grants) : Op K → Prop
  | .get key => (get f m g key).2 = .notFound → m.value f key = none
  | .remove key => (remove f m g key).2 = .notFound → m.value f key = none
  | .insert key value => (insert f m g key value).2 = .outOfMemory →
      pairsOf (insert f m g key value).1.nodes = pairsOf m.nodes
  | .put key value => (put f m g key value).2 = .outOfMemory →
      pairsOf (put f m g key value).1.nodes = pairsOf m.nodes

/-- No allocation fails in a get or remove of a key that is there. -/
def Fine (f : Hashing K) (m : Map K) (g : Grants) : Op K → Prop
  | .get key | .remove key => m.value f key = none ∨ false ∉ g
  | _ => True

/-- After every run, whatever allocations failed in it, a call is honest if it is fine. -/
theorem honest_of_fine (hf : f.Consistent) (hr : Run f (fun _ _ _ => True) m) (g : Grants)
    (op : Op K) (hok : Fine f m g op) : Honest f m g op := by
  have hdone := ((hr.inv hf).apply_done hf g op).spec
  cases op with
  | insert key value =>
    intro hres
    refine (hdone.resolve_left fun hspec => ?_).2.2
    have := (congrArg Prod.snd hspec).symm.trans hres
    simp only [spec] at this
    split at this <;> cases this
  | put key value =>
    intro hres
    refine (hdone.resolve_left fun hspec => ?_).2.2
    have := (congrArg Prod.snd hspec).symm.trans hres
    cases this
  | get key | remove key =>
    intro hres
    refine hok.elim id fun hg => ?_
    have := (congrArg Prod.snd (hdone.resolve_right fun hfail => hg hfail.1)).symm.trans hres
    simp only [spec] at this
    split at this
    · cases this
    · assumption

/-- After an insert that had no memory, another one has none, and a get finds what is there. -/
theorem honest_of_fine_doubled : ∃ m, Run numbers (fun _ _ _ => True) m ∧
    m.value numbers 4 = some 14 ∧ (insert numbers m [false] 12 5).2 = .outOfMemory ∧
    Honest numbers m [false] (.insert 12 5) ∧ Honest numbers m [] (.get 4) := by
  have hr : Run numbers (fun _ _ _ => True) (apply numbers doubled [false] (.insert 12 5)).1 :=
    (run_doubled fun _ _ => trivial).apply [false] (.insert 12 5) trivial
  exact ⟨_, hr, by decide +kernel, by decide +kernel,
    honest_of_fine numbers_consistent hr [false] (.insert 12 5) trivial,
    honest_of_fine numbers_consistent hr [] (.get 4) (.inr (by simp))⟩

/-- The bucket of key 4 is another one after the doubling, and its segment cannot be made. -/
theorem notFound_without_memory : ∃ m, Run numbers (fun _ g _ => false ∉ g) m ∧
    m.value numbers 4 = some 14 ∧ (get numbers m [false] 4).2 = .notFound ∧
    (remove numbers m [false] 4).2 = .notFound ∧ ¬ Honest numbers m [false] (.get 4) ∧
    ¬ Honest numbers m [false] (.remove 4) := by
  have hvalue : doubled.value numbers 4 = some 14 := by decide +kernel
  have hget : (get numbers doubled [false] 4).2 = .notFound := by decide +kernel
  have hremove : (remove numbers doubled [false] 4).2 = .notFound := by decide +kernel
  refine ⟨doubled, run_doubled fun _ _ => by simp, hvalue, hget, hremove, fun h => ?_, fun h => ?_⟩
  · cases hvalue.symm.trans (h hget)
  · cases hvalue.symm.trans (h hremove)

end Cobalt.Container.LfHashMap
