/-
Cobalt.Memory.PoolTheorems — the free list of a region of blocks.

The addresses on the free list and the live blocks are together the addresses
of the region, each of them once. The list is kept in the first bytes of the
free blocks, and blocks at different addresses do not overlap; so neither the
clearing of a block that is handed out, nor the pointer put into a block that
comes back, nor what a client writes to the blocks it holds touches the rest of
the list. A pointer below the region has a wrapped offset, which is larger than
the region.
-/
import Cobalt.Memory.Pool

namespace Cobalt.Memory

open List Blocks

namespace Blocks

variable {c : Blocks} {m m' : ByteMem} {a b ptr i j : Nat}

/-! ## Addresses of blocks -/

/-- The region is in the address space and its blocks can hold a pointer. -/
structure Placed (c : Blocks) : Prop where
  size : ptrSize ≤ c.blockSize
  count : 0 < c.blockCount
  memory : 0 < c.memory
  stop_le : c.region.stop ≤ 2 ^ 64

lemma mem_addrs : a ∈ c.addrs ↔ ∃ i < c.blockCount, c.addr i = a := by
  simp [addrs]

lemma block_within (h : a ∈ c.addrs) : Region.Within (c.block a) c.region := by
  obtain ⟨i, hi, rfl⟩ := mem_addrs.mp h
  have hle : (i + 1) * c.blockSize ≤ c.blockCount * c.blockSize := Nat.mul_le_mul_right _ hi
  have hsucc : (i + 1) * c.blockSize = i * c.blockSize + c.blockSize := Nat.succ_mul _ _
  have hcomm : c.blockCount * c.blockSize = c.blockSize * c.blockCount := mul_comm _ _
  refine ⟨?_, ?_⟩
  · change c.memory ≤ c.memory + i * c.blockSize
    omega
  · change c.memory + i * c.blockSize + c.blockSize ≤ c.memory + c.blockSize * c.blockCount
    omega

lemma block_apart (ha : a ∈ c.addrs) (hb : b ∈ c.addrs) (hne : a ≠ b) :
    Region.Apart (c.block a) (c.block b) := by
  obtain ⟨i, -, rfl⟩ := mem_addrs.mp ha
  obtain ⟨j, -, rfl⟩ := mem_addrs.mp hb
  have hij : i ≠ j := fun h => hne (by rw [h])
  have key : ∀ i j, i < j → c.addr i + c.blockSize ≤ c.addr j := by
    intro i j hlt
    have hle : (i + 1) * c.blockSize ≤ j * c.blockSize := Nat.mul_le_mul_right _ hlt
    rw [Nat.succ_mul] at hle
    unfold addr
    omega
  rcases Nat.lt_or_gt_of_ne hij with hlt | hlt
  · exact .inl (key i j hlt)
  · exact .inr (key j i hlt)

namespace Placed

lemma size_pos (h : Placed c) : 0 < c.blockSize := by
  have := h.size
  unfold ptrSize at this
  omega

lemma addr_ne_zero (h : Placed c) (ha : a ∈ c.addrs) : a ≠ 0 := by
  have hlo : c.memory ≤ a := (block_within ha).1
  have := h.memory
  omega

lemma addr_lt (h : Placed c) (ha : a ∈ c.addrs) : a < 2 ^ 64 := by
  have hhi : a + c.blockSize ≤ c.region.stop := (block_within ha).2
  have := h.stop_le
  have := h.size_pos
  omega

lemma nodup_addrs (h : Placed c) : c.addrs.Nodup := by
  refine List.Nodup.map (fun i j hij => ?_) nodup_range
  exact Nat.eq_of_mul_eq_mul_right h.size_pos (Nat.add_left_cancel hij)

/-- The tests of the free functions find exactly the blocks. -/
lemma owns_iff (h : Placed c) (hptr : ptr < 2 ^ 64) : c.owns ptr = true ↔ ptr ∈ c.addrs := by
  have hstop : c.memory + c.blockSize * c.blockCount ≤ 2 ^ 64 := h.stop_le
  have hmemory := h.memory
  have hmod : c.blockSize * c.blockCount % 2 ^ 64 = c.blockSize * c.blockCount :=
    Nat.mod_eq_of_lt (by omega)
  rw [owns, Bool.and_eq_true, decide_eq_true_iff, beq_iff_eq, hmod]
  by_cases hle : c.memory ≤ ptr
  · have hoff : c.offset ptr = ptr - c.memory := by
      unfold offset
      rw [show ptr + (2 ^ 64 - c.memory) = (ptr - c.memory) + 2 ^ 64 by omega, Nat.add_mod_right,
        Nat.mod_eq_of_lt (by omega)]
    rw [hoff, mem_addrs]
    constructor
    · rintro ⟨hlt, hdvd⟩
      obtain ⟨i, hi⟩ := Nat.dvd_of_mod_eq_zero hdvd
      refine ⟨i, Nat.lt_of_mul_lt_mul_left (hi ▸ hlt), ?_⟩
      unfold addr
      rw [mul_comm i, ← hi]
      omega
    · rintro ⟨i, hi, rfl⟩
      have hsub : c.addr i - c.memory = c.blockSize * i := by
        rw [addr, Nat.add_sub_cancel_left, mul_comm]
      rw [hsub]
      exact ⟨Nat.mul_lt_mul_of_pos_left hi h.size_pos, Nat.mul_mod_right _ _⟩
  · -- the offset of a pointer below the region wraps
    have hoff : c.offset ptr = ptr + (2 ^ 64 - c.memory) := Nat.mod_eq_of_lt (by omega)
    rw [hoff]
    constructor
    · rintro ⟨hlt, -⟩
      omega
    · intro hmem
      exact absurd (block_within hmem).1 hle

end Placed

/-! ## The free list -/

/-- The free list and the live blocks are together the blocks of the region. -/
structure Kept (m : ByteMem) (c : Blocks) : Prop extends Placed c where
  free : ∃ fl, m.Chain c.freeList fl ∧ fl.length = c.freeCount ∧ (fl ++ c.live).Perm c.addrs

/-- What the counters and the live blocks of a region say at any time. -/
structure Sound (c : Blocks) : Prop where
  distinct : c.live.Nodup
  whole : ∀ b ∈ c.live, b ∈ c.addrs
  count : c.freeCount + c.live.length = c.blockCount

namespace Kept

variable (h : Kept m c)

include h

lemma split : ∃ fl, m.Chain c.freeList fl ∧ fl.length = c.freeCount ∧
    (fl ++ c.live).Perm c.addrs ∧ fl.Nodup ∧ c.live.Nodup ∧ fl.Disjoint c.live := by
  obtain ⟨fl, hchain, hlen, hperm⟩ := h.free
  have hnodup := hperm.nodup_iff.mpr h.nodup_addrs
  obtain ⟨hfl, hlive, hdisj⟩ := nodup_append'.mp hnodup
  exact ⟨fl, hchain, hlen, hperm, hfl, hlive, hdisj⟩

lemma sound : Sound c := by
  obtain ⟨fl, -, hlen, hperm, -, hlive, -⟩ := h.split
  refine ⟨hlive, fun b hb => hperm.subset (mem_append_right _ hb), ?_⟩
  have := hperm.length_eq
  rw [length_append, addrs, length_map, length_range] at this
  omega

lemma congr (hsame : ∀ a ∈ c.addrs, a ∉ c.live → ∀ x, a ≤ x → x < a + c.blockSize → m' x = m x) :
    Kept m' c := by
  obtain ⟨fl, hchain, hlen, hperm, -, -, hdisj⟩ := h.split
  refine ⟨h.toPlaced, fl, hchain.congr fun a ha j hj => ?_, hlen, hperm⟩
  refine hsame a (hperm.subset (mem_append_left _ ha)) (fun hl => hdisj ha hl) _
    (Nat.le_add_right _ _) ?_
  have := h.size
  unfold ptrSize at this
  omega

lemma freeList_mem (hfree : c.freeCount ≠ 0) : c.freeList ∈ c.addrs ∧ c.freeList ∉ c.live := by
  obtain ⟨fl, hchain, hlen, hperm, -, -, hdisj⟩ := h.split
  cases fl with
  | nil => exact absurd hlen.symm hfree
  | cons a fl =>
    obtain ⟨rfl, -⟩ := hchain
    exact ⟨hperm.subset (by simp), fun hl => hdisj (by simp) hl⟩

lemma freeCount_eq_zero_iff : c.freeCount = 0 ↔ ∀ b ∈ c.addrs, b ∈ c.live := by
  constructor
  · intro hzero b hb
    obtain ⟨fl, -, hlen, hperm⟩ := h.free
    have hnil : fl = [] := eq_nil_of_length_eq_zero (hlen.trans hzero)
    rw [hnil, nil_append] at hperm
    exact hperm.symm.subset hb
  · intro hall
    by_contra hne
    obtain ⟨hmem, hfree⟩ := h.freeList_mem hne
    exact hfree (hall _ hmem)

lemma freeList_lt : c.freeList < 2 ^ 64 := by
  obtain ⟨fl, hchain, -, hperm⟩ := h.free
  cases fl with
  | nil =>
    have hnull : c.freeList = 0 := hchain
    omega
  | cons a fl =>
    obtain ⟨rfl, -⟩ := hchain
    exact h.addr_lt (hperm.subset (by simp))

lemma pop (hfree : c.freeCount ≠ 0) : Kept (m.clear c.freeList c.blockSize) (c.pop m) := by
  obtain ⟨fl, hchain, hlen, hperm, hfl, -, -⟩ := h.split
  cases fl with
  | nil => exact absurd hlen.symm hfree
  | cons a fl =>
    obtain ⟨hhead, hrest⟩ := hchain
    have hin : ∀ b ∈ a :: fl, b ∈ c.addrs := fun b hb => hperm.subset (mem_append_left _ hb)
    refine ⟨⟨h.size, h.count, h.memory, h.stop_le⟩, fl, ?_, ?_, ?_⟩
    · change ByteMem.Chain _ (m.loadPtr c.freeList) fl
      rw [hhead]
      refine hrest.congr fun b hb j hj => ByteMem.clear_of_apart ?_
      -- the other free blocks are apart from the one that is cleared
      have hne : b ≠ a := fun heq => (nodup_cons.mp hfl).1 (heq ▸ hb)
      have hapart := block_apart (hin b (by simp [hb])) (hin a (by simp)) hne
      have := h.size
      unfold ptrSize at this
      refine hapart.within ⟨Nat.le_add_right _ _, ?_⟩ ⟨le_refl _, le_refl _⟩
      change b + j + 1 ≤ b + c.blockSize
      omega
    · change fl.length = c.freeCount - 1
      rw [← hlen, length_cons, Nat.add_sub_cancel]
    · change (fl ++ c.freeList :: c.live).Perm c.addrs
      rw [hhead]
      exact perm_middle.trans hperm

lemma push (hptr : ptr ∈ c.live) : Kept (m.storePtr ptr c.freeList) (c.push ptr) := by
  obtain ⟨fl, hchain, hlen, hperm, -, -, hdisj⟩ := h.split
  have hin : ∀ b ∈ fl ++ c.live, b ∈ c.addrs := fun b hb => hperm.subset hb
  refine ⟨⟨h.size, h.count, h.memory, h.stop_le⟩, ptr :: fl, ?_, ?_, ?_⟩
  · refine hchain.push h.freeList_lt fun b hb => ?_
    have hne : b ≠ ptr := fun heq => hdisj hb (heq ▸ hptr)
    have hapart := block_apart (hin b (by simp [hb])) (hin ptr (by simp [hptr])) hne
    have hle : ∀ a, Region.Within ⟨a, 8⟩ (c.block a) :=
      fun a => ⟨le_refl _, Nat.add_le_add_left h.size a⟩
    exact hapart.within (hle b) (hle ptr)
  · change fl.length + 1 = c.freeCount + 1
    rw [hlen]
  · change (ptr :: (fl ++ c.live.erase ptr)).Perm c.addrs
    refine List.Perm.trans ?_ hperm
    exact perm_middle.symm.trans ((perm_cons_erase hptr).symm.append_left fl)

end Kept

/-! ## A new region -/

/-- A pointer stored into one block leaves the pointer in another one. -/
lemma loadPtr_other (h : Placed c) (hi : i < c.blockCount) (hj : j < c.blockCount) (hne : i ≠ j)
    (p : Nat) : (m.storePtr (c.addr j) p).loadPtr (c.addr i) = m.loadPtr (c.addr i) := by
  have hmem : ∀ k < c.blockCount, c.addr k ∈ c.addrs := fun k hk => mem_addrs.mpr ⟨k, hk, rfl⟩
  have haddr : c.addr i ≠ c.addr j := fun heq =>
    hne (Nat.eq_of_mul_eq_mul_right h.size_pos (Nat.add_left_cancel heq))
  have hapart := block_apart (hmem i hi) (hmem j hj) haddr
  have hsize := h.size
  unfold ptrSize at hsize
  refine ByteMem.loadBytes_congr fun k hk => ByteMem.storePtr_of_apart ?_
  refine hapart.within ⟨Nat.le_add_right _ _, ?_⟩ ⟨le_refl _, Nat.add_le_add_left hsize _⟩
  change c.addr i + k + 1 ≤ c.addr i + c.blockSize
  omega

/-- After `n` rounds of the loop the first `n` blocks point to their successors. -/
lemma loadPtr_links (h : Placed c) (n : Nat) (hn : n < c.blockCount) (hi : i < n) :
    ((List.range n).foldl (fun m i => m.storePtr (c.addr i) (c.addr (i + 1))) m).loadPtr (c.addr i)
      = c.addr (i + 1) := by
  induction n with
  | zero => omega
  | succ n ih =>
    rw [range_succ, foldl_append, foldl_cons, foldl_nil]
    rcases Nat.lt_succ_iff_lt_or_eq.mp hi with hlt | rfl
    · rw [loadPtr_other h (by omega) (by omega) (by omega)]
      exact ih (by omega) hlt
    · exact ByteMem.loadPtr_storePtr (h.addr_lt (mem_addrs.mpr ⟨_, hn, rfl⟩))

lemma chain_addrs (n : Nat) (hn : i + n + 1 = c.blockCount)
    (hlinks : ∀ j, j + 1 < c.blockCount → m.loadPtr (c.addr j) = c.addr (j + 1))
    (hlast : m.loadPtr (c.addr (c.blockCount - 1)) = 0) :
    m.Chain (c.addr i) ((List.range' i (n + 1)).map c.addr) := by
  induction n generalizing i with
  | zero =>
    refine ⟨rfl, ?_⟩
    change m.loadPtr (c.addr i) = 0
    rw [show i = c.blockCount - 1 by omega, hlast]
  | succ n ih =>
    refine ⟨rfl, ?_⟩
    rw [hlinks i (by omega)]
    exact ih (by omega)

lemma kept_link (size count memory : Nat) (h : Placed (unused size count memory)) :
    Kept ((unused size count memory).link m) (unused size count memory) := by
  have hcount : 0 < count := h.count
  refine ⟨h, (unused size count memory).addrs, ?_, ?_, ?_⟩
  · have hlinks : ∀ j, j + 1 < count → ((unused size count memory).link m).loadPtr
        ((unused size count memory).addr j) = (unused size count memory).addr (j + 1) := by
      intro j hj
      have hother : j ≠ count - 1 := by omega
      rw [link, loadPtr_other h (Nat.lt_of_succ_lt hj) (Nat.sub_one_lt_of_lt hcount) hother]
      exact loadPtr_links h (count - 1) (Nat.sub_one_lt_of_lt hcount) (by omega)
    have hrange : (unused size count memory).addrs
        = (List.range' 0 (count - 1 + 1)).map (unused size count memory).addr := by
      rw [Nat.sub_add_cancel hcount, ← range_eq_range']
      rfl
    have hstart : (unused size count memory).freeList = (unused size count memory).addr 0 := by
      simp [addr, unused]
    rw [hrange, hstart]
    refine chain_addrs (count - 1) ?_ hlinks (ByteMem.loadPtr_storePtr (by omega))
    change 0 + (count - 1) + 1 = count
    omega
  · change ((List.range count).map _).length = count
    rw [length_map, length_range]
  · exact List.Perm.of_eq (append_nil _)

lemma ptrSize_le_sizeFor (size : Nat) : ptrSize ≤ sizeFor size := by
  unfold sizeFor
  split <;> omega

/-! ## What the operations have to do -/

/-- An address of the region. -/
def Inside (c : Blocks) (x : Nat) : Prop := c.memory ≤ x ∧ x < c.region.stop

/-- What may be freed: a live block, null, a pointer outside all regions, or one that is inside a
region but not at a block boundary. -/
def Freeable (cs : List Blocks) (ptr : Nat) : Prop :=
  ptr < 2 ^ 64 ∧ ((∃ c ∈ cs, ptr ∈ c.live) ∨ ptr = 0 ∨ (∀ c ∈ cs, ¬ c.Inside ptr) ∨
    ∃ c ∈ cs, c.Inside ptr ∧ (ptr - c.memory) % c.blockSize ≠ 0)

instance (c : Blocks) (x : Nat) : Decidable (c.Inside x) := inferInstanceAs (Decidable (_ ∧ _))

instance (cs : List Blocks) (ptr : Nat) : Decidable (Freeable cs ptr) :=
  inferInstanceAs (Decidable (_ ∧ (_ ∨ _ ∨ _ ∨ _)))

/-- What a client may write to: the bytes of live blocks. -/
def Writable (cs : List Blocks) (x : Nat) : Prop :=
  ∃ c ∈ cs, ∃ b ∈ c.live, b ≤ x ∧ x < b + c.blockSize

instance (cs : List Blocks) (x : Nat) : Decidable (Writable cs x) :=
  inferInstanceAs (Decidable (∃ c ∈ cs, ∃ b ∈ c.live, b ≤ x ∧ x < b + c.blockSize))

/-- The answer `r` to a request that the region `c` serves: null if all its blocks are live, and
else the address of a block that was not live, which holds zeros and is live from now on. -/
structure Served (m : ByteMem) (c : Blocks) (r : Nat) (m' : ByteMem) (c' : Blocks) : Prop where
  null_iff : r = 0 ↔ ∀ b ∈ c.addrs, b ∈ c.live
  unchanged : r = 0 → m' = m ∧ c' = c
  block : r ≠ 0 → r ∈ c.addrs ∧ r ∉ c.live ∧ c'.live = r :: c.live ∧ ∀ j < c.blockSize, m' (r + j) = 0

/-- Two states of one region. -/
structure Alike (c c' : Blocks) : Prop where
  blockSize : c'.blockSize = c.blockSize
  blockCount : c'.blockCount = c.blockCount
  memory : c'.memory = c.memory

lemma Alike.refl (c : Blocks) : Alike c c := ⟨rfl, rfl, rfl⟩

lemma Alike.trans {c c' c'' : Blocks} (h : Alike c c') (h' : Alike c' c'') : Alike c c'' :=
  ⟨h'.blockSize.trans h.blockSize, h'.blockCount.trans h.blockCount, h'.memory.trans h.memory⟩

lemma Alike.region_eq {c c' : Blocks} (h : Alike c c') : c'.region = c.region := by
  unfold region
  rw [h.memory, h.blockSize, h.blockCount]

lemma inside_of_mem (ha : a ∈ c.addrs) {x : Nat} (hle : a ≤ x) (hlt : x < a + c.blockSize) :
    c.Inside x := by
  have hwithin := block_within ha
  refine ⟨le_trans hwithin.1 hle, lt_of_lt_of_le hlt hwithin.2⟩

/-- A block boundary inside a region is a block. -/
lemma mod_of_mem_addrs (ha : a ∈ c.addrs) : (a - c.memory) % c.blockSize = 0 := by
  obtain ⟨i, -, rfl⟩ := mem_addrs.mp ha
  rw [addr, Nat.add_sub_cancel_left, Nat.mul_mod_left]

lemma Kept.served_null (h : Kept m c) (hfree : c.freeCount = 0) : Served m c 0 m c where
  null_iff := iff_of_true rfl (h.freeCount_eq_zero_iff.mp hfree)
  unchanged _ := ⟨rfl, rfl⟩
  block hne := absurd rfl hne

lemma Kept.served (h : Kept m c) (hfree : c.freeCount ≠ 0) :
    Served m c c.freeList (m.clear c.freeList c.blockSize) (c.pop m) := by
  obtain ⟨hmem, hlive⟩ := h.freeList_mem hfree
  have hne := h.addr_ne_zero hmem
  refine ⟨iff_of_false hne ?_, fun hnull => absurd hnull hne, fun _ => ⟨hmem, hlive, rfl, ?_⟩⟩
  · exact fun hall => hlive (hall _ hmem)
  · exact fun j hj => ByteMem.clear_self (Nat.le_add_right _ _) (Nat.add_lt_add_left hj _)

/-- A client writes to a live block of the region, or outside the region. -/
lemma Kept.write (h : Kept m c) {x : Nat} (y : UInt8)
    (hx : (∃ b ∈ c.live, b ≤ x ∧ x < b + c.blockSize) ∨ ¬ c.Inside x) :
    Kept (Function.update m x y) c := by
  refine h.congr fun a ha hfree z hle hlt => ?_
  have hne : z ≠ x := by
    rintro rfl
    rcases hx with ⟨b, hb, hb1, hb2⟩ | hout
    · have hab : a ≠ b := fun heq => hfree (heq ▸ hb)
      have hapart := block_apart ha (h.sound.whole b hb) hab
      rcases hapart with hap | hap <;> simp only [Region.stop, block] at hap <;> omega
    · exact hout (inside_of_mem ha hle hlt)
  exact Function.update_of_ne hne _ _

/-- A change of the memory outside the region. -/
lemma Kept.frame (h : Kept m c) (hsame : ∀ x, c.Inside x → m' x = m x) : Kept m' c :=
  h.congr fun _ ha _ x hle hlt => hsame x (inside_of_mem ha hle hlt)

end Blocks

namespace Pool

variable {s : State} {ptr : Nat}

/-- The calls that a client may make. -/
def Legal (s : State) : Call → Prop
  | .alloc => True
  | .free ptr => Blocks.Freeable [s.pool] ptr
  | .write a _ => Blocks.Writable [s.pool] a

instance (s : State) : (call : Call) → Decidable (Legal s call)
  | .alloc => inferInstanceAs (Decidable True)
  | .free ptr => inferInstanceAs (Decidable (Blocks.Freeable [s.pool] ptr))
  | .write a _ => inferInstanceAs (Decidable (Blocks.Writable [s.pool] a))

/-- What a call has to do. -/
def Right (s : State) : Call → Prop
  | .alloc => s.pool.Served s.mem (alloc s).1 (alloc s).2.mem (alloc s).2.pool
  | .free ptr => (ptr ∈ s.pool.live → (free s ptr).pool.live = s.pool.live.erase ptr) ∧
      (ptr ∉ s.pool.addrs → free s ptr = s)
  | .write _ _ => True

/-- All calls are legal. -/
def LegalRun (s : State) : List Call → Prop
  | [] => True
  | call :: calls => Legal s call ∧ LegalRun (step s call) calls

instance decidableLegalRun (s : State) : (calls : List Call) → Decidable (LegalRun s calls)
  | [] => inferInstanceAs (Decidable True)
  | call :: calls => @instDecidableAnd _ _ _ (decidableLegalRun (step s call) calls)

/-- Every state is sound, and every call does what it has to. -/
def RightRun (pool : Blocks) (s : State) : List Call → Prop
  | [] => s.pool.Sound ∧ pool.Alike s.pool
  | call :: calls => (s.pool.Sound ∧ pool.Alike s.pool) ∧ Right s call ∧
      RightRun pool (step s call) calls

lemma live_of_freeable (hptr : Blocks.Freeable [s.pool] ptr) (hkept : s.pool.Kept s.mem)
    (hmem : ptr ∈ s.pool.addrs) : ptr ∈ s.pool.live := by
  obtain ⟨-, ⟨c, hc, hlive⟩ | rfl | hout | ⟨c, hc, -, hmod⟩⟩ := hptr
  · rwa [mem_singleton.mp hc] at hlive
  · exact absurd rfl (hkept.addr_ne_zero hmem)
  · refine absurd (inside_of_mem hmem (le_refl _) ?_) (hout _ (by simp))
    exact Nat.lt_add_of_pos_right hkept.size_pos
  · rw [mem_singleton.mp hc] at hmod
    exact absurd (mod_of_mem_addrs hmem) hmod

lemma free_of_not_mem (hkept : s.pool.Placed) (hptr : ptr < 2 ^ 64) (hmem : ptr ∉ s.pool.addrs) :
    free s ptr = s := by
  unfold free
  rw [if_neg (fun h => hmem ((hkept.owns_iff hptr).mp h)), ite_self]

lemma free_of_mem (hkept : s.pool.Placed) (hmem : ptr ∈ s.pool.addrs) :
    free s ptr = ⟨s.mem.storePtr ptr s.pool.freeList, s.pool.push ptr⟩ := by
  unfold free
  rw [if_neg (hkept.addr_ne_zero hmem), if_pos ((hkept.owns_iff (hkept.addr_lt hmem)).mpr hmem)]

lemma right_step (hkept : s.pool.Kept s.mem) (call : Call) (hlegal : Legal s call) :
    Right s call ∧ (step s call).pool.Kept (step s call).mem ∧ s.pool.Alike (step s call).pool := by
  cases call with
  | alloc =>
    by_cases hfree : s.pool.freeCount = 0
    · have halloc : alloc s = (0, s) := if_pos hfree
      simp only [Right, step, halloc]
      exact ⟨hkept.served_null hfree, hkept, .refl _⟩
    · have halloc : alloc s = (s.pool.freeList,
          ⟨s.mem.clear s.pool.freeList s.pool.blockSize, s.pool.pop s.mem⟩) := if_neg hfree
      simp only [Right, step, halloc]
      exact ⟨hkept.served hfree, hkept.pop hfree, rfl, rfl, rfl⟩
  | free ptr =>
    have hptr : ptr < 2 ^ 64 := hlegal.1
    by_cases hmem : ptr ∈ s.pool.addrs
    · have hlive := live_of_freeable hlegal hkept hmem
      simp only [Right, step, free_of_mem hkept.toPlaced hmem]
      exact ⟨⟨fun _ => rfl, fun h => absurd hmem h⟩, hkept.push hlive, rfl, rfl, rfl⟩
    · have hsame := free_of_not_mem hkept.toPlaced hptr hmem
      have hlive : ptr ∉ s.pool.live := fun h => hmem (hkept.sound.whole _ h)
      refine ⟨⟨fun h => absurd h hlive, fun _ => hsame⟩, ?_⟩
      rw [step, hsame]
      exact ⟨hkept, .refl _⟩
  | write a x =>
    obtain ⟨c, hc, hb⟩ := hlegal
    rw [mem_singleton.mp hc] at hb
    exact ⟨trivial, hkept.write x (.inl hb), .refl _⟩

lemma right_run {pool : Blocks} (calls : List Call) (hkept : s.pool.Kept s.mem)
    (halike : pool.Alike s.pool) (hlegal : LegalRun s calls) : RightRun pool s calls := by
  induction calls generalizing s with
  | nil => exact ⟨hkept.sound, halike⟩
  | cons call calls ih =>
    obtain ⟨hright, hkept', halike'⟩ := right_step hkept call hlegal.1
    exact ⟨⟨hkept.sound, halike⟩, hright, ih hkept' (halike.trans halike') hlegal.2⟩

lemma kept_create {mem : ByteMem} {blockSize blockCount memory : Nat}
    (hcreate : create mem blockSize blockCount memory = some s) (hmemory : 0 < memory)
    (hstop : memory + sizeFor blockSize * blockCount ≤ 2 ^ 64) :
    s.pool = .unused (sizeFor blockSize) blockCount memory ∧ s.pool.Kept s.mem := by
  unfold create at hcreate
  split at hcreate
  · exact absurd hcreate (by simp)
  · next hargs =>
    obtain rfl := Option.some.inj hcreate
    refine ⟨rfl, kept_link _ _ _ ⟨ptrSize_le_sizeFor _, ?_, hmemory, hstop⟩⟩
    change 0 < blockCount
    omega

end Pool

end Cobalt.Memory
