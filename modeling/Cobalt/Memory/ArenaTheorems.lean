/-
Cobalt.Memory.ArenaTheorems — when the blocks of an arena are memory of its own.

`Good` is the invariant: the chunks are regions apart from each other, the
chunks behind the current one are unused, and the blocks returned since the
last reset are in the used part of their chunks. It rests on each chunk having
the memory that its capacity promises. The source adds the size of the header
to the capacity without a guard; where that sum wraps the chunk is smaller
than its own header.
-/
import Cobalt.Memory.Arena

namespace Cobalt.Memory.Arena

open List

variable {a : State} {c : Chunk} {b : Blk} {size n : Nat} {chunkAt : Option Nat}

/-! ## What is claimed of a state -/

structure Sound (a : State) : Prop where
  /-- the allocator has handed out the payload of each chunk -/
  memory : ∀ c ∈ a.chunks, Region.Within c.payload c.memory
  inside : ∀ b ∈ a.live, ∃ c ∈ a.chunks, c.base = b.chunk ∧ Region.Within b.region c.payload
  aligned : ∀ b ∈ a.live, b.addr % align = 0
  disjoint : a.live.Pairwise fun b b' => Region.Apart b.region b'.region
  unused : ∀ c ∈ a.after, c.used = 0
  total : a.totalAllocated = (a.chunks.map Chunk.capacity).sum

/-- What the backing allocator promises about `bytes` bytes at `addr`. -/
def Granted (a : State) (bytes addr : Nat) : Prop :=
  addr % align = 0 ∧ addr + bytes ≤ 2 ^ 64 ∧ ∀ c ∈ a.chunks, Region.Apart ⟨addr, bytes⟩ c.memory

/-- The call has to allocate a chunk. -/
def needsChunk (a : State) (size : Nat) : Bool :=
  size ≠ 0 && a.current.capacity - a.current.used < roundUp size &&
    match a.after with
    | next :: _ => next.capacity < roundUp size
    | [] => true

/-- The allocator keeps its promise, and the rounding of the size does not wrap. -/
def CallLegal (a : State) : Call → Prop
  | .alloc size chunkAt => size + (align - 1) < 2 ^ 64 ∧
      ∀ addr ∈ chunkAt, needsChunk a size = true →
        Granted a (chunkBytes (newCap a (roundUp size))) addr
  | .reset => True

/-- The size of the chunk that the call allocates, if it does, does not wrap. -/
def CallFits (a : State) : Call → Prop
  | .alloc size chunkAt => needsChunk a size = true → chunkAt ≠ none →
      headerSize + newCap a (roundUp size) < 2 ^ 64
  | .reset => True

instance (a : State) (bytes addr : Nat) : Decidable (Granted a bytes addr) :=
  inferInstanceAs (Decidable (_ ∧ _ ∧ _))

instance (a : State) : (call : Call) → Decidable (CallLegal a call)
  | .alloc _ _ => inferInstanceAs (Decidable (_ ∧ _))
  | .reset => isTrue trivial

instance (a : State) : (call : Call) → Decidable (CallFits a call)
  | .alloc _ _ => inferInstanceAs (Decidable (_ → _ → _))
  | .reset => isTrue trivial

/-! ## What a call does -/

/-- A call returns null and changes nothing, or takes a block of the current chunk,
of the next one or of a new one. -/
lemma alloc_cases (a : State) (size : Nat) (chunkAt : Option Nat) :
    alloc a size chunkAt = (a, none) ∧ (size ≠ 0 → needsChunk a size = true ∧ chunkAt = none) ∨
    size ≠ 0 ∧ needsChunk a size = false ∧ roundUp size ≤ a.current.capacity - a.current.used ∧
      alloc a size chunkAt = carve a a.current size (roundUp size) ∨
    (∃ next rest, a.after = next :: rest ∧ size ≠ 0 ∧ needsChunk a size = false ∧
      roundUp size ≤ next.capacity ∧ alloc a size chunkAt
        = carve { a with before := a.current :: a.before, after := rest } next size
          (roundUp size)) ∨ ∃ addr, chunkAt = some addr ∧ needsChunk a size = true ∧
      alloc a size chunkAt = allocChunk a size (roundUp size) (some addr) := by
  by_cases hzero : size = 0
  · exact .inl ⟨by rw [alloc, if_pos hzero], fun hne => absurd hzero hne⟩
  by_cases hcur : a.current.capacity - a.current.used ≥ roundUp size
  · refine .inr (.inl ⟨hzero, ?_, hcur, ?_⟩)
    · simp [needsChunk, Nat.not_lt.mpr hcur]
    · rw [alloc, if_neg hzero]
      exact if_pos hcur
  -- the slow path, once the next chunk is out of the question
  have hslow : needsChunk a size = true →
      alloc a size chunkAt = allocChunk a size (roundUp size) chunkAt →
      alloc a size chunkAt = (a, none) ∧ (size ≠ 0 → needsChunk a size = true ∧ chunkAt = none) ∨
        ∃ addr, chunkAt = some addr ∧ needsChunk a size = true ∧
          alloc a size chunkAt = allocChunk a size (roundUp size) (some addr) := by
    intro hneeds halloc
    cases chunkAt with
    | none => exact .inl ⟨halloc, fun _ => ⟨hneeds, rfl⟩⟩
    | some addr => exact .inr ⟨addr, rfl, hneeds, halloc⟩
  have hunfold : alloc a size chunkAt = match a.after with
      | next :: rest =>
        if next.capacity ≥ roundUp size then
          carve { a with before := a.current :: a.before, after := rest } next size (roundUp size)
        else allocChunk a size (roundUp size) chunkAt
      | [] => allocChunk a size (roundUp size) chunkAt := by
    rw [alloc, if_neg hzero]
    exact if_neg hcur
  cases hafter : a.after with
  | nil =>
    rw [hafter] at hunfold
    have hneeds : needsChunk a size = true := by
      simp [needsChunk, hafter, hzero, Nat.not_le.mp hcur]
    exact (hslow hneeds hunfold).imp_right fun h => .inr (.inr h)
  | cons next rest =>
    rw [hafter] at hunfold
    by_cases hnext : next.capacity ≥ roundUp size
    · refine .inr (.inr (.inl ⟨next, rest, rfl, hzero, ?_, hnext, ?_⟩))
      · simp [needsChunk, hafter, Nat.not_lt.mpr hnext]
      · rw [hunfold]
        exact if_pos hnext
    · have hneeds : needsChunk a size = true := by
        simp [needsChunk, hafter, hzero, Nat.not_le.mp hcur, Nat.not_le.mp hnext]
      refine (hslow hneeds ?_).imp_right fun h => .inr (.inr h)
      rw [hunfold]
      exact if_neg hnext

/-! ## Rounding -/

lemma roundUp_mod (n : Nat) : roundUp n % align = 0 := Nat.mul_mod_left _ _

lemma le_roundUp (h : n + (align - 1) < 2 ^ 64) : n ≤ roundUp n := by
  unfold roundUp align at *
  rw [Nat.mod_eq_of_lt h]
  omega

lemma roundUp_lt (n : Nat) : roundUp n < 2 ^ 64 := by
  unfold roundUp align
  omega

lemma roundUp_of_mod (h : n % align = 0) (hlt : n < 2 ^ 64) : roundUp n = n := by
  unfold roundUp align at *
  omega

/-! ## The invariant -/

/-- A chunk has the memory it claims, and what is used of it is aligned. -/
structure ChunkOk (c : Chunk) : Prop where
  bytes : c.bytes = headerSize + c.capacity
  stop_le : c.memory.stop ≤ 2 ^ 64
  base_mod : c.base % align = 0
  used_le : c.used ≤ c.capacity
  used_mod : c.used % align = 0

/-- A block is in the used part of a chunk. -/
structure BlkIn (b : Blk) (c : Chunk) : Prop where
  base : c.base = b.chunk
  lo : c.data ≤ b.addr
  hi : b.addr + b.size ≤ c.data + c.used

structure Good (a : State) : Prop where
  chunks : ∀ c ∈ a.chunks, ChunkOk c
  apart : (a.chunks.map Chunk.memory).Pairwise Region.Apart
  unused : ∀ c ∈ a.after, c.used = 0
  total : a.totalAllocated = (a.chunks.map Chunk.capacity).sum
  default_mod : a.defaultChunkSize % align = 0
  default_lt : a.defaultChunkSize < 2 ^ 64
  blocks : ∀ b ∈ a.live, b.addr % align = 0 ∧ ∃ c ∈ a.chunks, BlkIn b c
  disjoint : a.live.Pairwise fun b b' => Region.Apart b.region b'.region

lemma mem_chunks : c ∈ a.chunks ↔ c = a.current ∨ c ∈ a.before.reverse ++ a.after := by
  simp only [State.chunks, mem_append, mem_cons]
  tauto

lemma current_mem (a : State) : a.current ∈ a.chunks := mem_chunks.mpr (.inl rfl)

lemma ChunkOk.within (h : ChunkOk c) : Region.Within c.payload c.memory := by
  refine ⟨Nat.le_add_right _ _, ?_⟩
  change c.base + headerSize + c.capacity ≤ c.base + c.bytes
  rw [h.bytes]
  omega

lemma BlkIn.within (h : BlkIn b c) (hc : ChunkOk c) : Region.Within b.region c.payload :=
  ⟨h.lo, le_trans h.hi (Nat.add_le_add_left hc.used_le _)⟩

lemma Good.sound (h : Good a) : Sound a where
  memory c hc := (h.chunks c hc).within
  inside b hb := by
    obtain ⟨-, c, hc, hin⟩ := h.blocks b hb
    exact ⟨c, hc, hin.base, hin.within (h.chunks c hc)⟩
  aligned b hb := (h.blocks b hb).1
  disjoint := h.disjoint
  unused := h.unused
  total := h.total

lemma Good.apart_current (h : Good a) (hc : c ∈ a.before.reverse ++ a.after) :
    Region.Apart c.memory a.current.memory := by
  have hpair := h.apart
  rw [State.chunks, map_append, map_cons, pairwise_append, pairwise_cons] at hpair
  obtain ⟨-, ⟨hr, -⟩, hl⟩ := hpair
  rcases mem_append.mp hc with hmem | hmem
  · exact hl _ (mem_map_of_mem hmem) _ (by simp)
  · exact (hr _ (mem_map_of_mem hmem)).symm

lemma Good.carve (h : Good a) (hpos : size ≤ n) (hn : n % align = 0)
    (hroom : a.current.used + n ≤ a.current.capacity) : Good (carve a a.current size n).1 := by
  have hcur := h.chunks _ (current_mem a)
  refine ⟨fun c hc => ?_, ?_, h.unused, ?_, h.default_mod, h.default_lt, fun b hb => ?_, ?_⟩
  · rcases mem_chunks.mp hc with rfl | hc
    · refine ⟨hcur.bytes, hcur.stop_le, hcur.base_mod, hroom, ?_⟩
      change (a.current.used + n) % align = 0
      rw [Nat.add_mod, hcur.used_mod, hn]
      rfl
    · exact h.chunks c (mem_chunks.mpr (.inr hc))
  · have hapart := h.apart
    rw [State.chunks, map_append, map_cons] at hapart ⊢
    exact hapart
  · have htotal := h.total
    rw [State.chunks, map_append, map_cons] at htotal ⊢
    exact htotal
  · rcases mem_cons.mp hb with rfl | hb
    · refine ⟨?_, a.current.take n, current_mem _, rfl, Nat.le_add_right _ _, ?_⟩
      · change (a.current.base + headerSize + a.current.used) % align = 0
        have hbase := hcur.base_mod
        have hused := hcur.used_mod
        unfold align headerSize at *
        omega
      · change a.current.data + a.current.used + size ≤ a.current.data + (a.current.used + n)
        omega
    · obtain ⟨hmod, c, hc, hin⟩ := h.blocks b hb
      refine ⟨hmod, ?_⟩
      rcases mem_chunks.mp hc with rfl | hc
      · exact ⟨a.current.take n, current_mem _, hin.base, hin.lo,
          le_trans hin.hi (Nat.add_le_add_left (Nat.le_add_right _ _) _)⟩
      · exact ⟨c, mem_chunks.mpr (.inr hc), hin⟩
  · refine pairwise_cons.mpr ⟨fun b hb => ?_, h.disjoint⟩
    obtain ⟨-, c, hc, hin⟩ := h.blocks b hb
    have hnew : Region.Within ⟨a.current.data + a.current.used, size⟩ a.current.payload := by
      refine ⟨Nat.le_add_right _ _, ?_⟩
      change a.current.data + a.current.used + size ≤ a.current.data + a.current.capacity
      omega
    rcases mem_chunks.mp hc with rfl | hne
    · -- a block of the same chunk ends where the new one begins, or before
      exact .inr hin.hi
    · exact ((h.apart_current hne).within ((hin.within (h.chunks c hc)).trans (h.chunks c hc).within)
        (hnew.trans hcur.within)).symm

lemma Good.advance (h : Good a) {next : Chunk} {rest : List Chunk}
    (hafter : a.after = next :: rest) :
    Good { a with before := a.current :: a.before, current := next, after := rest } := by
  have hchunks : (⟨a.current :: a.before, next, rest, a.defaultChunkSize, a.totalAllocated,
      a.live⟩ : State).chunks = a.chunks := by simp [State.chunks, hafter]
  refine ⟨?_, ?_, fun c hc => h.unused c (by simp [hafter, hc]), ?_, h.default_mod, h.default_lt, ?_,
    h.disjoint⟩
  · rw [hchunks]
    exact h.chunks
  · rw [hchunks]
    exact h.apart
  · rw [hchunks]
    exact h.total
  · rw [hchunks]
    exact h.blocks

/-- The capacity of a new chunk covers the block. -/
lemma Good.le_newCap (h : Good a) (hn : n % align = 0) (hlt : n < 2 ^ 64) : n ≤ newCap a n := by
  unfold newCap
  split
  · rw [roundUp_of_mod hn hlt]
  · rw [roundUp_of_mod h.default_mod h.default_lt]
    omega

lemma sum_capacity_lt {cs : List Chunk} (hok : ∀ c ∈ cs, ChunkOk c)
    (hapart : (cs.map Chunk.memory).Pairwise Region.Apart) (hne : cs ≠ []) :
    (cs.map Chunk.capacity).sum < 2 ^ 64 := by
  have hle := Region.sum_size_le hapart fun r hr => by
    obtain ⟨c, hc, rfl⟩ := mem_map.mp hr
    exact (hok c hc).stop_le
  rw [map_map] at hle
  have hlt : (cs.map Chunk.capacity).sum < (cs.map (Region.size ∘ Chunk.memory)).sum := by
    refine sum_lt_sum_of_ne_nil hne _ _ fun c hc => ?_
    change c.capacity < c.bytes
    rw [(hok c hc).bytes]
    exact Nat.lt_add_of_pos_left (by decide)
  exact Nat.lt_of_lt_of_le hlt hle

/-- A new chunk behind the current one becomes the current one. -/
lemma Good.splice (h : Good a) {addr cap : Nat}
    (hfits : headerSize + cap < 2 ^ 64) (hgranted : Granted a (chunkBytes cap) addr) :
    Good { a with
      before := a.current :: a.before
      current := ⟨addr, chunkBytes cap, cap, 0⟩
      totalAllocated := (a.totalAllocated + cap) % 2 ^ 64 } := by
  obtain ⟨haddr, hspace, hapart⟩ := hgranted
  have hbytes : chunkBytes cap = headerSize + cap := Nat.mod_eq_of_lt hfits
  generalize hnew : (⟨addr, chunkBytes cap, cap, 0⟩ : Chunk) = new
  have hperm : (⟨a.current :: a.before, new, a.after, a.defaultChunkSize,
      (a.totalAllocated + cap) % 2 ^ 64, a.live⟩ : State).chunks.Perm (new :: a.chunks) := by
    simp only [State.chunks, reverse_cons]
    refine perm_middle.trans (List.Perm.cons _ ?_)
    rw [append_assoc, singleton_append]
  have hok : ∀ c ∈ new :: a.chunks, ChunkOk c := by
    subst hnew
    exact forall_mem_cons.mpr ⟨⟨hbytes, hspace, haddr, Nat.zero_le _, rfl⟩, h.chunks⟩
  have hpair : ((new :: a.chunks).map Chunk.memory).Pairwise Region.Apart := by
    refine pairwise_cons.mpr ⟨fun r hr => ?_, h.apart⟩
    obtain ⟨c, hc, rfl⟩ := mem_map.mp hr
    exact hnew ▸ hapart c hc
  refine ⟨fun c hc => hok c (hperm.subset hc), ?_, h.unused, ?_, h.default_mod, h.default_lt,
    fun b hb => ?_, h.disjoint⟩
  · exact ((hperm.map _).pairwise_iff fun hr => Region.Apart.symm hr).mpr hpair
  · -- all chunks together fit the address space, so the sum does not wrap
    have hsum := sum_capacity_lt hok hpair (cons_ne_nil _ _)
    rw [(hperm.map _).sum_eq]
    rw [map_cons, sum_cons, ← h.total, ← hnew] at hsum ⊢
    change (a.totalAllocated + cap) % 2 ^ 64 = cap + a.totalAllocated
    rw [Nat.add_comm, Nat.mod_eq_of_lt hsum]
  · obtain ⟨hmod, c, hc, hin⟩ := h.blocks b hb
    exact ⟨hmod, c, hperm.symm.subset (mem_cons_of_mem _ hc), hin⟩

lemma chunks_reset (a : State) : (reset a).chunks = a.chunks.map Chunk.clear := by
  unfold reset
  split
  · rename_i hbefore
    simp [State.chunks, reverse_eq_nil_iff.mp hbefore]
  · rename_i c cs hbefore
    simp [State.chunks, hbefore]

lemma live_reset (a : State) : (reset a).live = [] := by unfold reset; split <;> rfl

lemma Good.reset (h : Good a) : Good (reset a) := by
  have htotal : (Arena.reset a).totalAllocated = a.totalAllocated := by
    unfold Arena.reset; split <;> rfl
  have hdefault : (Arena.reset a).defaultChunkSize = a.defaultChunkSize := by
    unfold Arena.reset; split <;> rfl
  refine ⟨fun c hc => ?_, ?_, fun c hc => ?_, ?_, ?_, ?_, ?_, ?_⟩
  · rw [chunks_reset] at hc
    obtain ⟨c, hmem, rfl⟩ := mem_map.mp hc
    have hok := h.chunks c hmem
    exact ⟨hok.bytes, hok.stop_le, hok.base_mod, Nat.zero_le _, rfl⟩
  · rw [chunks_reset, map_map]
    exact h.apart
  · have hmem : c ∈ (Arena.reset a).chunks := by simp [State.chunks, hc]
    rw [chunks_reset] at hmem
    obtain ⟨c, -, rfl⟩ := mem_map.mp hmem
    rfl
  · rw [chunks_reset, map_map, htotal]
    exact h.total
  · rw [hdefault]
    exact h.default_mod
  · rw [hdefault]
    exact h.default_lt
  · rw [live_reset]
    simp
  · rw [live_reset]
    exact List.Pairwise.nil

/-! ## Every call -/

lemma Good.step (h : Good a) {call : Call} (hlegal : CallLegal a call)
    (hfits : CallFits a call) : Good (step a call) := by
  cases call with
  | reset => exact h.reset
  | alloc size chunkAt =>
    obtain ⟨hround, hgranted⟩ := hlegal
    have hle := le_roundUp hround
    have hcur := (h.chunks _ (current_mem a)).used_le
    change Good (alloc a size chunkAt).1
    rcases alloc_cases a size chunkAt with ⟨heq, -⟩ | ⟨-, -, hroom, heq⟩ |
      ⟨next, rest, hafter, -, -, hroom, heq⟩ | ⟨addr, rfl, hneeds, heq⟩ <;> rw [heq]
    · exact h
    · exact h.carve hle (roundUp_mod size) (by omega)
    · have hunused : next.used = 0 := h.unused next (by simp [hafter])
      exact (h.advance hafter).carve hle (roundUp_mod size)
        (show next.used + roundUp size ≤ next.capacity by omega)
    · have hcap := h.le_newCap (roundUp_mod size) (roundUp_lt size)
      refine (h.splice (hfits hneeds (by simp)) (hgranted addr rfl hneeds)).carve hle
        (roundUp_mod size) ?_
      change 0 + roundUp size ≤ newCap a (roundUp size)
      omega

/-- A chunk whose size wraps does not have the memory that it claims. -/
lemma not_sound_of_wraps (hmem : c ∈ a.chunks) (hbytes : c.bytes = chunkBytes c.capacity)
    (hwraps : ¬ headerSize + c.capacity < 2 ^ 64) : ¬ Sound a := by
  intro hsound
  have hstop : c.base + headerSize + c.capacity ≤ c.base + c.bytes := (hsound.memory _ hmem).2
  have hlt : chunkBytes c.capacity < 2 ^ 64 := Nat.mod_lt _ (by decide)
  omega

/-- A call whose chunk wraps leaves an unsound state. -/
lemma not_sound_step {call : Call} (hfits : ¬ CallFits a call) : ¬ Sound (step a call) := by
  cases call with
  | reset => exact absurd trivial hfits
  | alloc size chunkAt =>
    simp only [CallFits, not_forall, ne_eq] at hfits
    obtain ⟨hneeds, hsome, hwraps⟩ := hfits
    rcases alloc_cases a size chunkAt with ⟨-, hnone⟩ | ⟨-, hnot, -⟩ | ⟨-, -, -, -, hnot, -⟩ |
      ⟨addr, rfl, -, heq⟩
    · have hsize : size ≠ 0 := by
        rintro rfl
        simp [needsChunk] at hneeds
      exact absurd (hnone hsize).2 hsome
    · rw [hneeds] at hnot
      cases hnot
    · rw [hneeds] at hnot
      cases hnot
    · change ¬ Sound (alloc a size (some addr)).1
      rw [heq]
      exact not_sound_of_wraps (current_mem _) rfl hwraps

/-! ## Every run -/

/-- The blocks returned since the last reset are those before the call and the
one that it returns, if it does. -/
def Records (a : State) : Call → Prop
  | .alloc size chunkAt => match alloc a size chunkAt with
    | (a', some ptr) => ∃ chunk, a'.live = ⟨chunk, ptr, size⟩ :: a.live
    | (a', none) => a'.live = a.live
  | .reset => (reset a).live = []

lemma records (a : State) (call : Call) : Records a call := by
  cases call with
  | reset => exact live_reset a
  | alloc size chunkAt =>
    simp only [Records]
    rcases alloc_cases a size chunkAt with ⟨heq, -⟩ | ⟨-, -, -, heq⟩ | ⟨_, _, -, -, -, -, heq⟩ |
      ⟨_, rfl, -, heq⟩ <;> rw [heq]
    · exact ⟨_, rfl⟩
    · exact ⟨_, rfl⟩
    · exact ⟨_, rfl⟩

/-- All states of the run are sound, with the blocks that its calls return. -/
def SoundRun : State → List Call → Prop
  | a, [] => Sound a
  | a, call :: calls => Sound a ∧ Records a call ∧ SoundRun (step a call) calls

/-- In every call of the run the allocator keeps its promise and no rounding wraps. -/
def LegalRun : State → List Call → Prop
  | _, [] => True
  | a, call :: calls => CallLegal a call ∧ LegalRun (step a call) calls

/-- No chunk allocated in the run wraps. -/
def FitsRun : State → List Call → Prop
  | _, [] => True
  | a, call :: calls => CallFits a call ∧ FitsRun (step a call) calls

instance decidableLegalRun : (a : State) → (calls : List Call) → Decidable (LegalRun a calls)
  | _, [] => isTrue trivial
  | a, call :: calls => @instDecidableAnd _ _ _ (decidableLegalRun (step a call) calls)

instance decidableFitsRun : (a : State) → (calls : List Call) → Decidable (FitsRun a calls)
  | _, [] => isTrue trivial
  | a, call :: calls => @instDecidableAnd _ _ _ (decidableFitsRun (step a call) calls)

lemma SoundRun.sound {calls : List Call} (h : SoundRun a calls) : Sound a := by
  cases calls with
  | nil => exact h
  | cons call calls => exact h.1

lemma Good.soundRun_iff {calls : List Call} (h : Good a) (hlegal : LegalRun a calls) :
    SoundRun a calls ↔ FitsRun a calls := by
  induction calls generalizing a with
  | nil => exact ⟨fun _ => trivial, fun _ => h.sound⟩
  | cons call calls ih =>
    obtain ⟨hcall, hcalls⟩ := hlegal
    constructor
    · rintro ⟨-, -, hrest⟩
      have hfits : CallFits a call := by
        by_contra hnot
        exact not_sound_step hnot hrest.sound
      exact ⟨hfits, (ih (h.step hcall hfits) hcalls).mp hrest⟩
    · rintro ⟨hfits, hrest⟩
      exact ⟨h.sound, records a call, (ih (h.step hcall hfits) hcalls).mpr hrest⟩

lemma good_create {initialSize addr : Nat} {structOk : Bool}
    (ha : create initialSize structOk (some addr) = some a) (haddr : addr % align = 0)
    (hspace : addr + chunkBytes (firstCap initialSize) ≤ 2 ^ 64)
    (hfits : headerSize + firstCap initialSize < 2 ^ 64) : Good a := by
  unfold create at ha
  split at ha
  · cases ha
    refine ⟨fun c hc => ?_, ?_, ?_, ?_, roundUp_mod _, roundUp_lt _, ?_, List.Pairwise.nil⟩
    · obtain rfl : c = _ := mem_singleton.mp hc
      exact ⟨Nat.mod_eq_of_lt hfits, hspace, haddr, Nat.zero_le _, rfl⟩
    · exact pairwise_singleton _ _
    · simp
    · simp [State.chunks]
    · simp
  · cases ha

/-- **The blocks of an arena are aligned, apart and in memory of its own** along a
run exactly when for no chunk the sum of header and capacity wraps. -/
theorem arena_sound_iff {initialSize addr : Nat} {structOk : Bool}
    (ha : create initialSize structOk (some addr) = some a) (haddr : addr % align = 0)
    (hspace : addr + chunkBytes (firstCap initialSize) ≤ 2 ^ 64) (calls : List Call)
    (hlegal : LegalRun a calls) :
    SoundRun a calls ↔ headerSize + firstCap initialSize < 2 ^ 64 ∧ FitsRun a calls := by
  constructor
  · intro h
    have hfits : headerSize + firstCap initialSize < 2 ^ 64 := by
      by_contra hwraps
      unfold create at ha
      split at ha
      · cases ha
        exact not_sound_of_wraps (current_mem _) rfl hwraps h.sound
      · cases ha
    exact ⟨hfits, ((good_create ha haddr hspace hfits).soundRun_iff hlegal).mp h⟩
  · rintro ⟨hfits, hrun⟩
    exact ((good_create ha haddr hspace hfits).soundRun_iff hlegal).mpr hrun

/-- An arena that gets a second chunk, is reset and uses both again. -/
theorem arena_sound_reused :
    ∃ a, create 32 true (some 4096) = some a ∧
      SoundRun a [.alloc 20 none, .alloc 8 (some 8192), .reset, .alloc 5 none, .alloc 30 none] := by
  have ha : create 32 true (some 4096) = some ⟨[], ⟨4096, 64, 32, 0⟩, [], 32, 32, []⟩ := by decide
  exact ⟨_, ha, (arena_sound_iff ha (by decide) (by decide) _ (by decide)).mpr (by decide)⟩

/-- A request of `SIZE_MAX - 15` bytes: the size of the chunk wraps to 16 bytes, and the
block that is returned lies behind them. -/
theorem alloc_wraps :
    ∃ a, create 32 true (some 4096) = some a ∧ LegalRun a [.alloc (2 ^ 64 - 16) (some 8192)] ∧
      (alloc a (2 ^ 64 - 16) (some 8192)).2 = some 8224 ∧
      (∃ b ∈ (alloc a (2 ^ 64 - 16) (some 8192)).1.live,
        ∀ c ∈ (alloc a (2 ^ 64 - 16) (some 8192)).1.chunks, c.base = b.chunk →
          c.memory = ⟨8192, 16⟩ ∧ b.region = ⟨8224, 2 ^ 64 - 16⟩) ∧
      ¬ SoundRun a [.alloc (2 ^ 64 - 16) (some 8192)] := by
  have ha : create 32 true (some 4096) = some ⟨[], ⟨4096, 64, 32, 0⟩, [], 32, 32, []⟩ := by decide
  refine ⟨_, ha, by decide, by decide, by decide, fun h => ?_⟩
  exact not_sound_step (by decide) h.2.2

end Cobalt.Memory.Arena
