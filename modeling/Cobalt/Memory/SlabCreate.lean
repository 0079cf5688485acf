/-
Cobalt.Memory.SlabCreate — failures in `cobalt_slab_create_with_allocator`.

When the memory of a class cannot be had, the half-built slab is given to
`cobalt_slab_destroy`. The fields that the destructor goes by are set only at
the end: it finds no classes, and no allocator to free the slab with. The size
of a class is a product of two words that nothing checks: where it wraps, the
block is too small for the class, and linking its blocks may write outside.
-/
import Cobalt.Memory.Slab

namespace Cobalt.Memory.Slab

/-- The fields of `struct cobalt_slab`; `alloc` tells whether the pointer is set. -/
structure Control where
  classes : List Blocks
  classCount : Nat
  alloc : Bool

/-- The arguments for a class, and the allocator's answer to the request for it. -/
structure Request where
  size : Nat
  count : Nat
  memory : Option Nat

/-- The class, if there is memory for it. -/
def Request.blocks (p : Request) : Option Blocks :=
  p.memory.map fun m => Spec.blocks ⟨p.size, p.count, m⟩

/-- `bs`. -/
def Request.blockSize (p : Request) : Nat := Blocks.sizeFor p.size

/-- `cnt`. -/
def Request.blockCount (p : Request) : Nat := if p.count = 0 then 16 else p.count

/-- The bytes that are asked for, `bs * cnt` in a `size_t`. -/
def Request.bytes (p : Request) : Nat := p.blockSize * p.blockCount % 2 ^ 64

/-- The loop that links the blocks writes a pointer at each multiple of `bs`, and
all of them are in the memory of the class. -/
def Request.linksInside (p : Request) : Bool :=
  (List.range p.blockCount).all fun j => j * p.blockSize % 2 ^ 64 + ptrSize ≤ p.bytes

/-- The memory of the class has room for all its blocks. -/
def Request.Covered (p : Request) : Prop := p.bytes = p.blockSize * p.blockCount

/-- `cobalt_slab_destroy`: the blocks that are held afterwards, unless a null
pointer is dereferenced. -/
def cobaltSlabDestroy (addr : Nat) (slab : Control) (held : List Nat) : Option (List Nat) :=
  if slab.alloc then
    some (((slab.classes.take slab.classCount).foldl (fun l c => l.erase c.memory) held).erase addr)
  else none

/-- The loop of `cobalt_slab_create_with_allocator`: the slab or null, and the
blocks that are held, unless it dereferences null or writes outside a block. -/
def createLoop (addr : Nat) :
    List Request → Control → List Nat → Option (Option Control × List Nat)
  | [], slab, held => some (some slab, held)
  | p :: ps, slab, held =>
      match p.blocks with
      | none => (cobaltSlabDestroy addr slab held).map (none, ·)
      | some c =>
          if p.linksInside then
            createLoop addr ps { slab with classes := slab.classes ++ [c] } (held ++ [c.memory])
          else none

/-- `cobalt_slab_create_with_allocator`, where `addr` is the answer to the request
for the slab itself. -/
def createWithAllocator (ps : List Request) (addr : Option Nat) :
    Option (Option Control × List Nat) :=
  if ps.length = 0 ∨ ps.length > maxClasses then some (none, [])
  else match addr with
    | none => some (none, [])
    | some addr => (createLoop addr ps ⟨[], 0, false⟩ [addr]).map fun r =>
        (r.1.map fun slab => ⟨slab.classes, ps.length, true⟩, r.2)

/-- A call leaves a complete slab, with room for all blocks of every class, or null
and no block. -/
def Clean (ps : List Request) (addr : Option Nat) : Option (Option Control × List Nat) → Prop
  | none => False
  | some (none, held) => held = []
  | some (some slab, held) => slab.classes = ps.filterMap Request.blocks ∧
      slab.classes.length = ps.length ∧ slab.classCount = ps.length ∧ slab.alloc = true ∧
      some held = addr.map (· :: slab.classes.map Blocks.memory) ∧ ∀ p ∈ ps, p.Covered

variable {ps : List Request} {slab : Control} {held : List Nat} {addr : Nat}

lemma Request.Covered.linksInside {p : Request} (h : p.Covered) : p.linksInside = true := by
  have hsize : ptrSize ≤ p.blockSize := by
    unfold Request.blockSize Blocks.sizeFor
    split <;> omega
  refine List.all_eq_true.mpr fun j hj => decide_eq_true ?_
  have hj' : (j + 1) * p.blockSize ≤ p.bytes := by
    rw [h, Nat.mul_comm]
    exact Nat.mul_le_mul_left _ (List.mem_range.mp hj)
  have hmod := Nat.mod_le (j * p.blockSize) (2 ^ 64)
  rw [Nat.succ_mul] at hj'
  omega

lemma covered_iff {p : Request} : p.Covered ↔ p.blockSize * p.blockCount < 2 ^ 64 :=
  ⟨fun h => h ▸ Nat.mod_lt _ (by decide), Nat.mod_eq_of_lt⟩

/-- With memory for every class, and the links of every class inside it, the loop
comes to its end. -/
lemma createLoop_of_granted (h : ∀ p ∈ ps, p.blocks ≠ none ∧ p.linksInside = true) :
    createLoop addr ps slab held =
      some (some { slab with classes := slab.classes ++ ps.filterMap Request.blocks },
        held ++ (ps.filterMap Request.blocks).map Blocks.memory) := by
  induction ps generalizing slab held with
  | nil => simp [createLoop]
  | cons p ps ih =>
    obtain ⟨hp, hps⟩ := List.forall_mem_cons.mp h
    obtain ⟨c, hc⟩ := Option.ne_none_iff_exists'.mp hp.1
    simp [createLoop, hc, hp.2, ih hps]

/-- The first class without memory ends the loop in the destructor, the first one
with a link outside in a write to memory that is not its own. -/
lemma createLoop_of_refused (h : ¬ ∀ p ∈ ps, p.blocks ≠ none ∧ p.linksInside = true)
    (halloc : slab.alloc = false) : createLoop addr ps slab held = none := by
  induction ps generalizing slab held with
  | nil => simp at h
  | cons p ps ih =>
    rw [createLoop]
    cases hp : p.blocks with
    | none => simp [cobaltSlabDestroy, halloc]
    | some c =>
      dsimp only
      split
      · rename_i hlinks
        exact ih (by simpa [hp, hlinks] using h) halloc
      · rfl

/-- A call ends well exactly if it is refused at once, gets no memory for the
slab itself, or gets the memory of every class and no size of a class wraps. -/
theorem createWithAllocator_clean_iff (ps : List Request) (addr : Option Nat) :
    Clean ps addr (createWithAllocator ps addr) ↔
      ps.length = 0 ∨ ps.length > maxClasses ∨ addr = none ∨
        ∀ p ∈ ps, p.memory ≠ none ∧ p.blockSize * p.blockCount < 2 ^ 64 := by
  have hblocks : ∀ p : Request, p.memory ≠ none ↔ p.blocks ≠ none := by
    simp [Request.blocks]
  simp only [← covered_iff, hblocks]
  rw [← or_assoc, createWithAllocator.eq_def]
  split
  · rename_i hcount
    exact iff_of_true rfl (.inl hcount)
  · rename_i hcount
    rw [or_iff_right hcount]
    cases addr with
    | none => simp [Clean]
    | some addr =>
      dsimp only
      by_cases h : ∀ p ∈ ps, p.blocks ≠ none ∧ p.linksInside = true
      · have hgranted : ∀ p ∈ ps, p.blocks ≠ none := fun p hp => (h p hp).1
        have hlen : (ps.filterMap Request.blocks).length = ps.length := by
          simpa [List.filterMap_length_eq_length, Option.isSome_iff_ne_none] using hgranted
        rw [createLoop_of_granted h]
        simp only [Clean, Option.map_some, List.nil_append, hlen, List.singleton_append, true_and,
          reduceCtorEq, false_or]
        exact forall₂_congr fun p hp => (and_iff_right (hgranted p hp)).symm
      · rw [createLoop_of_refused h rfl]
        refine iff_of_false (fun hclean => hclean) ?_
        rintro (hnone | hall)
        · cases hnone
        · exact h fun p hp => ⟨(hall p hp).1, (hall p hp).2.linksInside⟩

/-- The memory of the only class cannot be had. -/
theorem createWithAllocator_derefs_null :
    ¬ ∀ (ps : List Request) (addr : Option Nat), Clean ps addr (createWithAllocator ps addr) :=
  fun h => h [⟨8, 1, none⟩] (some 4096)

end Cobalt.Memory.Slab
