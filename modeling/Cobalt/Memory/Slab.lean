/-
Cobalt.Memory.Slab — the allocator with size classes of slab.c.

Each class is a region of blocks of one size with its own list of free blocks.
A request goes to the first class whose blocks are large enough; a freed pointer
goes to the first class that has a block at that address.
-/
import Cobalt.Memory.Pool

namespace Cobalt.Memory.Slab

/-- `COBALT_SLAB_MAX_CLASSES`. -/
def maxClasses : Nat := 16

/-- A slab and the memory. -/
structure State where
  mem : ByteMem
  classes : List Blocks

/-- What `cobalt_slab_create` is told about a class, and the address of its memory. -/
structure Spec where
  size : Nat
  count : Nat
  memory : Nat
  deriving DecidableEq, Repr

/-- A class as it is created. -/
def Spec.blocks (p : Spec) : Blocks :=
  .unused (Blocks.sizeFor p.size) (if p.count = 0 then 16 else p.count) p.memory

/-- One round of the loop of `cobalt_slab_create_with_allocator`. -/
def createClass (s : State) (p : Spec) : State :=
  let c := p.blocks
  ⟨c.link (s.mem.clear c.memory (c.blockSize * c.blockCount)), s.classes ++ [c]⟩

/-- `cobalt_slab_create_with_allocator`, where the allocator returns the addresses in `specs`. -/
def create (mem : ByteMem) (specs : List Spec) : Option State :=
  if specs.length = 0 ∨ specs.length > maxClasses then
    none
  else
    some (specs.foldl createClass ⟨mem, []⟩)

/-- `slab_find_class`. -/
def slabFindClass (s : State) (size : Nat) : Option Nat :=
  s.classes.findIdx? fun c => size ≤ c.blockSize

/-- `cobalt_slab_alloc`; the null pointer is 0. -/
def alloc (s : State) (size : Nat) : Nat × State :=
  if size = 0 then
    (0, s)
  else
    match slabFindClass s size with
    | none => (0, s)
    | some idx =>
      match s.classes[idx]? with
      | none => (0, s)
      | some c =>
        if c.freeCount = 0 then
          (0, s)
        else
          (c.freeList, ⟨s.mem.clear c.freeList c.blockSize, s.classes.set idx (c.pop s.mem)⟩)

/-- The loop of `cobalt_slab_free`. -/
def freeIn (mem : ByteMem) (ptr : Nat) : List Blocks → State
  | [] => ⟨mem, []⟩
  | c :: cs =>
    if c.owns ptr then
      ⟨mem.storePtr ptr c.freeList, c.push ptr :: cs⟩
    else
      let s := freeIn mem ptr cs
      ⟨s.mem, c :: s.classes⟩

/-- `cobalt_slab_free`. -/
def free (s : State) (ptr : Nat) : State :=
  if ptr = 0 then s else freeIn s.mem ptr s.classes

/-- What a client does: it calls the slab, or it writes to a byte. -/
inductive Call where
  | alloc (size : Nat)
  | free (ptr : Nat)
  | write (a : Nat) (x : UInt8)
  deriving DecidableEq, Repr

/-- The state after a call. -/
def step (s : State) : Call → State
  | .alloc size => (alloc s size).2
  | .free ptr => free s ptr
  | .write a x => ⟨Function.update s.mem a x, s.classes⟩

end Cobalt.Memory.Slab
