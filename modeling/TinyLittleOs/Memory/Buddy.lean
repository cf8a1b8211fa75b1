import TinyLittleOs.Lib.HeadedList
import TinyLittleOs.Lib.Bitmap

/-!
# The buddy structs of kmem

`buddy_array` and the four list heads of `kmem_allocator`, with the member functions of
`buddy` as `page_allocator.cpp` writes them. The templates over the block size `N` are
functions of `BlockSize`; a function that the source spells out four times keeps its four
names. A buddy is its index in `buddy_array`, so that `this - buddy_array` is the buddy.
-/

namespace TinyLittleOs.Memory

open Lib

/-- The sizes `N` the templates are instantiated at: 4, 8, 16 and 32 KiB. -/
inductive BlockSize where
  | k4 | k8 | k16 | k32
  deriving DecidableEq, Repr

namespace BlockSize

/-- `N` is `2 ^ shift` bytes. -/
def shift : BlockSize → Nat
  | k4 => 12
  | k8 => 13
  | k16 => 14
  | k32 => 15

def bytes (n : BlockSize) : Nat := 2 ^ n.shift

/-- A block is `2 ^ order` pages of 4 KiB. -/
def order : BlockSize → Nat
  | k4 => 0
  | k8 => 1
  | k16 => 2
  | k32 => 3

/-- Blocks of this size in the 512 KiB of a buddy. -/
def count : BlockSize → Nat
  | k4 => 128
  | k8 => 64
  | k16 => 32
  | k32 => 16

/-- Bits in one word of `kN`: `uint16_t k32`, otherwise `uint32_t`. -/
def width : BlockSize → Nat
  | k32 => 16
  | _ => 32

/-- Words of `kN`. -/
def words : BlockSize → Nat
  | k4 => 4
  | k8 => 2
  | _ => 1

end BlockSize

/-- What stops the kernel in the page allocator. -/
inductive Fault where
  /-- `kassert(arr_index != 4)`, `kassert(arr_index != 2)`, or `__builtin_ctz(0)`. -/
  | emptyBitmap (n : BlockSize)
  /-- `kassert((pos * sizeof(buddy)) < buddy_array_size)` -/
  | buddyArrayFull
  /-- `kassert(kmem_phys_end.to_virt() == start)` -/
  | physEndNotStart
  /-- `kassert(kmem_phys_end.value() < kmem_region_end.value())` -/
  | regionEnd
  /-- `kassert(result != nullptr)` -/
  | resultNull
  /-- `kassert((buddy_rel_pos & 0x0FFF) == 0)` and its three siblings -/
  | freeUnaligned (n : BlockSize)
  /-- `kassert(((uint32_t)virt & 0xFFF) == 0)` -/
  | virtUnaligned
  /-- `kassert((dir_entry & (uint32_t)page_flag::present) == 0)` -/
  | tablePresent
  /-- `kassert(kmem_phys_end.value() < hmem_phys_end.value())` -/
  | heapsMeet
  /-- `kassert(addr.value() >= hmem_phys_end.value())` -/
  | belowHmem
  /-- `kassert(dir_index == 0x03FF)` -/
  | mappingFull
  /-- `kassert(dir_entry & (uint32_t)page_flag::present)` -/
  | mappingTable
  /-- A page that is not mapped is accessed. -/
  | pageFault
  /-- The model's bound on nested calls was reached. -/
  | outOfFuel
  deriving DecidableEq, Repr

/-- The globals of kmem: `buddy_array`, its position and size, the bitmaps of each buddy
and the four lists through `kmem_allocator.first_kN`. -/
structure Kmem where
  buddyArray : Nat
  buddyArraySize : Nat
  buddyArrayPos : Nat
  bits : (n : BlockSize) → Nat → Bitmap n.width n.words
  links : BlockSize → Links Nat

namespace Kmem

def setBits (s : Kmem) (n : BlockSize) (b : Nat) (m : Bitmap n.width n.words) : Kmem :=
  { s with bits := Function.update s.bits n (Function.update (s.bits n) b m) }

def setLinks (s : Kmem) (n : BlockSize) (L : Links Nat) : Kmem :=
  { s with links := Function.update s.links n L }

/-- The body shared by `mark_alloc_kN`: clear the masked bits of one word, unlink the
buddy from the list of `N` when its whole bitmap is zero, return what was set. -/
def markAlloc (n : BlockSize) (arrIndex : Nat) (bit : BitVec n.width) (b : Nat) (s : Kmem) :
    BitVec n.width × Kmem :=
  let res := (s.bits n b).word arrIndex &&& bit
  let s := s.setBits n b ((s.bits n b).setWord arrIndex ((s.bits n b).word arrIndex &&& ~~~res))
  if (s.bits n b).word arrIndex = 0 ∧ (s.bits n b).isZero = true then
    (res, s.setLinks n ((s.links n).unlink b))
  else
    (res, s)

/-- The body shared by `mark_free_kN`: link the buddy if it is unlinked with an empty
bitmap, then set the masked bits. -/
def markFree (n : BlockSize) (arrIndex : Nat) (bit : BitVec n.width) (b : Nat) (s : Kmem) : Kmem :=
  let s := if (s.links n).prev b = none ∧ (s.bits n b).isZero = true then
      s.setLinks n ((s.links n).pushFront b)
    else
      s
  s.setBits n b ((s.bits n b).setWord arrIndex ((s.bits n b).word arrIndex ||| bit))

def markAllocK4 (b index : Nat) : Kmem → BitVec 32 × Kmem :=
  markAlloc .k4 (index >>> 5) (1#_ <<< (index &&& 0x1F)) b

def markFreeK4 (b index : Nat) : Kmem → Kmem :=
  markFree .k4 (index >>> 5) (1#_ <<< (index &&& 0x1F)) b

def markAllocK8 (b index : Nat) : Kmem → BitVec 32 × Kmem :=
  markAlloc .k8 (index >>> 5) (1#_ <<< (index &&& 0x1F)) b

def markFreeK8 (b index : Nat) : Kmem → Kmem :=
  markFree .k8 (index >>> 5) (1#_ <<< (index &&& 0x1F)) b

/-- `k16` and `k32` are single words, indexed without `arr_index`. -/
def markAllocK16 (b index : Nat) : Kmem → BitVec 32 × Kmem :=
  markAlloc .k16 0 (1#_ <<< index) b

def markFreeK16 (b index : Nat) : Kmem → Kmem :=
  markFree .k16 0 (1#_ <<< index) b

def markAllocK32 (b index : Nat) : Kmem → BitVec 16 × Kmem :=
  markAlloc .k32 0 (1#_ <<< index) b

def markFreeK32 (b index : Nat) : Kmem → Kmem :=
  markFree .k32 0 (1#_ <<< index) b

/-- The search of `alloc<N>`: the first nonzero word and its lowest set bit. For `k4` and
`k8` an empty bitmap fails the assertion on `arr_index`; for `k16` and `k32` it is
`__builtin_ctz(0)`, which is undefined. -/
def findFree (n : BlockSize) (b : Nat) (s : Kmem) : Except Fault Nat :=
  match (s.bits n b).firstWord with
  | none => .error (.emptyBitmap n)
  | some arrIndex => .ok (arrIndex * n.width + ((s.bits n b).word arrIndex).ctz.toNat)

def allocK4 (b index : Nat) (s : Kmem) : Kmem :=
  let s := (s.markAllocK4 b index).2
  let (res8, s) := s.markAllocK8 b (index >>> 1)
  if res8 ≠ 0 then
    let (res16, s) := s.markAllocK16 b (index >>> 2)
    if res16 ≠ 0 then (s.markAllocK32 b (index >>> 3)).2 else s
  else
    s

def allocK8 (b index : Nat) (s : Kmem) : Kmem :=
  let s := (s.markAllocK4 b ((index <<< 1) + 0)).2
  let s := (s.markAllocK4 b ((index <<< 1) + 1)).2
  let s := (s.markAllocK8 b index).2
  let (res16, s) := s.markAllocK16 b (index >>> 1)
  if res16 ≠ 0 then (s.markAllocK32 b (index >>> 2)).2 else s

def allocK16 (b bit : Nat) (s : Kmem) : Kmem :=
  let s := (s.markAllocK4 b ((bit <<< 2) + 0)).2
  let s := (s.markAllocK4 b ((bit <<< 2) + 1)).2
  let s := (s.markAllocK4 b ((bit <<< 2) + 2)).2
  let s := (s.markAllocK4 b ((bit <<< 2) + 3)).2
  let s := (s.markAllocK8 b ((bit <<< 1) + 0)).2
  let s := (s.markAllocK8 b ((bit <<< 1) + 1)).2
  let s := (s.markAllocK16 b bit).2
  (s.markAllocK32 b (bit >>> 1)).2

def allocK32 (b bit : Nat) (s : Kmem) : Kmem :=
  let s := (s.markAllocK32 b bit).2
  let s := (List.range 8).foldl (fun s i => (s.markAllocK4 b ((bit <<< 3) + i)).2) s
  let s := (s.markAllocK8 b ((bit <<< 2) + 0)).2
  let s := (s.markAllocK8 b ((bit <<< 2) + 1)).2
  let s := (s.markAllocK8 b ((bit <<< 2) + 2)).2
  let s := (s.markAllocK8 b ((bit <<< 2) + 3)).2
  let s := (s.markAllocK16 b ((bit <<< 1) + 0)).2
  (s.markAllocK16 b ((bit <<< 1) + 1)).2

/-- The marks of `alloc<N>` once the index is found. -/
def allocAt : BlockSize → Nat → Nat → Kmem → Kmem
  | .k4 => allocK4
  | .k8 => allocK8
  | .k16 => allocK16
  | .k32 => allocK32

/-- `my_first_page` of buddy `b`. -/
def myFirstPage (s : Kmem) (b : Nat) : Nat :=
  (s.buddyArray + s.buddyArraySize + (b <<< 19)) % 2 ^ 32

/-- The address of block `index` of size `N` in buddy `b`. -/
def blockAddr (s : Kmem) (n : BlockSize) (b index : Nat) : Nat :=
  (s.myFirstPage b + (index <<< n.shift)) % 2 ^ 32

/-- `buddy::alloc<N>` -/
def alloc (n : BlockSize) (b : Nat) (s : Kmem) : Except Fault (Nat × Kmem) := do
  let index ← s.findFree n b
  return (s.blockAddr n b index, s.allocAt n b index)

def freeDownK8 (b index : Nat) (s : Kmem) : Kmem :=
  let index := index <<< 1
  (s.markFreeK4 b index).markFreeK4 b (index ^^^ 1)

def freeDownK16 (b index : Nat) (s : Kmem) : Kmem :=
  let index := index <<< 1
  let s := (s.markFreeK8 b index).freeDownK8 b index
  (s.markFreeK8 b (index ^^^ 1)).freeDownK8 b (index ^^^ 1)

def freeDownK32 (b index : Nat) (s : Kmem) : Kmem :=
  let index := index <<< 1
  let s := (s.markFreeK16 b index).freeDownK16 b index
  (s.markFreeK16 b (index ^^^ 1)).freeDownK16 b (index ^^^ 1)

/-- `free_down<N>` -/
def freeDown : BlockSize → Nat → Nat → Kmem → Kmem
  | .k4 => fun _ _ s => s
  | .k8 => freeDownK8
  | .k16 => freeDownK16
  | .k32 => freeDownK32

def freeUpK32 (b index : Nat) (s : Kmem) : Kmem := s.markFreeK32 b index

def freeUpK16 (b index : Nat) (s : Kmem) : Kmem :=
  let s := s.markFreeK16 b index
  let index := index ^^^ 1
  if (s.bits .k16 b).word 0 &&& 1#_ <<< index ≠ 0 then s.freeUpK32 b (index >>> 1) else s

def freeUpK8 (b index : Nat) (s : Kmem) : Kmem :=
  let s := s.markFreeK8 b index
  let index := index ^^^ 1
  if (s.bits .k8 b).word (index >>> 5) &&& 1#_ <<< (index &&& 0x1F) ≠ 0 then
    s.freeUpK16 b (index >>> 1)
  else
    s

def freeUpK4 (b index : Nat) (s : Kmem) : Kmem :=
  let s := s.markFreeK4 b index
  let index := index ^^^ 1
  if (s.bits .k4 b).word (index >>> 5) &&& 1#_ <<< (index &&& 0x1F) ≠ 0 then
    s.freeUpK8 b (index >>> 1)
  else
    s

/-- `free_up<N>` -/
def freeUp : BlockSize → Nat → Nat → Kmem → Kmem
  | .k4 => freeUpK4
  | .k8 => freeUpK8
  | .k16 => freeUpK16
  | .k32 => freeUpK32

/-- `buddy::free<N>` -/
def free (n : BlockSize) (b index : Nat) (s : Kmem) : Kmem :=
  (s.freeUp n b index).freeDown n b index

/-- The part of `kmem_buddy_new_no_alloc` after its assertion: all ones in the bitmaps, and
the new buddy in front of the four lists. The back pointer of a list's old first buddy is
not written. -/
def buddyNewNoAlloc (s : Kmem) : Kmem :=
  let pos := s.buddyArrayPos
  { s with
    buddyArrayPos := pos + 1
    bits := fun n => Function.update (s.bits n) pos (.ones n.width n.words)
    links := fun n => (s.links n).pushFrontStale pos }

end Kmem

end TinyLittleOs.Memory
