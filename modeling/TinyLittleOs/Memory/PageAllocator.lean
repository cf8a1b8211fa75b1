import TinyLittleOs.Memory.Buddy
import TinyLittleOs.Lib.ByteMem

/-!
# The page allocators

`page_allocator.cpp` over one `Machine`: the globals of kmem and hmem, physical memory and
the two registers the allocators read. An address is a `Nat` below `2 ^ 32`; a kmem pointer
reads and writes the physical byte at `from_kmem` of it, which is where the page tables lead
while nothing is mapped over kmem. Interrupt and preemption locks have no effect that the
allocators see and are left out.
-/

namespace TinyLittleOs.Memory

open Lib

/-! ## Addresses -/

/-- `phys_t::to_virt` -/
@[irreducible] def toVirt (phys : Nat) : Nat := (phys + 0xC0000000) % 2 ^ 32

/-- `phys_t::from_kmem` -/
@[irreducible] def fromKmem (virt : Nat) : Nat := (virt + (2 ^ 32 - 0xC0000000)) % 2 ^ 32

/-- `phys_t::align_page_down` -/
def alignPageDown (phys : Nat) : Nat := (phys >>> 12) <<< 12

/-- `phys_t::align_page_up` -/
def alignPageUp (phys : Nat) : Nat := (((phys + 4095) % 2 ^ 32) >>> 12) <<< 12

/-- `page_flag::present` -/
def present : Nat := 1

/-- `page_flag::write` -/
def write : Nat := 1 <<< 1

/-- `page_flag::user` -/
def user : Nat := 1 <<< 2

def prwr : Nat := present ||| write

/-- The values of `for (addr = start; addr < stop; addr += step)`. The loops below never come
within `step` of `2 ^ 32`. -/
def addrs (start stop step : Nat) : List Nat :=
  List.range' start ((stop - start + (step - 1)) / step) step

/-! ## The machine -/

structure Machine where
  /-- `&_kernel_end` -/
  kernelEnd : Nat
  /-- The address of `first_page_directory`. -/
  firstPageDirectory : Nat
  ramAmount : Nat
  kmem : Kmem
  kmemPhysEnd : Nat
  kmemRegionEnd : Nat
  hmemPhysEnd : Nat
  hmemPhysList : Nat
  /-- Physical memory. -/
  mem : ByteMem
  cr3 : Nat
  /-- `hmem_end` of the current task. -/
  hmemEnd : Nat

namespace Machine

/-- Read the word a kmem pointer points at. -/
def load (s : Machine) (virt : Nat) : Nat := s.mem.load32 (fromKmem virt)

def store (s : Machine) (virt v : Nat) : Machine :=
  { s with mem := s.mem.store32 (fromKmem virt) v }

def memset (s : Machine) (virt : Nat) (v : BitVec 8) (n : Nat) : Machine :=
  { s with mem := s.mem.fill (fromKmem virt) v n }

def memcpy (s : Machine) (dst src n : Nat) : Machine :=
  { s with mem := s.mem.copy (fromKmem dst) (fromKmem src) n }

/-! ## kmem -/

/-- `buddy_alloc<N>` -/
def buddyAlloc (n : BlockSize) (s : Machine) : Except Fault (Option Nat × Machine) :=
  match (s.kmem.links n).next none with
  | some b => do
    let (res, kmem) ← s.kmem.alloc n b
    return (some res, { s with kmem }.memset res 0x41 n.bytes)
  | none => return (none, s)

def kmemBuddyNewNoAlloc (s : Machine) : Except Fault Machine :=
  if s.kmem.buddyArrayPos * 64 % 2 ^ 32 < s.kmem.buddyArraySize then
    return { s with kmem := s.kmem.buddyNewNoAlloc }
  else
    throw .buddyArrayFull

/-- The body shared by `kmem_free_4k` to `kmem_free_32k`. -/
def kmemFree (n : BlockSize) (ptr : Nat) (s : Machine) : Except Fault Machine :=
  let buddyRelPos :=
    (ptr + (2 ^ 32 - s.kmem.buddyArray) + (2 ^ 32 - s.kmem.buddyArraySize)) % 2 ^ 32
  if buddyRelPos &&& (n.bytes - 1) ≠ 0 then
    throw (.freeUnaligned n)
  else
    let allocIndex := (buddyRelPos &&& 0x7FFFF) >>> n.shift
    return { s with kmem := s.kmem.free n (buddyRelPos >>> 19) allocIndex }

def kmemFree4k : Nat → Machine → Except Fault Machine := kmemFree .k4
def kmemFree8k : Nat → Machine → Except Fault Machine := kmemFree .k8
def kmemFree16k : Nat → Machine → Except Fault Machine := kmemFree .k16
def kmemFree32k : Nat → Machine → Except Fault Machine := kmemFree .k32

/-- The page table a directory entry points at. -/
def tableOf (dirEntry : Nat) : Nat := toVirt (alignPageDown dirEntry)

/-- `_map_page`, with the `kmem_alloc_4k` that it calls. -/
def mapPage (alloc4k : Machine → Except Fault (Nat × Machine)) (virt pdeFlags pte pd : Nat)
    (s : Machine) : Except Fault Machine :=
  if virt &&& 0xFFF ≠ 0 then
    throw .virtUnaligned
  else
    let dirIndex := virt >>> 22
    let tabIndex := virt >>> 12 &&& 0x03FF
    let dirEntry := pd + 4 * dirIndex
    if s.load dirEntry &&& present ≠ 0 then
      return s.store (tableOf (s.load dirEntry) + 4 * tabIndex) pte
    else do
      let (pageTable, s) ← alloc4k s
      if s.load dirEntry &&& present ≠ 0 then
        -- the allocation created this page table meanwhile
        let s ← s.kmemFree4k pageTable
        return s.store (tableOf (s.load dirEntry) + 4 * tabIndex) pte
      else
        let s := s.memset pageTable 0 4096
        let s := s.store dirEntry (fromKmem pageTable ||| pdeFlags)
        return s.store (pageTable + 4 * tabIndex) pte

/-- `kmem_buddy_new`, with the `kmem_alloc_4k` that its `_map_page` calls. -/
def kmemBuddyNew (alloc4k : Machine → Except Fault (Nat × Machine)) (s : Machine) :
    Except Fault Machine := do
  let s ← s.kmemBuddyNewNoAlloc
  let start := s.kmem.myFirstPage (s.kmem.buddyArrayPos - 1)
  let stop := (start + (1 <<< 19)) % 2 ^ 32
  let s ← (addrs start stop 4096).foldlM (fun s addr =>
    s.mapPage alloc4k addr prwr (prwr ||| fromKmem addr) s.firstPageDirectory) s
  if toVirt s.kmemPhysEnd ≠ start then
    throw .physEndNotStart
  else
    let s := { s with kmemPhysEnd := (s.kmemPhysEnd + (1 <<< 19)) % 2 ^ 32 }
    if s.kmemPhysEnd < s.kmemRegionEnd then return s else throw .regionEnd

/-- The body shared by `kmem_alloc_4k` to `kmem_alloc_32k`; the fuel bounds the nesting of
`kmem_alloc`, `kmem_buddy_new` and `_map_page`. -/
def kmemAllocFuel : Nat → BlockSize → Machine → Except Fault (Nat × Machine)
  | 0, _, _ => throw .outOfFuel
  | fuel + 1, n, s => do
    match ← s.buddyAlloc n with
    | (some result, s) => return (result, s)
    | (none, s) =>
      let s ← s.kmemBuddyNew (kmemAllocFuel fuel .k4)
      match ← s.buddyAlloc n with
      | (some result, s) => return (result, s)
      | (none, _) => throw .resultNull

/-- One nested allocation is enough: it finds the buddy that the outer one created. -/
def kmemAlloc (n : BlockSize) (s : Machine) : Except Fault (Nat × Machine) := kmemAllocFuel 2 n s

def kmemAlloc4k : Machine → Except Fault (Nat × Machine) := kmemAlloc .k4
def kmemAlloc8k : Machine → Except Fault (Nat × Machine) := kmemAlloc .k8
def kmemAlloc16k : Machine → Except Fault (Nat × Machine) := kmemAlloc .k16
def kmemAlloc32k : Machine → Except Fault (Nat × Machine) := kmemAlloc .k32

/-- The physical address of a virtual one, through the page tables. -/
def translate (s : Machine) (virt : Nat) : Option Nat :=
  let dirEntry := s.load (toVirt s.cr3 + 4 * (virt >>> 22))
  if dirEntry &&& present = 0 then none
  else
    let entry := s.load (tableOf dirEntry + 4 * (virt >>> 12 &&& 0x03FF))
    if entry &&& present = 0 then none
    else some (alignPageDown entry + (virt &&& 0xFFF))

/-- `memcpy` of a page. The pointers go through the page tables of the current address space, where
something else may be mapped than `from_kmem` says. -/
def copyPage (dst src : Nat) (s : Machine) : Except Fault Machine :=
  match s.translate dst, s.translate src with
  | some a, some b => return { s with mem := s.mem.copy a b 4096 }
  | _, _ => throw .pageFault

def newPageDirectory (s : Machine) : Except Fault (Nat × Machine) := do
  let (pageTable, s) ← s.kmemAlloc4k
  let s ← s.copyPage pageTable s.firstPageDirectory
  return (fromKmem pageTable, s)

/-! ## hmem -/

/-- The constructor of `scoped_hmem_mapping`, for the task whose `hmem_end` is mapped. -/
def hmemMap (addr : Nat) (s : Machine) : Except Fault Machine :=
  let hmemEnd := (s.hmemEnd + (2 ^ 32 - 4096)) % 2 ^ 32
  let pte := addr ||| prwr
  let dirIndex := hmemEnd >>> 22
  if dirIndex ≠ 0x03FF then
    throw .mappingFull
  else
    let tabIndex := hmemEnd >>> 12 &&& 0x03FF
    let dirEntry := s.load (toVirt s.cr3 + 4 * dirIndex)
    if dirEntry &&& present = 0 then
      throw .mappingTable
    else
      return { s with hmemEnd }.store (tableOf dirEntry + 4 * tabIndex) pte

/-- The destructor of `scoped_hmem_mapping`; its assertion holds in a scope that opens no
other mapping. -/
def hmemUnmap (s : Machine) : Machine := { s with hmemEnd := (s.hmemEnd + 4096) % 2 ^ 32 }

/-- The physical address behind offset 0 of the mapping that `hmemMap` made: the frame of the
entry it wrote. -/
def hmemFrame (addr : Nat) : Nat := alignPageDown (addr ||| prwr)

def hmemAllocPage (s : Machine) : Except Fault (Nat × Machine) :=
  if s.hmemPhysList = 0 then
    let s := { s with hmemPhysEnd := (s.hmemPhysEnd + (2 ^ 32 - 4096)) % 2 ^ 32 }
    if s.kmemPhysEnd < s.hmemPhysEnd then return (s.hmemPhysEnd, s) else throw .heapsMeet
  else do
    let result := s.hmemPhysList
    let s ← s.hmemMap result
    let s := { s with hmemPhysList := s.mem.load32 (hmemFrame result) }
    return (result, s.hmemUnmap)

def hmemFreePage (addr : Nat) (s : Machine) : Except Fault Machine :=
  if s.hmemPhysEnd ≤ addr then
    if s.hmemPhysList = 0 then
      return { s with hmemPhysList := addr }
    else do
      let s ← s.hmemMap addr
      let s := { s with mem := s.mem.store32 (hmemFrame addr) s.hmemPhysList, hmemPhysList := addr }
      return s.hmemUnmap
  else
    throw .belowHmem

/-! ## Initialization -/

/-- The number of pages in the system. -/
def totalPageCount (s : Machine) : Nat := ((s.ramAmount + 4095) % 2 ^ 32) >>> 12

/-- Each buddy is for 128 pages. -/
def totalBuddyCount (s : Machine) : Nat := (s.totalPageCount + 127) >>> 7

/-- There are 64 buddies in a page. -/
def totalBuddyPageCount (s : Machine) : Nat := (s.totalBuddyCount + 63) >>> 6

def buddyMemoryPhys (s : Machine) : Nat := alignPageUp (fromKmem s.kernelEnd)

/-- Aligned up to 32 KiB, so that allocations are aligned. -/
def buddyArrayEnd (s : Machine) : Nat :=
  (((toVirt s.buddyMemoryPhys + (s.totalBuddyPageCount <<< 12) + 32767) % 2 ^ 32) >>> 15) <<< 15

def initBuddyArraySize (s : Machine) : Nat :=
  (s.buddyArrayEnd + (2 ^ 32 - toVirt s.buddyMemoryPhys)) % 2 ^ 32

def buddyMemoryEndPhys (s : Machine) : Nat := (s.buddyMemoryPhys + s.initBuddyArraySize) % 2 ^ 32

/-- The kmem globals before the first buddy: `memset(&kmem_allocator, 0, ..)` clears the list
heads, and the memory of the buddies is whatever it was. -/
def initKmem (s : Machine) : Kmem :=
  { s.kmem with
    buddyArray := toVirt s.buddyMemoryPhys
    buddyArraySize := s.initBuddyArraySize
    buddyArrayPos := 0
    links := fun n => (s.kmem.links n).setNext none none }

/-- `init_page_allocator` up to the loop that maps the kernel. -/
def initGlobals (s : Machine) : Except Fault Machine := do
  let kmemRegionEnd := (s.buddyMemoryEndPhys + (s.totalPageCount <<< 12)) % 2 ^ 32
  let s' ← { s with kmem := s.initKmem }.kmemBuddyNewNoAlloc
  return { s' with
    kmemPhysEnd := (s.buddyMemoryEndPhys + (1 <<< 19)) % 2 ^ 32
    kmemRegionEnd := if kmemRegionEnd > 0x38000000 then 0x38000000 else kmemRegionEnd
    hmemPhysEnd := alignPageDown ((0x100000 + s.ramAmount) % 2 ^ 32)
    hmemPhysList := 0 }

/-- The round of the last loop of `init_page_allocator` for one directory entry. -/
def initTable (s : Machine) (addr : Nat) : Except Fault Machine :=
  let dirEntry := s.firstPageDirectory + 4 * (addr >>> 22)
  if s.load dirEntry &&& present ≠ 0 then
    throw .tablePresent
  else do
    let (pageTable, s) ← s.kmemAlloc4k
    let s := s.memset pageTable 0 4096
    return s.store dirEntry (fromKmem pageTable ||| present ||| write)

def initPageAllocator (s : Machine) : Except Fault Machine := do
  let s ← s.initGlobals
  let initiallyMapped := toVirt s.kmemPhysEnd
  let s := s.memset s.firstPageDirectory 0 4096
  let s ← (addrs 0xC0000000 initiallyMapped 4096).foldlM (fun s addr =>
    s.mapPage kmemAlloc4k addr prwr (fromKmem addr ||| prwr) s.firstPageDirectory) s
  let s := { s with cr3 := fromKmem s.firstPageDirectory }
  let start := (((initiallyMapped + ((1 <<< 22) - 1)) % 2 ^ 32) >>> 22) <<< 22
  (addrs start (toVirt s.kmemRegionEnd) (1 <<< 22)).foldlM initTable s

end Machine

end TinyLittleOs.Memory
