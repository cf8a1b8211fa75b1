import TinyLittleOs.Ds.Bitset

/-!
# The slab allocator

`memory::untyped_slab_allocator<N>` of `slab.hpp`. A slab is one block of pages: a bit set
of its free slots, the link to the next slab with a free slot, and the slots.
-/

namespace TinyLittleOs.Memory

open Lib Ds

namespace Slab

/-- `get_metadata_size` -/
def metadataSize (N pageSize : Nat) : Nat :=
  let bitsInSet := pageSize / N
  let bytesForSet := (bitsInSet + 31) / 32 * 4
  4 + bytesForSet

/-- `waste_pct` -/
def wastePct (N pageSize : Nat) : Int :=
  if pageSize < N then
    1000
  else
    let wasteBytes := pageSize - (pageSize - metadataSize N pageSize) / N * N
    100 * wasteBytes / pageSize

/-- `get_page_size` -/
def pageSize (N : Nat) : Nat :=
  let w1 := wastePct N 4096
  let w2 := wastePct N 8192
  let w3 := wastePct N 16384
  let w4 := wastePct N 32768
  if w4 < w3 - 5 then 32768
  else if w3 < w2 - 5 then 16384
  else if w2 < w1 - 5 then 8192
  else 4096

example : pageSize 2049 = 32768 ∧ pageSize 2000 = 4096 ∧ pageSize 17 = 4096 := by decide

/-- `num_objects_in_page` -/
def numObjects (N : Nat) : Nat := (pageSize N - metadataSize N (pageSize N)) / N

/-- The number of bits of `m_bits`. -/
def bits (N : Nat) : Nat := pageSize N / N

/-- The offset of `m_next`. -/
def nextOffset (N : Nat) : Nat := 4 * Bitset.intCount (bits N)

/-- `sizeof(slab)` -/
def slabSize (N : Nat) : Nat := nextOffset N + 4

/-- The slab of a pointer, in `free`. -/
def pageStart (N ptr : Nat) : Nat := ptr / pageSize N * pageSize N

/-- The bit of a pointer, in `free`. -/
def bitOf (N ptr : Nat) : Nat := (ptr + 2 ^ 32 - pageStart N ptr - slabSize N) % 2 ^ 32 / N

/-- The memory and `m_free_list`. -/
structure Heap where
  mem : ByteMem
  freeList : Nat

namespace Heap

/-- The first branch of `allocate`; `page` is what `kmem_alloc_pages` returns if it is called. -/
def refill (N : Nat) (h : Heap) (page : Nat) : Heap :=
  if h.freeList = 0 then
    let mem := Bitset.clearAll h.mem page (bits N)
    let mem := Bitset.setAllUntil mem page (numObjects N)
    let mem := mem.store32 (page + nextOffset N) 0
    ⟨mem, page⟩
  else
    h

/-- The slab and the bit that `allocate` clears. -/
def slot (N : Nat) (h : Heap) : Nat × Nat := (h.freeList, Bitset.findBit h.mem h.freeList (bits N))

/-- The rest of `allocate`, where the free list is not empty. -/
def take (N : Nat) (h : Heap) : Nat × Heap :=
  let (s, availableBit) := h.slot N
  let mem := Bitset.clearBit h.mem s availableBit
  let freeList :=
    if Bitset.allClearUntil mem s (numObjects N) then
      mem.load32 (s + nextOffset N)
    else
      h.freeList
  ((s + slabSize N + N * availableBit) % 2 ^ 32, ⟨mem, freeList⟩)

/-- `allocate` -/
def allocate (N : Nat) (h : Heap) (page : Nat) : Nat × Heap := (h.refill N page).take N

/-- `free` -/
def free (N : Nat) (h : Heap) (ptr : Nat) : Heap :=
  let s := pageStart N ptr
  let bit := bitOf N ptr
  let h :=
    if Bitset.allClearUntil h.mem s (numObjects N) then
      ⟨h.mem.store32 (s + nextOffset N) h.freeList, s⟩
    else
      h
  { h with mem := Bitset.setBit h.mem s bit }

end Heap

/-! ## The layout of a slab -/

theorem pageSize_cases (N : Nat) :
    pageSize N = 4096 ∨ pageSize N = 8192 ∨ pageSize N = 16384 ∨ pageSize N = 32768 := by
  rw [pageSize]
  split_ifs <;> simp

theorem slabSize_eq (N : Nat) : slabSize N = metadataSize N (pageSize N) := by
  rw [slabSize, nextOffset, Bitset.intCount, metadataSize, bits]
  omega

variable {N : Nat}

/-- A slab has room for its header and an object. -/
theorem slabSize_add_le (hN : 0 < N) (hN' : N < 4000) : slabSize N + N ≤ pageSize N := by
  rw [slabSize, nextOffset, Bitset.intCount, bits]
  have hle : pageSize N / N ≤ pageSize N := Nat.div_le_self _ _
  by_cases hbig : N ≤ 2048
  · rcases pageSize_cases N with h | h | h | h <;> omega
  · have hdiv : pageSize N / N ≤ pageSize N / 2049 := Nat.div_le_div_left (by omega) (by norm_num)
    rcases pageSize_cases N with h | h | h | h <;> omega

/-- The objects of a slab end before its page does. -/
theorem numObjects_mul_le (hN : 0 < N) (hN' : N < 4000) :
    slabSize N + N * numObjects N ≤ pageSize N := by
  have hroom := slabSize_add_le hN hN'
  rw [slabSize_eq] at *
  have hmul := Nat.mul_div_le (pageSize N - metadataSize N (pageSize N)) N
  rw [numObjects]
  omega

/-- Object `i` of a slab lies behind the header and in the page. -/
theorem object_le (hN : 0 < N) (hN' : N < 4000) {i : Nat} (hi : i < numObjects N) :
    slabSize N + N * i + N ≤ pageSize N := by
  have hmul : N * (i + 1) ≤ N * numObjects N := Nat.mul_le_mul_left N hi
  have hle := numObjects_mul_le hN hN'
  rw [Nat.mul_succ] at hmul
  omega

theorem numObjects_pos (hN : 0 < N) (hN' : N < 4000) : 0 < numObjects N := by
  have hroom := slabSize_add_le hN hN'
  rw [slabSize_eq] at hroom
  exact Nat.div_pos (by omega) hN

/-- There is a bit for each object. -/
theorem numObjects_le (N : Nat) : numObjects N ≤ 32 * Bitset.intCount (bits N) := by
  have hle : numObjects N ≤ bits N := Nat.div_le_div_right (Nat.sub_le _ _)
  rw [Bitset.intCount]
  omega

theorem pageSize_pos (N : Nat) : 0 < pageSize N := by
  rcases pageSize_cases N with h | h | h | h <;> omega

/-- The decoding of `free` inverts the encoding of `allocate`. -/
theorem pageStart_object (hN : 0 < N) (hN' : N < 4000) {s i : Nat} (hs : pageSize N ∣ s)
    (hi : i < numObjects N) : pageStart N (s + slabSize N + N * i) = s := by
  have hle := object_le hN hN' hi
  obtain ⟨k, rfl⟩ := hs
  rw [pageStart, Nat.add_assoc, Nat.mul_add_div (pageSize_pos N),
    Nat.div_eq_of_lt (by omega : slabSize N + N * i < pageSize N), Nat.add_zero, Nat.mul_comm]

theorem bitOf_object (hN : 0 < N) (hN' : N < 4000) {s i : Nat} (hs : pageSize N ∣ s)
    (hi : i < numObjects N) : bitOf N (s + slabSize N + N * i) = i := by
  have hle := object_le hN hN' hi
  have hpage : pageSize N ≤ 32768 := by
    rcases pageSize_cases N with h | h | h | h <;> omega
  have hsub : s + slabSize N + N * i + 2 ^ 32 - s - slabSize N = N * i + 2 ^ 32 := by omega
  rw [bitOf, pageStart_object hN hN' hs hi, hsub, Nat.add_mod_right, Nat.mod_eq_of_lt (by omega),
    Nat.mul_div_cancel_left i hN]

end Slab

end TinyLittleOs.Memory
