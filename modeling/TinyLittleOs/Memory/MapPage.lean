import TinyLittleOs.Lib.Outcome
import TinyLittleOs.Memory.PageAllocator
import TinyLittleOs.Memory.KmemBlocks

/-!
# Page tables and `_map_page`

Where the buddies lie, and what the writes of the allocators do to `first_page_directory`:
an entry that is present stays present, since blocks lie above the directory and whatever
`_map_page` writes elsewhere has the present bit.
-/

namespace TinyLittleOs.Memory

open Lib

/-! ## Addresses of blocks -/

namespace Kmem

/-- The first page of the first buddy. -/
def base (s : Kmem) : Nat := s.buddyArray + s.buddyArraySize

/-- All created buddies lie below the end of the address space, aligned to 32 KiB. -/
structure Placed (s : Kmem) : Prop where
  aligned : s.base % 2 ^ 15 = 0
  top : s.base + s.buddyArrayPos * 2 ^ 19 ≤ 2 ^ 32

theorem SameBut.base {b : Nat} {s s' : Kmem} (h : SameBut b s s') : s'.base = s.base := by
  rw [Kmem.base, Kmem.base, h.array, h.size]

theorem SameBut.placed {b : Nat} {s s' : Kmem} (h : SameBut b s s') (hp : s.Placed) :
    s'.Placed := by
  refine ⟨h.base ▸ hp.aligned, ?_⟩
  rw [h.base, h.pos]
  exact hp.top

theorem SameBut.blockAddr {b : Nat} {s s' : Kmem} (h : SameBut b s s') (n : BlockSize)
    (b' i : Nat) : s'.blockAddr n b' i = s.blockAddr n b' i := by
  simp only [Kmem.blockAddr, myFirstPage, h.array, h.size]

variable {s : Kmem} (h : s.Placed) {n : BlockSize} {b i : Nat} (hb : b < s.buddyArrayPos)
include h hb

theorem Placed.myFirstPage : s.myFirstPage b = s.base + b * 2 ^ 19 := by
  have := h.top
  rw [Kmem.myFirstPage, Nat.shiftLeft_eq]
  exact Nat.mod_eq_of_lt (by unfold base at this; omega)

theorem Placed.blockAddr (hi : i < n.count) :
    s.blockAddr n b i = s.base + b * 2 ^ 19 + i * n.bytes := by
  have := h.top
  have hle : i * n.bytes < 2 ^ 19 := by
    cases n <;> simp only [BlockSize.count, BlockSize.bytes, BlockSize.shift] at * <;> omega
  rw [Kmem.blockAddr, h.myFirstPage hb, Nat.shiftLeft_eq]
  exact Nat.mod_eq_of_lt (by unfold BlockSize.bytes at hle; omega)

end Kmem

/-! ## The page directory -/

namespace Machine

/-- The directory lies in the kernel image, below the buddies. -/
structure Layout (s : Machine) : Prop extends s.kmem.Placed where
  dirLo : 0xC0000000 ≤ s.firstPageDirectory
  dirHi : s.firstPageDirectory + 4096 ≤ s.kmem.base
  dirAligned : s.firstPageDirectory % 4096 = 0

/-- Entry `d` of `first_page_directory` is present. -/
def HasTable (s : Machine) (d : Nat) : Prop :=
  s.load (s.firstPageDirectory + 4 * d) &&& present ≠ 0

instance (s : Machine) (d : Nat) : Decidable (s.HasTable d) := inferInstanceAs (Decidable (_ ≠ _))

/-- From `s` to `s'` only kmem's structures and memory may change, and page tables stay. -/
structure Keeps (s s' : Machine) : Prop where
  globals : s' = { s with kmem := s'.kmem, mem := s'.mem }
  tables : ∀ d < 1024, s.HasTable d → s'.HasTable d

theorem Keeps.refl (s : Machine) : Keeps s s := ⟨rfl, fun _ _ h => h⟩

theorem Keeps.trans {s s' s'' : Machine} (h : Keeps s s') (h' : Keeps s' s'') : Keeps s s'' := by
  refine ⟨?_, fun d hd ht => h'.tables d hd (h.tables d hd ht)⟩
  rw [h'.globals, h.globals]

theorem Keeps.dir {s s' : Machine} (h : Keeps s s') :
    s'.firstPageDirectory = s.firstPageDirectory := by
  rw [h.globals]

theorem Layout.fromKmem_entry {s : Machine} (h : s.Layout) {d : Nat} (hd : d < 1024) :
    fromKmem (s.firstPageDirectory + 4 * d) = s.firstPageDirectory - 0xC0000000 + 4 * d := by
  have hlo := h.dirLo
  have hhi := h.dirHi
  have htop := h.top
  unfold fromKmem
  omega

/-- Where the directory is, an entry is present when its lowest byte is odd. -/
theorem Layout.hasTable_iff {s : Machine} (h : s.Layout) {d : Nat} (hd : d < 1024) :
    s.HasTable d ↔ (s.mem (s.firstPageDirectory - 0xC0000000 + 4 * d)).toNat % 2 = 1 := by
  rw [HasTable, load, h.fromKmem_entry hd, present, ByteMem.load32_and_one]
  omega

/-- A write that leaves the directory's bytes odd or alone keeps the page tables. -/
theorem Layout.keeps {s s' : Machine} (h : s.Layout) (h' : s'.Layout)
    (hg : s' = { s with kmem := s'.kmem, mem := s'.mem })
    (hm : ∀ d < 1024, (s'.mem (s.firstPageDirectory - 0xC0000000 + 4 * d)).toNat % 2 = 1 ∨
      s'.mem (s.firstPageDirectory - 0xC0000000 + 4 * d) =
        s.mem (s.firstPageDirectory - 0xC0000000 + 4 * d)) : Keeps s s' := by
  refine ⟨hg, fun d hd ht => ?_⟩
  have hdir : s'.firstPageDirectory = s.firstPageDirectory := by rw [hg]
  rw [h'.hasTable_iff hd, hdir]
  rcases hm d hd with hodd | heq
  · exact hodd
  · rw [heq]
    exact (h.hasTable_iff hd).1 ht

@[simp] theorem store_kmem (s : Machine) (a v : Nat) : (s.store a v).kmem = s.kmem := by
  rw [store]

@[simp] theorem store_dir (s : Machine) (a v : Nat) :
    (s.store a v).firstPageDirectory = s.firstPageDirectory := by
  rw [store]

@[simp] theorem memset_kmem (s : Machine) (a : Nat) (v : BitVec 8) (n : Nat) :
    (s.memset a v n).kmem = s.kmem := by
  rw [memset]

@[simp] theorem memset_dir (s : Machine) (a : Nat) (v : BitVec 8) (n : Nat) :
    (s.memset a v n).firstPageDirectory = s.firstPageDirectory := by
  rw [memset]

theorem store_mem (s : Machine) (a v : Nat) :
    (s.store a v).mem = s.mem.store32 (fromKmem a) v := by
  rw [store]

theorem memset_mem (s : Machine) (a : Nat) (v : BitVec 8) (n : Nat) :
    (s.memset a v n).mem = s.mem.fill (fromKmem a) v n := by
  rw [memset]

/-- The layout does not depend on memory. -/
theorem Layout.congr {s s' : Machine} (h : s.Layout) (hp : s'.kmem.Placed)
    (hb : s'.kmem.base = s.kmem.base) (hd : s'.firstPageDirectory = s.firstPageDirectory) :
    s'.Layout :=
  ⟨hp, hd ▸ h.dirLo, hd ▸ hb ▸ h.dirHi, hd ▸ h.dirAligned⟩

theorem Layout.store {s : Machine} (h : s.Layout) (a v : Nat) : (s.store a v).Layout :=
  h.congr (by simpa using h.toPlaced) (by simp) (by simp)

theorem Layout.memset {s : Machine} (h : s.Layout) (a : Nat) (v : BitVec 8) (n : Nat) :
    (s.memset a v n).Layout :=
  h.congr (by simpa using h.toPlaced) (by simp) (by simp)

/-- A store of an odd word at an aligned address keeps the page tables. -/
theorem Layout.store_keeps {s : Machine} (h : s.Layout) {a v : Nat} (ha : a % 4 = 0)
    (hv : v % 2 = 1) : Keeps s (s.store a v) := by
  have hdir := h.dirAligned
  have hlo := h.dirLo
  refine h.keeps (h.store a v) (by rw [Machine.store]) fun d _ => ?_
  have hp : fromKmem a % 4 = 0 := by
    unfold fromKmem
    omega
  by_cases he : fromKmem a = s.firstPageDirectory - 0xC0000000 + 4 * d
  · refine .inl ?_
    rw [store_mem, he, ByteMem.store32_self_mod_two, hv]
  · exact .inr (ByteMem.store32_of_out (by omega))

/-- Filling memory above the directory leaves its entries alone. -/
theorem Layout.memset_hasTable {s : Machine} (h : s.Layout) {a : Nat} (ha : s.kmem.base ≤ a)
    (ha' : a < 2 ^ 32) (v : BitVec 8) (n : Nat) {d : Nat} (hd : d < 1024) :
    (s.memset a v n).HasTable d ↔ s.HasTable d := by
  have hlo := h.dirLo
  have hhi := h.dirHi
  have hout : s.firstPageDirectory - 0xC0000000 + 4 * d < fromKmem a := by
    unfold fromKmem
    omega
  rw [(h.memset a v n).hasTable_iff hd, h.hasTable_iff hd, memset_dir, memset_mem,
    ByteMem.fill_of_out (.inl hout)]

theorem Layout.memset_keeps {s : Machine} (h : s.Layout) {a : Nat} (ha : s.kmem.base ≤ a)
    (ha' : a < 2 ^ 32) (v : BitVec 8) (n : Nat) : Keeps s (s.memset a v n) :=
  ⟨by rw [Machine.memset], fun _ hd => (h.memset_hasTable ha ha' v n hd).2⟩

/-! ## `_map_page` -/

theorem tableOf_aligned (e i : Nat) : (tableOf e + 4 * i) % 4 = 0 := by
  unfold tableOf toVirt alignPageDown
  rw [Nat.shiftLeft_eq]
  omega

section MapPage

variable {alloc4k : Machine → Except Fault (Nat × Machine)} {virt pdeFlags pte : Nat} {s : Machine}
variable (hl : s.Layout) (hv : virt % 4096 = 0) (hpte : pte % 2 = 1)
include hl hv hpte

variable (alloc4k pdeFlags) in
/-- With its page table present `_map_page` writes one entry. -/
theorem mapPage_of_hasTable (ht : s.HasTable (virt >>> 22)) :
    ∃ s', s.mapPage alloc4k virt pdeFlags pte s.firstPageDirectory = .ok s' ∧
      s'.kmem = s.kmem ∧ Keeps s s' := by
  have hv' : ¬ virt &&& 0xFFF ≠ 0 := by
    rw [Nat.and_two_pow_sub_one_eq_mod virt 12]
    omega
  refine ⟨s.store (tableOf (s.load (s.firstPageDirectory + 4 * (virt >>> 22))) +
    4 * (virt >>> 12 &&& 0x03FF)) pte, ?_, store_kmem _ _ _,
    hl.store_keeps (tableOf_aligned _ _) hpte⟩
  rw [mapPage, if_neg hv']
  dsimp only
  rw [if_pos (show s.load _ &&& present ≠ 0 from ht)]
  rfl

variable (pdeFlags) in
omit hl in
/-- Without one it allocates a page, which becomes the table. -/
theorem mapPage_of_not_hasTable (hlt : virt < 2 ^ 32) (ht : ¬ s.HasTable (virt >>> 22)) {p : Nat}
    {s₁ : Machine} (ha : alloc4k s = .ok (p, s₁)) (hk : Keeps s s₁) (hl₁ : s₁.Layout)
    (ht₁ : ¬ s₁.HasTable (virt >>> 22)) (hp : s₁.kmem.base ≤ p) (hp' : p < 2 ^ 32)
    (hpa : p % 4096 = 0) (hpde : pdeFlags % 2 = 1) :
    ∃ s', s.mapPage alloc4k virt pdeFlags pte s.firstPageDirectory = .ok s' ∧
      s'.kmem = s₁.kmem ∧ Keeps s s' ∧ s'.HasTable (virt >>> 22) := by
  have hv' : ¬ virt &&& 0xFFF ≠ 0 := by
    rw [Nat.and_two_pow_sub_one_eq_mod virt 12]
    omega
  have hd : virt >>> 22 < 1024 := by
    rw [Nat.shiftRight_eq_div_pow]
    omega
  have halign := hl₁.dirAligned
  have hdir := hk.dir
  have hor : (fromKmem p ||| pdeFlags) % 2 = 1 := Nat.or_mod_two_eq_one.2 (.inr hpde)
  have hl₂ := hl₁.memset p 0 4096
  have hk₂ := hl₁.memset_keeps hp hp' 0 4096
  -- the entry is written, and then one entry of the new table
  set s₂ := s₁.memset p 0 4096 with hs₂
  have he : (s₁.firstPageDirectory + 4 * (virt >>> 22)) % 4 = 0 := by omega
  have hl₃ := hl₂.store (s₁.firstPageDirectory + 4 * (virt >>> 22)) (fromKmem p ||| pdeFlags)
  have hk₃ := hl₂.store_keeps he hor
  set s₃ := s₂.store (s₁.firstPageDirectory + 4 * (virt >>> 22)) (fromKmem p ||| pdeFlags) with hs₃
  have ha₄ : (p + 4 * (virt >>> 12 &&& 0x03FF)) % 4 = 0 := by omega
  have hk₄ := hl₃.store_keeps ha₄ hpte
  refine ⟨s₃.store (p + 4 * (virt >>> 12 &&& 0x03FF)) pte, ?_, ?_,
    ((hk.trans hk₂).trans hk₃).trans hk₄, hk₄.tables _ hd ?_⟩
  · rw [mapPage, if_neg hv']
    dsimp only
    rw [if_neg (show ¬ (s.load _ &&& present ≠ 0) from ht), ha, ← hdir, ok_bind]
    dsimp only
    rw [if_neg (show ¬ (s₁.load _ &&& present ≠ 0) from ht₁)]
    rfl
  · rw [store_kmem, hs₃, store_kmem, hs₂, memset_kmem]
  · have hd₃ : s₃.firstPageDirectory = s₁.firstPageDirectory := by
      rw [hs₃, store_dir, hs₂, memset_dir]
    rw [hl₃.hasTable_iff hd, hd₃, hs₃, store_mem, hl₁.fromKmem_entry hd,
      ByteMem.store32_self_mod_two, hor]

end MapPage

/-- A loop of `_map_page` over pages whose tables are present allocates nothing. -/
theorem mapRange_of_hasTable (alloc4k : Machine → Except Fault (Nat × Machine)) {s : Machine}
    (hl : s.Layout) (l : List Nat) (pdeFlags : Nat) (pte : Nat → Nat)
    (h : ∀ a ∈ l, a % 4096 = 0 ∧ a < 2 ^ 32 ∧ s.HasTable (a >>> 22) ∧ pte a % 2 = 1) :
    ∃ s', l.foldlM (fun s a => s.mapPage alloc4k a pdeFlags (pte a) s.firstPageDirectory) s =
      .ok s' ∧ s'.kmem = s.kmem ∧ Keeps s s' := by
  induction l generalizing s with
  | nil => exact ⟨s, rfl, rfl, .refl s⟩
  | cons a l ih =>
    obtain ⟨ha, -, ht, hpte⟩ := h a (by simp)
    obtain ⟨s₁, hs₁, hkmem, hk⟩ := mapPage_of_hasTable alloc4k pdeFlags hl ha hpte ht
    have hl₁ : s₁.Layout := hl.congr (hkmem ▸ hl.toPlaced) (hkmem ▸ rfl) hk.dir
    obtain ⟨s', hs', hkmem', hk'⟩ := ih hl₁ fun b hb => by
      obtain ⟨hb₁, hb₂, hb₃, hb₄⟩ := h b (by simp [hb])
      exact ⟨hb₁, hb₂, hk.tables _ (by rw [Nat.shiftRight_eq_div_pow]; omega) hb₃, hb₄⟩
    refine ⟨s', ?_, hkmem'.trans hkmem, hk.trans hk'⟩
    rw [List.foldlM_cons, hs₁]
    exact hs'

end Machine

end TinyLittleOs.Memory
