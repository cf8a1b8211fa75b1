import TinyLittleOs.Lib.PageTables
import TinyLittleOs.Memory.KmemMarks

/-!
# Address spaces

Physical memory as pages of entries, the walk through a page directory, and what `_map_page` and
the allocations that it nests do to the walks of all directories of a set.
-/

namespace TinyLittleOs.Memory

open Lib

/-- The page that a directory entry leads to. -/
def tablePage (e : Nat) : Option Nat := if e &&& present = 0 then none else some (e / 2 ^ 12)

/-- The index of an address in a page directory. -/
def dirOf (virt : Nat) : Fin 1024 := Fin.ofNat 1024 (virt / 2 ^ 22)

/-- The index of an address in a page table. -/
def tabOf (virt : Nat) : Fin 1024 := Fin.ofNat 1024 (virt / 2 ^ 12)

theorem dirOf_val {virt : Nat} (h : virt < 2 ^ 32) : (dirOf virt : Nat) = virt >>> 22 := by
  rw [dirOf, Fin.val_ofNat, Nat.shiftRight_eq_div_pow]
  omega

theorem tabOf_val (virt : Nat) : (tabOf virt : Nat) = virt >>> 12 &&& 0x03FF := by
  rw [tabOf, Fin.val_ofNat, Nat.shiftRight_eq_div_pow, Nat.and_two_pow_sub_one_eq_mod _ 10]

/-- A page is found by its two indices. -/
theorem eq_of_indices {a b : Nat} (ha : a % 4096 = 0) (hb : b % 4096 = 0) (ha' : a < 2 ^ 32)
    (hb' : b < 2 ^ 32) (hdir : dirOf a = dirOf b) (htab : tabOf a = tabOf b) : a = b := by
  have hdir := congrArg Fin.val hdir
  have htab := congrArg Fin.val htab
  simp only [dirOf, tabOf, Fin.val_ofNat] at hdir htab
  omega

theorem indices_add {virt i : Nat} (hv : virt % 4096 = 0) (hi : i < 4096) :
    dirOf (virt + i) = dirOf virt ∧ tabOf (virt + i) = tabOf virt ∧ (virt + i) &&& 0xFFF = i := by
  refine ⟨?_, ?_, ?_⟩
  · apply Fin.ext
    simp only [dirOf, Fin.val_ofNat]
    omega
  · apply Fin.ext
    simp only [tabOf, Fin.val_ofNat]
    omega
  · rw [Nat.and_two_pow_sub_one_eq_mod _ 12]
    omega

/-- A kmem pointer to a page. -/
structure PagePtr (p : Nat) : Prop where
  lo : 0xC0000000 ≤ p
  hi : p < 2 ^ 32
  aligned : p % 4096 = 0

/-- The number of the physical page behind a kmem pointer. -/
def pageNo (p : Nat) : Nat := fromKmem p / 4096

theorem PagePtr.fromKmem_add {p : Nat} (h : PagePtr p) {k : Nat} (hk : k < 4096) :
    fromKmem (p + k) = 4096 * pageNo p + k := by
  have hlo := h.lo
  have hhi := h.hi
  have halign := h.aligned
  unfold pageNo fromKmem
  omega

namespace Machine

/-- The page table entry for `virt`, zero where the directory has no table for it. -/
def walk (virt pd : Nat) (s : Machine) : Nat :=
  let dirEntry := s.load (pd + 4 * (virt >>> 22))
  if dirEntry &&& present = 0 then 0
  else s.load (tableOf dirEntry + 4 * (virt >>> 12 &&& 0x03FF))

/-- Physical memory as pages of words. -/
def pages (s : Machine) : PageMem Nat (Fin 1024) Nat :=
  fun q k => s.mem.load32 (4096 * q + 4 * k)

theorem pages_lt (s : Machine) (q : Nat) (k : Fin 1024) : s.pages q k < 2 ^ 32 :=
  ByteMem.load32_lt _ _

/-! ## Reads and writes of entries -/

theorem fromKmem_table {e : Nat} (he : e < 2 ^ 32) {k : Nat} (hk : k < 1024) :
    fromKmem (tableOf e + 4 * k) = 4096 * (e / 2 ^ 12) + 4 * k := by
  unfold tableOf toVirt fromKmem alignPageDown
  rw [Nat.shiftLeft_eq, Nat.shiftRight_eq_div_pow]
  omega

theorem load_dir {pd : Nat} (h : PagePtr pd) (s : Machine) {virt : Nat} (hv : virt < 2 ^ 32) :
    s.load (pd + 4 * (virt >>> 22)) = s.pages (pageNo pd) (dirOf virt) := by
  have hlt := (dirOf virt).isLt
  rw [load, pages, ← dirOf_val hv, h.fromKmem_add (by omega)]

theorem load_table (s : Machine) {e : Nat} (he : e < 2 ^ 32) (virt : Nat) :
    s.load (tableOf e + 4 * (virt >>> 12 &&& 0x03FF)) = s.pages (e / 2 ^ 12) (tabOf virt) := by
  rw [load, pages, ← tabOf_val, fromKmem_table he (tabOf virt).isLt]

/-- The walk of the hardware is the walk through the pages. -/
theorem walk_eq {pd : Nat} (h : PagePtr pd) (s : Machine) {virt : Nat} (hv : virt < 2 ^ 32) :
    s.walk virt pd = s.pages.walk tablePage (pageNo pd) (dirOf virt) (tabOf virt) := by
  rw [walk, PageMem.walk, load_dir h s hv, tablePage]
  split
  · rfl
  · exact s.load_table (s.pages_lt _ _) virt

/-- The address is translated by its entry. -/
theorem translate_eq {s : Machine} (hptr : PagePtr (toVirt s.cr3)) {v : Nat} (hv : v < 2 ^ 32) :
    translate s v =
      if s.pages.walk tablePage (pageNo (toVirt s.cr3)) (dirOf v)
      (tabOf v) &&& present = 0 then none
      else some (alignPageDown
        (s.pages.walk tablePage (pageNo (toVirt s.cr3)) (dirOf v) (tabOf v)) +
        (v &&& 0xFFF)) := by
  rw [← walk_eq hptr s hv, walk, translate]
  dsimp only
  by_cases hdir : s.load (toVirt s.cr3 + 4 * (v >>> 22)) &&& present = 0
  · rw [if_pos hdir, if_pos hdir, if_pos (Nat.zero_and present)]
  · rw [if_neg hdir, if_neg hdir]

theorem pages_store {s : Machine} {a q : Nat} {k : Fin 1024} (ha : fromKmem a = 4096 * q + 4 * k)
    {v : Nat} (hv : v < 2 ^ 32) : (s.store a v).pages = s.pages.set q k v := by
  funext p j
  rw [pages, store_mem, ha]
  by_cases hat : p = q ∧ j = k
  · obtain ⟨rfl, rfl⟩ := hat
    rw [ByteMem.load32_store32 hv, PageMem.set_self]
  · rw [PageMem.set_of_not hat, pages, ByteMem.load32_store32_of_apart]
    have hne : ¬ (p = q ∧ (j : Nat) = k) := fun h => hat ⟨h.1, Fin.ext h.2⟩
    have hj := j.isLt
    have hk := k.isLt
    omega

theorem pages_memset_of_out {s : Machine} {a q c p : Nat} (ha : fromKmem a = 4096 * q)
    (hp : p < q ∨ q + c ≤ p) (v : BitVec 8) : (s.memset a v (4096 * c)).pages p = s.pages p := by
  funext j
  have hj := j.isLt
  rw [pages, memset_mem, ha, ByteMem.load32_fill_of_apart (by omega)]
  rfl

theorem pages_memset_zero {s : Machine} {a q : Nat} (ha : fromKmem a = 4096 * q) :
    (s.memset a 0 4096).pages = Function.update s.pages q fun _ => 0 := by
  funext p
  by_cases hp : p = q
  · subst hp
    rw [Function.update_self]
    funext j
    have hj := j.isLt
    have hzero : ∀ i < 4, s.mem.fill (4096 * p) 0 4096 (4096 * p + 4 * j + i) = 0 := fun i hi =>
      ByteMem.fill_of_mem (by omega) (by omega)
    rw [pages, memset_mem, ha, ByteMem.load32, hzero 1 (by omega), hzero 2 (by omega),
      hzero 3 (by omega), ← Nat.add_zero (4096 * p + 4 * j.val), hzero 0 (by omega)]
    rfl
  · rw [Function.update_of_ne hp, pages_memset_of_out (c := 1) ha (by omega)]

theorem pages_memcpy {s : Machine} {a b q r : Nat} (ha : fromKmem a = 4096 * q)
    (hb : fromKmem b = 4096 * r) :
    (s.memcpy a b 4096).pages = Function.update s.pages q (s.pages r) := by
  funext p
  by_cases hp : p = q
  · subst hp
    rw [Function.update_self]
    funext j
    have hj := j.isLt
    rw [pages, memcpy, ha, hb, ByteMem.load32_copy (by omega)]
    rfl
  · rw [Function.update_of_ne hp]
    funext j
    have hj := j.isLt
    rw [pages, memcpy, ha, hb, ByteMem.load32_copy_of_apart (by omega)]
    rfl

/-! ## The pages of kmem -/

/-- The number of page `p` of buddy `b`. -/
def pageOf (s : Machine) (b p : Nat) : Nat := (s.kmem.base - 0xC0000000) / 4096 + 128 * b + p

/-- The block of a page is found in the page numbers. -/
theorem Layout.blockAddr_page {s : Machine} (h : s.Layout) {n : BlockSize} {b i : Nat}
    (hb : b < s.kmem.buddyArrayPos) (hi : i < n.count) :
    PagePtr (s.kmem.blockAddr n b i) ∧
    fromKmem (s.kmem.blockAddr n b i) = 4096 * s.pageOf b (i * 2 ^ n.order) := by
  have halign := h.aligned
  have htop := h.top
  have hlo := h.dirLo
  have hhi := h.dirHi
  rw [h.toPlaced.blockAddr hb hi]
  unfold pageOf fromKmem
  cases n <;>
    simp only [BlockSize.count, BlockSize.bytes, BlockSize.shift, BlockSize.order] at * <;>
    exact ⟨⟨by omega, by omega, by omega⟩, by omega⟩

/-! ## Directories whose pages are in use -/

/-- The page is in no block of kmem that is or will be handed out. -/
def InUse (s : Machine) (q : Nat) : Prop :=
  q < s.pageOf s.kmem.buddyArrayPos 0 ∧
  ∀ b < s.kmem.buddyArrayPos, ∀ p < 128, q = s.pageOf b p → s.kmem.bit .k4 b p = false

/-- Page directories, and pages that are neither directories nor their tables. -/
structure Spaces where
  dirs : Set Nat
  kept : Set Nat

/-- The pages of directories and tables, and the kept ones. -/
def Holds (s : Machine) (D : Spaces) (q : Nat) : Prop :=
  s.pages.Refs tablePage D.dirs q ∨ q ∈ D.kept

/-- The directories in `D`, with the kernel's own, have their tables to themselves. -/
structure Paged (s : Machine) (D : Spaces) : Prop where
  separate : s.pages.Separate tablePage D.dirs
  inUse : ∀ q, s.Holds D q → s.InUse q
  kept : ∀ q ∈ D.kept, ¬ s.pages.Refs tablePage D.dirs q
  first : PagePtr s.firstPageDirectory ∧ pageNo s.firstPageDirectory ∈ D.dirs

/-- From `s` to `s'` addresses are mapped through directories as `V` says: no walk changes at
another address, and no directory gets another table. Tables stay where they are, kept pages have
what they had, and kmem may have grown. -/
structure Maps (D : Spaces) (V : Nat → Nat → Prop) (s s' : Machine) : Prop where
  paged : s'.Paged D
  globals : s' = { s with kmem := s'.kmem, mem := s'.mem, kmemPhysEnd := s'.kmemPhysEnd }
  walk : ∀ a ∈ D.dirs, ∀ virt, virt % 4096 = 0 → virt < 2 ^ 32 → (∀ d, ¬ V d virt) →
    s'.pages.walk tablePage a (dirOf virt) (tabOf virt) =
      s.pages.walk tablePage a (dirOf virt) (tabOf virt)
  tables : ∀ a ∈ D.dirs, ∀ i t, tablePage (s.pages a i) = some t → s'.pages a i = s.pages a i
  entries : ∀ a ∈ D.dirs, ∀ i, s'.pages a i ≠ s.pages a i → ∃ virt, V a virt ∧ dirOf virt = i
  kept : ∀ q ∈ D.kept, s'.pages q = s.pages q
  base : s'.kmem.base = s.kmem.base
  pos : s.kmem.buddyArrayPos ≤ s'.kmem.buddyArrayPos

section Maps

variable {D : Spaces} {V V' : Nat → Nat → Prop} {s s' s'' : Machine}

theorem Maps.dir (h : Maps D V s s') : s'.firstPageDirectory = s.firstPageDirectory := by
  rw [h.globals]

theorem Maps.refl (h : s.Paged D) : Maps D V s s :=
  ⟨h, rfl, fun _ _ _ _ _ _ => rfl, fun _ _ _ _ _ => rfl, fun _ _ _ hne => absurd rfl hne,
    fun _ _ => rfl, rfl, Nat.le_refl _⟩

theorem Maps.trans (h : Maps D V s s') (h' : Maps D V s' s'') : Maps D V s s'' := by
  refine ⟨h'.paged, ?_, fun a ha virt hv hlt hV => ?_, fun a ha i t ht => ?_,
    fun a ha i hne => ?_, fun q hq => (h'.kept q hq).trans (h.kept q hq), h'.base.trans h.base,
    Nat.le_trans h.pos h'.pos⟩
  · rw [h'.globals, h.globals]
  · rw [h'.walk a ha virt hv hlt hV, h.walk a ha virt hv hlt hV]
  · have hsame := h.tables a ha i t ht
    rw [← hsame] at ht
    exact (h'.tables a ha i t ht).trans hsame
  · by_cases hfirst : s'.pages a i = s.pages a i
    · exact h'.entries a ha i (hfirst ▸ hne)
    · exact h.entries a ha i hfirst

theorem Maps.mono (h : Maps D V s s') (hV : ∀ d virt, V d virt → V' d virt) : Maps D V' s s' :=
  ⟨h.paged, h.globals,
    fun a ha virt hv hlt hnot => h.walk a ha virt hv hlt fun d hin =>
    hnot d (hV d virt hin), h.tables,
    fun a ha i hne => (h.entries a ha i hne).imp fun virt hin => ⟨hV a virt hin.1, hin.2⟩,
    h.kept, h.base, h.pos⟩

/-- Writes to pages that nothing in `D` holds. -/
theorem Paged.maps (h : s.Paged D) (hpages : ∀ q, s.Holds D q → s'.pages q = s.pages q)
    (hglob : s' = { s with kmem := s'.kmem, mem := s'.mem, kmemPhysEnd := s'.kmemPhysEnd })
    (hbase : s'.kmem.base = s.kmem.base)
    (hpos : s.kmem.buddyArrayPos ≤ s'.kmem.buddyArrayPos)
    (huse : ∀ q, s.Holds D q → s.InUse q → s'.InUse q) : Maps D V s s' := by
  have hrefs : ∀ q, s.pages.Refs tablePage D.dirs q → s'.pages q = s.pages q :=
    fun q hq => hpages q (Or.inl hq)
  have hdirs (a : Nat) (ha : a ∈ D.dirs) (i : Fin 1024) : s'.pages a i = s.pages a i :=
    congrFun (hrefs a (PageMem.refs_dir ha)) i
  refine ⟨⟨h.separate.congr hrefs, fun q hq => ?_, fun q hq => ?_, ?_⟩, hglob,
    fun a ha virt _ _ _ => ?_,
    fun a ha i t _ => hdirs a ha i, fun a ha i hne => absurd (hdirs a ha i) hne,
    fun q hq => hpages q (Or.inr hq), hbase, hpos⟩
  · have hq' : s.Holds D q := hq.imp_left (PageMem.refs_congr hrefs q).1
    exact huse q hq' (h.inUse q hq')
  · rw [PageMem.refs_congr hrefs]
    exact h.kept q hq
  · rw [hglob]
    exact h.first
  · exact PageMem.walk_congr hrefs ha _ _

/-- kmem changes, and memory does not. -/
theorem Paged.maps_of_mem (h : s.Paged D) (hmem : s'.mem = s.mem)
    (hglob : s' = { s with kmem := s'.kmem, mem := s'.mem, kmemPhysEnd := s'.kmemPhysEnd })
    (hbase : s'.kmem.base = s.kmem.base)
    (hpos : s.kmem.buddyArrayPos ≤ s'.kmem.buddyArrayPos)
    (huse : ∀ q, s.Holds D q → s.InUse q → s'.InUse q) : Maps D V s s' := by
  have hpages : s'.pages = s.pages := by
    funext q k
    rw [pages, pages, hmem]
  exact h.maps (fun q _ => by rw [hpages]) hglob hbase hpos huse

/-- Registers do not matter. -/
theorem Paged.congr (h : s.Paged D) (hmem : s'.mem = s.mem) (hk : s'.kmem = s.kmem)
    (hdir : s'.firstPageDirectory = s.firstPageDirectory) : s'.Paged D := by
  have hpages : s'.pages = s.pages := by
    funext q k
    rw [pages, pages, hmem]
  refine ⟨hpages ▸ h.separate, fun q hq => ?_, hpages ▸ h.kept, hdir ▸ h.first⟩
  have huse := h.inUse q (by rwa [Holds, hpages] at hq)
  simpa only [InUse, pageOf, hk] using huse

/-- Other directories, and other kept pages. -/
theorem Paged.mono {D' : Spaces} (h : s.Paged D) (hdirs : D'.dirs ⊆ D.dirs)
    (hfirst : pageNo s.firstPageDirectory ∈ D'.dirs)
    (hkept : ∀ q ∈ D'.kept, s.InUse q ∧ ¬ s.pages.Refs tablePage D'.dirs q) : s.Paged D' := by
  refine ⟨h.separate.mono hdirs, fun q hq => ?_, fun q hq => (hkept q hq).2, h.first.1, hfirst⟩
  rcases hq with hq | hq
  · exact h.inUse q (Or.inl (hq.mono hdirs))
  · exact (hkept q hq).1

/-- Writes to pages that are no directories and no tables. -/
theorem Paged.writes (h : s.Paged D) (hs : s' = { s with mem := s'.mem })
    (hpages : ∀ q, s.pages.Refs tablePage D.dirs q → s'.pages q = s.pages q) : s'.Paged D := by
  have hk : s'.kmem = s.kmem := by rw [hs]
  refine ⟨h.separate.congr hpages, fun q hq => ?_, fun q hq => ?_, ?_⟩
  · have huse := h.inUse q (hq.imp_left (PageMem.refs_congr hpages q).1)
    simpa only [InUse, pageOf, hk] using huse
  · rw [PageMem.refs_congr hpages]
    exact h.kept q hq
  · rw [hs]
    exact h.first

/-- A page becomes a copy of a directory. -/
theorem Paged.copy (h : s.Paged D) (hs : s' = { s with mem := s'.mem }) {q a : Nat}
    (ha : a ∈ D.dirs) (hq : s.InUse q) (hfresh : ¬ s.Holds D q)
    (hpages : s'.pages = Function.update s.pages q (s.pages a)) :
    s'.Paged ⟨insert q D.dirs, D.kept⟩ := by
  have hk : s'.kmem = s.kmem := by rw [hs]
  have hagree : ∀ p, s.pages.Refs tablePage D.dirs p → s'.pages p = s.pages p := fun p hp => by
    rw [hpages, Function.update_of_ne]
    rintro rfl
    exact hfresh (Or.inl hp)
  have hcopy : s'.pages q = s.pages a := by rw [hpages, Function.update_self]
  refine ⟨h.separate.copy hagree ha hcopy fun hr => hfresh (Or.inl hr), fun p hp => ?_,
    fun p hp hr => ?_,
    ?_⟩
  · have huse : s.InUse p := by
      rcases hp with hp | hp
      · rcases PageMem.refs_of_copy hagree ha hcopy hp with hp | rfl
        · exact h.inUse p (Or.inl hp)
        · exact hq
      · exact h.inUse p (Or.inr hp)
    simpa only [InUse, pageOf, hk] using huse
  · rcases PageMem.refs_of_copy hagree ha hcopy hr with hr | rfl
    · exact h.kept p hp hr
    · exact hfresh (Or.inr hp)
  · rw [hs]
    exact ⟨h.first.1, Or.inr h.first.2⟩

theorem Paged.withNewBuddy (h : s.Paged D) : Maps D V s s.withNewBuddy := by
  refine h.maps_of_mem rfl rfl rfl (Nat.le_succ _) fun q _ huse => ?_
  have hbase : s.withNewBuddy.kmem.base = s.kmem.base := rfl
  have hpos : s.withNewBuddy.kmem.buddyArrayPos = s.kmem.buddyArrayPos + 1 := rfl
  obtain ⟨hlt, hbits⟩ := huse
  simp only [InUse, pageOf, hbase, hpos] at *
  refine ⟨by omega, fun b hb p hp hq => ?_⟩
  have hne : b ≠ s.kmem.buddyArrayPos := by omega
  rw [Machine.withNewBuddy, Kmem.buddyNewNoAlloc_bit, if_neg hne]
  exact hbits b (by omega) p hp hq

theorem InUse.congr {q : Nat} (h : s.InUse q) (hbase : s'.kmem.base = s.kmem.base)
    (hpos : s'.kmem.buddyArrayPos = s.kmem.buddyArrayPos)
    (hbit : ∀ b < s.kmem.buddyArrayPos, ∀ p < 128, q = s.pageOf b p →
      s'.kmem.bit .k4 b p = true → s.kmem.bit .k4 b p = true) : s'.InUse q := by
  obtain ⟨hlt, hbits⟩ := h
  simp only [InUse, pageOf, hbase, hpos] at *
  refine ⟨hlt, fun b hb p hp hq => ?_⟩
  have hfree := hbits b hb p hp hq
  cases hb' : s'.kmem.bit .k4 b p with
  | false => rfl
  | true => rw [hbit b hb p hp hq hb'] at hfree; exact hfree

end Maps

/-! ## Taking a block -/

section Take

variable {D : Spaces} {V : Nat → Nat → Prop} {s : Machine} {L : List Block} {lag : Nat}
variable (ht : s.Tracked L lag) (hp : s.Paged D) {n : BlockSize} {b i : Nat}
  (hb : b < s.kmem.buddyArrayPos) (hi : s.kmem.bit n b i = true)
include ht hp hb hi

omit hp hb in
/-- The pages of a free block are not in use. -/
theorem not_inUse_of_free (hb : b < s.kmem.buddyArrayPos) {q : Nat}
    (hlo : s.pageOf b (i * 2 ^ n.order) ≤ q)
    (hhi : q < s.pageOf b (i * 2 ^ n.order) + 2 ^ n.order) : ¬ s.InUse q := by
  intro huse
  have hlt := Kmem.bit_lt hi
  have hq : q = s.pageOf b (i * 2 ^ n.order + (q - s.pageOf b (i * 2 ^ n.order))) := by
    simp only [pageOf] at *
    omega
  have hpage : (i * 2 ^ n.order + (q - s.pageOf b (i * 2 ^ n.order))) >>> n.order = i := by
    rw [Nat.shiftRight_eq_div_pow]
    cases n <;> simp only [BlockSize.order] at * <;> omega
  have hbit := (ht.marked.marks b hb).coalesced.bit_iff.1 hi _ hpage
  have hp128 := BlockSize.lt_count_iff.1 (hpage.symm ▸ hlt)
  rw [huse.2 b hb _ hp128 hq] at hbit
  cases hbit

theorem take_pages {q : Nat} (hq : s.Holds D q) : (s.take n b i).pages q = s.pages q := by
  have hlt := Kmem.bit_lt hi
  obtain ⟨-, haddr⟩ := ht.toLayout.blockAddr_page hb hlt
  have hout : q < s.pageOf b (i * 2 ^ n.order) ∨ s.pageOf b (i * 2 ^ n.order) + 2 ^
      n.order ≤ q := by
    by_contra hin
    exact not_inUse_of_free ht hi hb (by omega) (by omega) (hp.inUse q hq)
  have hbytes : n.bytes = 4096 * 2 ^ n.order := by cases n <;> rfl
  have hsame : ({ s with kmem := s.kmem.allocAt n b i } : Machine).pages = s.pages := rfl
  rw [Machine.take, hbytes, pages_memset_of_out haddr hout, hsame]

theorem take_maps : Maps D V s (s.take n b i) := by
  have hlt := Kmem.bit_lt hi
  have halike := take_alike (s := s) (b := b) hlt
  refine hp.maps (fun q hq => take_pages ht hp hb hi hq) (by rw [Machine.take, Machine.memset])
    halike.base
    (Nat.le_of_eq halike.pos.symm) fun q _ huse => ?_
  refine huse.congr halike.base halike.pos fun b' _ p _ _ hbit => ?_
  rw [take_kmem, Kmem.allocAt_bit (ht.marked.marks b hb).coalesced _ _ _ hlt] at hbit
  exact hbit.1

end Take

/-! ## Giving a block back -/

/-- Page `q` is a page of the block `x`. -/
def PageIn (s : Machine) (x : Block) (q : Nat) : Prop :=
  s.pageOf x.buddy (x.index * 2 ^ x.size.order) ≤ q ∧
    q < s.pageOf x.buddy (x.index * 2 ^ x.size.order) + 2 ^ x.size.order

section Free

variable {D : Spaces} {V : Nat → Nat → Prop} {s : Machine} {L : List Block} {lag : Nat} {x : Block}

theorem pageIn_iff {b p : Nat} (hp : p < 128) (hx : x.index < x.size.count) :
    s.PageIn x (s.pageOf b p) ↔ x.Covers b p := by
  have hcount := x.size.count_mul
  have hend : (x.index + 1) * 2 ^ x.size.order ≤ 128 := hcount ▸ Nat.mul_le_mul_right _ hx
  rw [Nat.succ_mul] at hend
  simp only [PageIn, pageOf, Block.Covers, Nat.shiftRight_eq_div_pow]
  constructor
  · rintro ⟨hlo, hhi⟩
    have hb : x.buddy = b := by omega
    exact ⟨hb, Nat.div_eq_of_lt_le (by omega) (by rw [Nat.succ_mul]; omega)⟩
  · rintro ⟨rfl, hindex⟩
    have hdiv := Nat.div_add_mod p (2 ^ x.size.order)
    have hmod := Nat.mod_lt p (Nat.two_pow_pos x.size.order)
    rw [hindex, Nat.mul_comm] at hdiv
    omega

theorem Tracked.inUse_of_pageIn (h : s.Tracked L lag) (hx : x ∈ L) {q : Nat} (hq : s.PageIn x q) :
    s.InUse q := by
  obtain ⟨hb, hi⟩ := h.marked.valid x hx
  have hcount := x.size.count_mul
  have hend : (x.index + 1) * 2 ^ x.size.order ≤ 128 := hcount ▸ Nat.mul_le_mul_right _ hi
  rw [Nat.succ_mul] at hend
  refine ⟨?_, fun b hb' p hp heq => ?_⟩
  · obtain ⟨hlo, hhi⟩ := hq
    simp only [pageOf] at *
    omega
  · rw [heq, pageIn_iff hp hi] at hq
    cases hbit : s.kmem.bit .k4 b p with
    | false => rfl
    | true => exact absurd hq (((h.marked.marks b hb').free p hp).1 hbit x hx)

theorem Tracked.inUse_of_mem (h : s.Tracked L lag) (hx : x ∈ L) (hsize : x.size = .k4) :
    s.InUse (s.pageOf x.buddy x.index) := by
  refine h.inUse_of_pageIn hx ?_
  rw [PageIn, hsize]
  simp [BlockSize.order]

/-- Blocks that are apart have no page in common. -/
theorem Tracked.not_pageIn (h : s.Tracked L lag) {y : Block} (hx : x ∈ L) (hy : y ∈ L)
    (ha : x.Apart y) {q : Nat} (hq : s.PageIn x q) : ¬ s.PageIn y q := by
  intro hq'
  obtain ⟨hb, hi⟩ := h.marked.valid x hx
  obtain ⟨-, hi'⟩ := h.marked.valid y hy
  have hcount := x.size.count_mul
  have hend : (x.index + 1) * 2 ^ x.size.order ≤ 128 := hcount ▸ Nat.mul_le_mul_right _ hi
  rw [Nat.succ_mul] at hend
  obtain ⟨p, hp, rfl⟩ : ∃ p < 128, q = s.pageOf x.buddy p := by
    obtain ⟨hlo, hhi⟩ := hq
    exact ⟨q - s.pageOf x.buddy 0, by simp only [pageOf] at *; omega, by
      simp only [pageOf] at *; omega⟩
  rw [pageIn_iff hp hi] at hq
  rw [pageIn_iff hp hi'] at hq'
  exact ha x.buddy p hq hq'

/-- A block is given back whose pages nothing in `D` holds. -/
theorem free_maps (h : s.Tracked (x :: L) lag) (hp : s.Paged D)
    (hx : ∀ q, s.PageIn x q → ¬ s.Holds D q) :
    Maps D V s { s with kmem := s.kmem.free x.size x.buddy x.index } := by
  obtain ⟨-, hi⟩ := h.marked.valid x List.mem_cons_self
  have halike := s.free_alike x.buddy hi
  refine hp.maps_of_mem rfl rfl halike.base (Nat.le_of_eq halike.pos.symm) fun q hq huse =>
    huse.congr halike.base halike.pos fun b _ p hp' hqp hbit => ?_
  rcases (Kmem.free_k4_bit _ _ _ _ hi).1 hbit with hold | ⟨hbx, hpx⟩
  · exact hold
  · rw [hqp] at hq
    exact absurd hq (hx _ ((pageIn_iff hp' hi).2 ⟨hbx.symm, hpx⟩))

end Free

/-! ## `_map_page` -/

theorem tablePage_eq_some {e t : Nat} :
    tablePage e = some t ↔ e &&& present ≠ 0 ∧ e / 2 ^ 12 = t := by
  rw [tablePage]
  split
  · simp_all
  · simp_all

theorem tablePage_eq_none {e : Nat} : tablePage e = none ↔ e &&& present = 0 := by
  rw [tablePage]
  split
  · simp_all
  · simp_all

/-- The directory entry that `_map_page` writes. -/
theorem tablePage_new {q flags : Nat} (hflags : flags < 4096) (hodd : flags % 2 = 1) :
    tablePage (4096 * q ||| flags) = some q := by
  have hor : 4096 * q ||| flags = 4096 * q + flags :=
    (Nat.two_pow_add_eq_or_of_lt (i := 12) hflags q).symm
  rw [hor, tablePage_eq_some, present, Nat.and_one_is_mod]
  omega

section MapPage

variable {D : Spaces} {V : Nat → Nat → Prop} {s s' : Machine} {L : List Block} {lag : Nat}
  {pd virt pdeFlags pte : Nat}
variable (ht : s.Tracked L lag) (hp : s.Paged D) (hpd : PagePtr pd) (hD : pageNo pd ∈ D.dirs)
  (hlt : virt < 2 ^ 32)
include ht hp hpd hD hlt

omit hpd in
/-- With the table present one entry is written. -/
theorem store_maps (hv : virt % 4096 = 0) (hpte : pte < 2 ^ 32) {t a : Nat}
    (htable : tablePage (s.pages (pageNo pd) (dirOf virt)) = some t)
    (haddr : fromKmem a = 4096 * t + 4 * (tabOf virt : Nat)) (hs' : s' = s.store a pte) :
    s'.Tracked L lag ∧ Maps D (fun d v => d = pageNo pd ∧ v = virt) s s' ∧
      s'.pages.walk tablePage (pageNo pd) (dirOf virt) (tabOf virt) = pte := by
  have hpages : s'.pages = s.pages.set t (tabOf virt) pte := by
    rw [hs', pages_store haddr hpte]
  have hmem : s' = { s with mem := s'.mem } := by
    rw [hs', Machine.store]
  have hkmem : s'.kmem = s.kmem := by rw [hmem]
  have hdir : s'.firstPageDirectory = s.firstPageDirectory := by rw [hmem]
  have hdirs (a : Nat) (ha : a ∈ D.dirs) (i : Fin 1024) : s'.pages a i = s.pages a i := by
    rw [hpages, hp.separate.set_dir hD htable ha]
  refine ⟨ht.writes hmem, ⟨⟨?_, fun q hq => ?_, fun q hq => ?_, ?_⟩,
    by rw [hmem], fun a ha v hv' hlt' hne => ?_, fun a ha i u _ => hdirs a ha i,
    fun a ha i hne => absurd (hdirs a ha i) hne, fun q hq => ?_, by rw [hkmem], by rw [hkmem]⟩, ?_⟩
  · rw [hpages]
    exact hp.separate.set hD htable
  · rw [Holds, hpages, hp.separate.set_refs hD htable] at hq
    exact (hp.inUse q hq).congr (by rw [hkmem]) (by rw [hkmem]) fun b _ p _ _ h => by
      rwa [hkmem] at h
  · rw [hpages, hp.separate.set_refs hD htable]
    exact hp.kept q hq
  · rw [hdir]
    exact hp.first
  · rw [hpages]
    exact hp.separate.walk_set_of_ne hD htable ha fun hand =>
      hne _ ⟨rfl, eq_of_indices hv' hv hlt' hlt hand.1 hand.2⟩
  · rw [hpages, PageMem.set_of_ne]
    rintro rfl
    exact hp.kept q hq (PageMem.refs_table hD htable)
  · rw [hpages]
    exact hp.separate.walk_set_self hD htable

omit ht hp hD in
/-- The address of the entry in the table that is there. -/
theorem fromKmem_entry {t : Nat} (htable : tablePage (s.pages (pageNo pd) (dirOf virt)) = some t) :
    fromKmem (tableOf (s.load (pd + 4 * (virt >>> 22))) + 4 * (virt >>> 12 &&& 0x03FF)) =
      4096 * t + 4 * (tabOf virt : Nat) := by
  rw [load_dir hpd s hlt, ← tabOf_val, fromKmem_table (s.pages_lt _ _) (tabOf virt).isLt,
    (tablePage_eq_some.1 htable).2]

/-- A page that nobody has becomes a table of zeros. -/
theorem newTable_maps (habsent : tablePage (s.pages (pageNo pd) (dirOf virt)) = none)
    (hflags : pdeFlags < 4096) (hodd : pdeFlags % 2 = 1) {x : Block} (hx : x ∈ L)
    (hsize : x.size = .k4)
    (hfresh : ¬ s.Holds D (s.pageOf x.buddy x.index)) {p : Nat}
    (hpx : p = s.kmem.blockAddr .k4 x.buddy x.index)
    (hs' : s' = (s.memset p 0 4096).store (pd + 4 * (virt >>> 22)) (fromKmem p ||| pdeFlags)) :
    s'.Tracked L lag ∧ Maps D (fun d v => d = pageNo pd ∧ v = virt) s s' ∧
      tablePage (s'.pages (pageNo pd) (dirOf virt)) = some (fromKmem p / 4096) ∧ PagePtr p := by
  obtain ⟨hb, hi⟩ := ht.marked.valid x hx
  rw [hsize] at hi
  obtain ⟨hptr, haddr⟩ := ht.toLayout.blockAddr_page (n := .k4) hb hi
  rw [← hpx, show x.index * 2 ^ BlockSize.k4.order = x.index from Nat.mul_one _] at haddr
  rw [← hpx] at hptr
  set q := s.pageOf x.buddy x.index with hq
  have hnext : tablePage (fromKmem p ||| pdeFlags) = some q := haddr ▸ tablePage_new hflags hodd
  have hlow : fromKmem p ||| pdeFlags < 2 ^ 32 := by
    have hfrom : fromKmem p < 2 ^ 32 := by
      unfold fromKmem
      omega
    exact Nat.or_lt_two_pow hfrom (by omega)
  -- the page is cleared
  set s₁ := s.memset p 0 4096 with hs₁
  have hclear : s₁.pages = Function.update s.pages q fun _ => 0 := pages_memset_zero haddr
  have hq₁ : ∀ k, s₁.pages q k = 0 := by
    intro k
    rw [hclear, Function.update_self]
  have hholds : ∀ r, s.Holds D r → s₁.pages r = s.pages r := by
    intro r hr
    rw [hclear, Function.update_of_ne]
    exact fun hrq => hfresh (hrq ▸ hr)
  have hagree : ∀ r, s.pages.Refs tablePage D.dirs r → s₁.pages r = s.pages r :=
    fun r hr => hholds r (Or.inl hr)
  have hsep₁ := hp.separate.congr hagree
  have hnone : tablePage (s₁.pages (pageNo pd) (dirOf virt)) = none := by
    rw [hagree _ (PageMem.refs_dir hD)]
    exact habsent
  have hfresh₁ : ¬ s₁.pages.Refs tablePage D.dirs q :=
    fun h => hfresh (Or.inl ((PageMem.refs_congr hagree q).1 h))
  -- it becomes the table
  have hentry : fromKmem (pd + 4 * (virt >>> 22)) = 4096 * pageNo pd + 4 * (dirOf virt : Nat) := by
    rw [← dirOf_val hlt, hpd.fromKmem_add (by have := (dirOf virt).isLt; omega)]
  have hpages : s'.pages = s₁.pages.set (pageNo pd) (dirOf virt) (fromKmem p ||| pdeFlags) := by
    rw [hs', pages_store hentry hlow]
  have hmem : s' = { s with mem := s'.mem } := by
    rw [hs', Machine.store, hs₁, Machine.memset]
  have hkmem : s'.kmem = s.kmem := by rw [hmem]
  have hdir : s'.firstPageDirectory = s.firstPageDirectory := by rw [hmem]
  have hrefs (r : Nat) : s'.pages.Refs tablePage D.dirs r ↔
      s.pages.Refs tablePage D.dirs r ∨ r = q := by
    rw [hpages, PageMem.refs_set_dir hD hnone hfresh₁ hnext, PageMem.refs_congr hagree]
  have hstay (a : Nat) (ha : a ∈ D.dirs) (k : Fin 1024) (hat : ¬ (a = pageNo pd ∧ k = dirOf virt)) :
      s'.pages a k = s.pages a k := by
    rw [hpages, PageMem.set_of_not hat, hagree _ (PageMem.refs_dir ha)]
  refine ⟨ht.writes hmem,
    ⟨⟨?_, fun r hr => ?_, fun r hr => ?_, ?_⟩, by rw [hmem], fun a ha v _ _ _ => ?_,
    fun a ha k u hu => hstay a ha k ?_, fun a ha k hne => ?_, fun r hr => ?_,
    by rw [hkmem], by rw [hkmem]⟩, ?_, hptr⟩
  · rw [hpages]
    exact hsep₁.set_table hD hnone hfresh₁ hnext
  · have huse : s.InUse r := by
      rcases hr with hr | hr
      · rcases (hrefs r).1 hr with hr | rfl
        · exact hp.inUse r (Or.inl hr)
        · exact ht.inUse_of_mem hx hsize
      · exact hp.inUse r (Or.inr hr)
    exact huse.congr (by rw [hkmem]) (by rw [hkmem]) fun b _ p _ _ h => by rwa [hkmem] at h
  · rw [hrefs]
    rintro (hr' | rfl)
    · exact hp.kept r hr hr'
    · exact hfresh (Or.inr hr)
  · rw [hdir]
    exact hp.first
  · rw [hpages, PageMem.walk_set_table hD hnone hfresh₁ hnext hq₁ ha hsep₁,
      PageMem.walk_congr hagree ha]
  · rintro ⟨rfl, rfl⟩
    rw [habsent] at hu
    cases hu
  · by_contra hout
    refine hne (hstay a ha k ?_)
    rintro ⟨rfl, rfl⟩
    exact hout ⟨virt, ⟨rfl, rfl⟩, rfl⟩
  · have hne : r ≠ pageNo pd := by
      rintro rfl
      exact hp.kept _ hr (PageMem.refs_dir hD)
    rw [hpages, PageMem.set_of_ne hne, hholds r (Or.inr hr)]
  · rw [hpages, PageMem.set_self, hnext, haddr, Nat.mul_div_cancel_left _ (by decide)]

end MapPage

end Machine

end TinyLittleOs.Memory
