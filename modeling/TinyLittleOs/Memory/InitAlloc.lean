import TinyLittleOs.Memory.KmemAlloc

/-!
# Initialization of the page allocators

From what the linker and the boot loader promise, `init_page_allocator` establishes the
invariant of kmem with all four lists paired. It creates a second buddy only when the first
one is used up by page tables, which needs a kmem region of more than 126 tables.
-/

namespace TinyLittleOs.Memory

open Lib

namespace Kmem

/-- All four lists are paired. -/
def AllPaired (s : Kmem) : Prop := ∀ n, ∃ l, s.Paired n l

theorem AllPaired.settled {s : Kmem} (h : s.AllPaired) {n : BlockSize} {b : Nat}
    (hb : b < s.buddyArrayPos) (hf : s.HasFree n b) : (s.links n).Settled b := by
  obtain ⟨l, hl⟩ := h n
  exact hl.tight.settled ((hl.mem b).2 ⟨hb, hf⟩)

/-- Whether a list is paired depends on its pointers only. -/
theorem Linked.paired {s s' : Kmem} {n : BlockSize} {l l' : List Nat} (h : s.Linked n l)
    (h' : s'.Paired n l') (hlinks : s.links = s'.links) : s.Paired n l := by
  have hseg := h.list.seg
  rw [hlinks] at hseg
  obtain rfl := hseg.unique h'.list.seg
  exact ⟨h, hlinks ▸ h'.backs⟩

theorem Accounts.allPaired {s s' : Kmem} {L : List Block} (h : s.Accounts L) (h' : s'.AllPaired)
    (hlinks : s.links = s'.links) : s.AllPaired := by
  intro n
  obtain ⟨l, hl⟩ := h.linked n
  obtain ⟨l', hl'⟩ := h' n
  exact ⟨l, hl.paired hl' hlinks⟩

theorem AllPaired.allocAt {s : Kmem} {L : List Block} (h : s.AllPaired) (ha : s.Accounts L)
    {n : BlockSize} {b i : Nat} (hb : b < s.buddyArrayPos) (hi : i < n.count) :
    (s.allocAt n b i).AllPaired := by
  intro m
  obtain ⟨l, hl⟩ := h m
  exact ⟨_, hl.clears (s.allocAt_clears b hi) (ha.cleared hb) hb⟩

theorem AllPaired.free {s : Kmem} {L : List Block} (h : s.AllPaired) (ha : s.Accounts L)
    {n : BlockSize} {b i : Nat} (hb : b < s.buddyArrayPos) (hi : i < n.count) :
    (s.free n b i).AllPaired := by
  intro m
  obtain ⟨l, hl⟩ := h m
  exact ⟨_, hl.sets (s.free_sets b hi) (ha.cleared hb) hb⟩

/-- A buddy created while all lists are empty leaves them paired. -/
theorem AllPaired.buddyNewNoAlloc {s : Kmem} (h : s.AllPaired)
    (hn : ∀ n, (s.links n).next none = none) : s.buddyNewNoAlloc.AllPaired := by
  intro n
  obtain ⟨l, hl⟩ := h n
  have hnil := hl.list.next_none
  rw [hn n, eq_comm, List.head?_eq_none_iff] at hnil
  exact ⟨_, (hl.buddyNewNoAlloc_iff).2 hnil⟩

/-- When no page is free, no list has a buddy. -/
theorem Accounts.null_of_k4 {s : Kmem} {L : List Block} (h : s.Accounts L)
    (hn : (s.links .k4).next none = none) (n : BlockSize) : (s.links n).next none = none := by
  obtain ⟨l, hl⟩ := h.linked n
  rw [hl.list.next_none, List.head?_eq_none_iff]
  by_contra hne
  obtain ⟨b, hbl⟩ := List.exists_mem_of_ne_nil l hne
  obtain ⟨hb, i, hi⟩ := (hl.mem b).1 hbl
  have hpage := (h.coalesced b hb).bit_iff.1 hi (i <<< n.order) (by simp)
  exact h.not_hasFree hn hb ⟨_, hpage⟩

end Kmem

namespace Machine

/-- `kmem_alloc_N` in a state with paired lists, if a buddy is only created with all four
lists empty. -/
theorem Inv.kmemAlloc_paired {s : Machine} {L : List Block} (h : s.Inv L)
    (hp : s.kmem.AllPaired) {n : BlockSize}
    (hn : (s.kmem.links n).next none = none → ∀ m, (s.kmem.links m).next none = none) :
    Outcome (s.kmemAlloc n)
      (fun r => ∃ x T, Allocated s L n r.1 r.2 x T ∧ r.2.kmem.AllPaired)
      (fun e => e = .buddyArrayFull ∨ e = .regionEnd) := by
  cases hb : (s.kmem.links n).next none with
  | none =>
    refine (h.kmemAlloc_of_null hb).mono ?_ fun e he => he
    rintro ⟨p, s'⟩ ⟨x, T, hal, hlinks⟩
    exact ⟨x, T, hal, hal.inv.acc.allPaired (hp.buddyNewNoAlloc (hn hb)) hlinks⟩
  | some b =>
    obtain ⟨i, hpos, hi, hs', hal⟩ := h.kmemAlloc_of_head hb
    have hlt := Kmem.bit_lt (Kmem.findFree_eq_ok hi).1
    rw [hs']
    refine ⟨⟨n, b, i⟩, [], hal fun m hm => hp.settled hpos hm.1, ?_⟩
    rw [take_kmem]
    exact hp.allocAt h.acc hpos hlt

/-- What the linker script and the boot loader promise: the kernel image, with the page
directory inside, ends in the first 4 MiB of kmem, and sizes are 32-bit. -/
structure Booted (s : Machine) : Prop where
  kernelLo : 0xC0100000 ≤ s.kernelEnd
  kernelHi : s.kernelEnd ≤ 0xC0400000
  dirLo : 0xC0000000 ≤ s.firstPageDirectory
  dirHi : s.firstPageDirectory + 4096 ≤ s.kernelEnd
  dirAligned : s.firstPageDirectory % 4096 = 0
  ram : s.ramAmount < 2 ^ 32

theorem totalPageCount_lt (s : Machine) : s.totalPageCount < 2 ^ 20 := by
  rw [totalPageCount, Nat.shiftRight_eq_div_pow]
  omega

/-- Before the first buddy all lists are empty, whatever memory holds. -/
theorem initKmem_paired (s : Machine) (n : BlockSize) : s.initKmem.Paired n [] := by
  refine ⟨⟨⟨List.nodup_nil, ?_, by simp, by simp, ?_, ?_⟩, ?_⟩, trivial⟩
  · simp [initKmem, Links.Seg, Links.setNext]
  · exact fun b hb => absurd hb (Nat.not_lt_zero b)
  · exact fun b hb => absurd hb (Nat.not_lt_zero b)
  · exact fun b => ⟨fun hb => absurd hb List.not_mem_nil, fun hb => absurd hb.1 (Nat.not_lt_zero b)⟩

theorem initKmem_accounts (s : Machine) : s.initKmem.Accounts [] :=
  ⟨by simp, List.Pairwise.nil, fun b hb => absurd hb (Nat.not_lt_zero b),
    fun b hb => absurd hb (Nat.not_lt_zero b), fun n => ⟨_, (s.initKmem_paired n).toLinked⟩⟩

theorem initKmem_new_paired (s : Machine) : s.initKmem.buddyNewNoAlloc.AllPaired :=
  fun n => ⟨_, (s.initKmem_paired n).buddyNewNoAlloc_iff.2 rfl⟩

section Init

variable {s : Machine} (h : s.Booted)
include h

theorem Booted.buddyArray : toVirt s.buddyMemoryPhys = s.buddyMemoryPhys + 0xC0000000 ∧
    s.kernelEnd ≤ s.buddyMemoryPhys + 0xC0000000 ∧ s.buddyMemoryPhys ≤ 0x400000 ∧
    s.buddyMemoryPhys % 4096 = 0 := by
  have hlo := h.kernelLo
  have hhi := h.kernelHi
  unfold toVirt buddyMemoryPhys alignPageUp fromKmem
  rw [Nat.shiftLeft_eq, Nat.shiftRight_eq_div_pow]
  omega

/-- Where the first buddy starts. -/
theorem Booted.base : s.initKmem.base = s.buddyMemoryEndPhys + 0xC0000000 ∧
    s.buddyMemoryEndPhys % 2 ^ 15 = 0 ∧ s.buddyMemoryPhys ≤ s.buddyMemoryEndPhys ∧
    s.buddyMemoryEndPhys ≤ 0x488000 := by
  obtain ⟨hva, hlo, hhi, halign⟩ := h.buddyArray
  have htot := s.totalPageCount_lt
  have hpages : s.totalBuddyPageCount ≤ 128 := by
    unfold totalBuddyPageCount totalBuddyCount
    simp only [Nat.shiftRight_eq_div_pow]
    omega
  unfold buddyMemoryEndPhys initKmem Kmem.base initBuddyArraySize buddyArrayEnd
  simp only [hva, Nat.shiftLeft_eq, Nat.shiftRight_eq_div_pow]
  omega

/-- The globals that `init_page_allocator` sets before it maps anything. -/
structure Globals (s s' : Machine) : Prop where
  kmem : s'.kmem = s.initKmem.buddyNewNoAlloc
  kmemPhysEnd : s'.kmemPhysEnd = s.buddyMemoryEndPhys + 2 ^ 19
  region : s'.kmemRegionEnd ≤ 0x38000000 ∧
    s'.kmemRegionEnd ≤ s.buddyMemoryEndPhys + s.totalPageCount * 2 ^ 12
  hmemPhysEnd : s'.hmemPhysEnd = alignPageDown ((0x100000 + s.ramAmount) % 2 ^ 32)
  hmemPhysList : s'.hmemPhysList = 0
  dir : s'.firstPageDirectory = s.firstPageDirectory

theorem Booted.initGlobals :
    Outcome s.initGlobals (Globals s) (fun e => e = .buddyArrayFull) := by
  obtain ⟨-, -, -, hle⟩ := h.base
  have hend : (s.buddyMemoryEndPhys + 1 <<< 19) % 2 ^ 32 = s.buddyMemoryEndPhys + 2 ^ 19 :=
    Nat.mod_eq_of_lt (by omega)
  have hmod : (s.buddyMemoryEndPhys + s.totalPageCount <<< 12) % 2 ^ 32 ≤
      s.buddyMemoryEndPhys + s.totalPageCount * 2 ^ 12 := by
    rw [Nat.shiftLeft_eq]
    exact Nat.mod_le _ _
  rw [Machine.initGlobals, kmemBuddyNewNoAlloc]
  dsimp only
  split
  · refine ⟨rfl, hend, ?_, rfl, rfl, rfl⟩
    dsimp only
    split <;> omega
  · rfl

/-- Before anything is mapped. -/
theorem Booted.layout {s₁ : Machine} (hg : Globals s s₁) :
    (s₁.memset s₁.firstPageDirectory 0 4096).Layout := by
  obtain ⟨hbase, halign, hlo, hhi⟩ := h.base
  obtain ⟨-, hkernel, -, -⟩ := h.buddyArray
  have hdlo := h.dirLo
  have hdhi := h.dirHi
  have hnew : s.initKmem.buddyNewNoAlloc.base = s.buddyMemoryEndPhys + 0xC0000000 := hbase
  have hpos : s.initKmem.buddyNewNoAlloc.buddyArrayPos = 1 := rfl
  refine ⟨⟨?_, ?_⟩, ?_, ?_, ?_⟩
  · rw [memset_kmem, hg.kmem, hnew]
    omega
  · rw [memset_kmem, hg.kmem, hnew, hpos]
    omega
  · rw [memset_dir, hg.dir]
    exact hdlo
  · rw [memset_dir, hg.dir, memset_kmem, hg.kmem, hnew]
    omega
  · rw [memset_dir, hg.dir]
    exact h.dirAligned

/-- The kernel is mapped with pages of the first buddy. -/
theorem Booted.mapKernel {s₁ : Machine} (hg : Globals s s₁) :
    ∃ s₂ T, (addrs 0xC0000000 (toVirt s₁.kmemPhysEnd) 4096).foldlM (fun s addr =>
        s.mapPage kmemAlloc4k addr prwr (fromKmem addr ||| prwr) s.firstPageDirectory)
        (s₁.memset s₁.firstPageDirectory 0 4096) = .ok s₂ ∧
      Growing (s₁.memset s₁.firstPageDirectory 0 4096) 0 768 [] s₂ T := by
  obtain ⟨hbase, halign, hlo, hhi⟩ := h.base
  have hlayout := h.layout hg
  have hkmem : (s₁.memset s₁.firstPageDirectory 0 4096).kmem = s.initKmem.buddyNewNoAlloc := by
    rw [memset_kmem, hg.kmem]
  set s₂ := s₁.memset s₁.firstPageDirectory 0 4096 with hs₂
  have hstart : Growing s₂ 0 768 [] s₂ [] := by
    refine ⟨.refl _, hlayout, ?_, ⟨rfl, rfl, rfl, fun _ _ _ _ => rfl⟩, rfl, by simp,
      fun p _ hp => ?_, Nat.zero_le _⟩
    · rw [hkmem]
      exact s.initKmem_accounts.buddyNewNoAlloc
    · rw [hkmem, Kmem.buddyNewNoAlloc_bit, if_pos (show 0 = s.initKmem.buddyArrayPos from rfl)]
      exact decide_eq_true hp
  have hhead (n : BlockSize) : (s₂.kmem.links n).next none = some 0 := by
    rw [hkmem]
    simp [Kmem.buddyNewNoAlloc, initKmem, Links.pushFrontStale, Links.setNext]
  refine hstart.loop (by omega) hhead 1 fun a ha => ?_
  have hvirt : toVirt s₁.kmemPhysEnd = s.buddyMemoryEndPhys + 2 ^ 19 + 0xC0000000 := by
    rw [hg.kmemPhysEnd]
    unfold toVirt
    omega
  rw [addrs, hvirt] at ha
  obtain ⟨k, hk, rfl⟩ := List.mem_range'.1 ha
  refine ⟨by omega, by omega, ?_, Nat.or_mod_two_eq_one.2 (.inr rfl)⟩
  rw [Nat.shiftRight_eq_div_pow]
  omega

end Init

/-- After `i` rounds of the loop that creates the page tables of the kmem region. -/
structure Tables (s : Machine) (i : Nat) (s' : Machine) (K : List Block) : Prop where
  inv : s'.Inv K
  paired : s'.kmem.AllPaired
  size : ∀ x ∈ K, x.size = .k4
  length : K.length ≤ i + 2 * s'.kmem.buddyArrayPos
  base : s'.kmem.base = s.kmem.base
  globals : s' = { s with kmem := s'.kmem, mem := s'.mem, kmemPhysEnd := s'.kmemPhysEnd }
  pos : s'.kmem.buddyArrayPos = 1 ∨ s'.kmem.buddyArrayPos = 2 ∧ 126 ≤ i

theorem Tables.alloc {s s' : Machine} {i : Nat} {K : List Block} (h : Tables s i s' K)
    (hi : i < 252) :
    Outcome s'.kmemAlloc4k (fun r => ∃ K, Tables s (i + 1) r.2 K)
      (fun e => e = .buddyArrayFull ∨ e = .regionEnd) := by
  refine (h.inv.kmemAlloc_paired h.paired (fun hn => h.inv.acc.null_of_k4 hn)).mono ?_
    fun e he => he
  rintro ⟨p, s''⟩ ⟨x, T, hal, hp⟩
  have hlen := h.length
  have hT : T.length + 2 * s'.kmem.buddyArrayPos ≤ 2 * s''.kmem.buddyArrayPos := hal.tables.1
  have hpos : s''.kmem.buddyArrayPos = s'.kmem.buddyArrayPos + _ := hal.pos
  -- a buddy is only created when every page so far is a page table
  have hfull := h.inv.acc.le_length h.size
  refine ⟨_, hal.inv, hp, ?_, ?_, hal.base.trans h.base, ?_, ?_⟩
  · simp only [List.forall_mem_cons, List.forall_mem_append]
    exact ⟨hal.size, hal.tables.2, h.size⟩
  · simp only [List.length_cons, List.length_append]
    omega
  · rw [hal.globals, h.globals]
  · have hpos₀ := h.pos
    dsimp only
    split at hpos
    · have hfull := hfull ‹_›
      omega
    · omega

theorem Tables.congr {s s' s'' : Machine} {i : Nat} {K : List Block} (h : Tables s i s' K)
    (hs : s'' = { s' with mem := s''.mem }) : Tables s i s'' K := by
  have hkmem : s''.kmem = s'.kmem := by rw [hs]
  refine ⟨h.inv.congr hkmem (by rw [hs]) (by rw [hs]) (by rw [hs]), hkmem ▸ h.paired, h.size,
    hkmem ▸ h.length, hkmem ▸ h.base, ?_, hkmem ▸ h.pos⟩
  rw [hs, h.globals]

theorem Tables.round {s s' : Machine} {i : Nat} {K : List Block} (h : Tables s i s' K)
    (hi : i < 252) (a : Nat) :
    Outcome (s'.initTable a) (fun s' => ∃ K, Tables s (i + 1) s' K)
      (fun e => e = .buddyArrayFull ∨ e = .regionEnd ∨ e = .tablePresent) := by
  rw [initTable]
  dsimp only
  split
  · exact .inr (.inr rfl)
  · refine ((h.alloc hi).mono (fun _ h => h) fun e he => ?_).bind ?_
    · rcases he with he | he
      exacts [.inl he, .inr (.inl he)]
    · rintro ⟨p, s₂⟩ ⟨K, hK⟩
      refine ⟨K, hK.congr ?_⟩
      rw [store, memset]

/-- The state that `init_page_allocator` leaves, with the page tables `K`. -/
structure Started (s s' : Machine) (K : List Block) : Prop where
  inv : s'.Inv K
  paired : s'.kmem.AllPaired
  size : ∀ x ∈ K, x.size = .k4
  base : s'.kmem.base = s.buddyMemoryEndPhys + 0xC0000000
  hmemPhysEnd : s'.hmemPhysEnd = alignPageDown ((0x100000 + s.ramAmount) % 2 ^ 32)
  hmemPhysList : s'.hmemPhysList = 0
  pos : s'.kmem.buddyArrayPos = 1 ∨ s'.kmem.buddyArrayPos = 2 ∧ 0x1E000000 ≤ s.ramAmount

section Start

variable {s s₁ s₂ : Machine} {T : List Block} (h : s.Booted) (hg : Globals s s₁)
  (hgrow : Growing (s₁.memset s₁.firstPageDirectory 0 4096) 0 768 [] s₂ T)
include hgrow

omit h hg in
theorem Growing.globals : s₂ = { s₁ with kmem := s₂.kmem, mem := s₂.mem } := by
  have hkeep := hgrow.keeps.globals
  rw [hkeep, memset]

include h hg

/-- The machine `s₃` between the two loops of `init_page_allocator`. -/
theorem Booted.startTables {s₃ : Machine} (hs₃ : s₃ = { s₂ with cr3 := s₃.cr3 }) :
    Tables s₃ 0 s₃ T ∧ s₃.kmem.base = s.buddyMemoryEndPhys + 0xC0000000 := by
  obtain ⟨hbase, halign, hlo, hhi⟩ := h.base
  have hglob := hgrow.globals
  have hend : s₂.kmemPhysEnd = s.buddyMemoryEndPhys + 2 ^ 19 := by
    rw [hglob]
    exact hg.kmemPhysEnd
  have hbase₂ : s₂.kmem.base = s.buddyMemoryEndPhys + 0xC0000000 := by
    rw [hgrow.same.base, memset_kmem, hg.kmem]
    exact hbase
  have hpos₂ : s₂.kmem.buddyArrayPos = 1 := by
    rw [hgrow.same.pos, memset_kmem, hg.kmem]
    rfl
  have hregion : s₂.kmemRegionEnd = s₁.kmemRegionEnd := by rw [hglob]
  have hinv : s₂.Inv T := by
    refine ⟨hgrow.layout, by simpa using hgrow.acc, ?_, ?_, hregion ▸ hg.region.1⟩
    · rw [hend, hbase₂, hpos₂]
      omega
    · omega
  have hpaired : s₂.kmem.AllPaired := by
    refine hgrow.acc.allPaired s.initKmem_new_paired ?_
    rw [hgrow.links, memset_kmem, hg.kmem]
  have hkmem : s₃.kmem = s₂.kmem := by rw [hs₃]
  have hlen := hgrow.len.trans (s₂.tables_le 768)
  refine ⟨⟨hinv.congr hkmem (by rw [hs₃]) (by rw [hs₃]) (by rw [hs₃]), ?_, hgrow.size, ?_, rfl, rfl,
    .inl ?_⟩, ?_⟩ <;> rw [hkmem]
  · exact hpaired
  · omega
  · exact hpos₂
  · exact hbase₂

end Start

/-- The addresses of the last loop of `init_page_allocator`, where the kernel is mapped up to
`mapped`. -/
def tableAddrs (mapped regionEnd : Nat) : List Nat :=
  addrs ((((mapped + ((1 <<< 22) - 1)) % 2 ^ 32) >>> 22) <<< 22) (toVirt regionEnd) (1 <<< 22)

theorem tableAddrs_length {mapped regionEnd : Nat} (hlo : 0xC0000000 ≤ mapped)
    (hhi : mapped ≤ 0xC0600000) (hle : regionEnd ≤ 0x38000000) :
    2 ^ 22 * (tableAddrs mapped regionEnd).length < regionEnd + 2 ^ 22 := by
  have hvirt : toVirt regionEnd = regionEnd + 0xC0000000 := by
    unfold toVirt
    omega
  have h22 : 1 <<< 22 = 4194304 := rfl
  rw [tableAddrs, addrs, List.length_range', hvirt, h22, Nat.shiftLeft_eq,
    Nat.shiftRight_eq_div_pow]
  omega

theorem Booted.initPageAllocator {s : Machine} (h : s.Booted) :
    Outcome s.initPageAllocator (fun s' => ∃ K, Started s s' K)
      (fun e => e = .buddyArrayFull ∨ e = .regionEnd ∨ e = .tablePresent) := by
  obtain ⟨hbase, halign, hlo, hhi⟩ := h.base
  rw [Machine.initPageAllocator]
  refine (h.initGlobals.mono (fun _ hg => hg) fun e he => .inl he).bind fun s₁ hg => ?_
  obtain ⟨s₂, T, hs₂, hgrow⟩ := h.mapKernel hg
  have hglob := hgrow.globals
  have hregion : s₂.kmemRegionEnd = s₁.kmemRegionEnd := by rw [hglob]
  dsimp only
  rw [hs₂, ok_bind]
  generalize hs₃ : ({ s₂ with cr3 := fromKmem s₂.firstPageDirectory } : Machine) = s₃
  obtain ⟨hstart, hbase₃⟩ :=
    h.startTables hg hgrow (show s₃ = { s₂ with cr3 := s₃.cr3 } by rw [← hs₃])
  -- the page tables for the rest of the region
  have hle := hregion ▸ hg.region.1
  have hvirt : toVirt s₁.kmemPhysEnd = s.buddyMemoryEndPhys + 2 ^ 19 + 0xC0000000 := by
    rw [hg.kmemPhysEnd]
    unfold toVirt
    omega
  have hlen := tableAddrs_length (show 0xC0000000 ≤ toVirt s₁.kmemPhysEnd by omega) (by omega) hle
  have hloop := Outcome.foldlM_index (Q := fun i s' => ∃ K, Tables s₃ i s' K) (k := 0)
    (l := tableAddrs (toVirt s₁.kmemPhysEnd) s₂.kmemRegionEnd) (f := initTable) (a := s₃)
    (fun a i hi hK => hK.elim fun K hK => hK.round (by omega) _) ⟨T, hstart⟩
  refine hloop.mono ?_ fun e he => he
  rintro s' ⟨K, hK⟩
  refine ⟨K, hK.inv, hK.paired, hK.size, hK.base.trans hbase₃, ?_, ?_, ?_⟩
  · rw [hK.globals, ← hs₃, hglob]
    exact hg.hmemPhysEnd
  · rw [hK.globals, ← hs₃, hglob]
    exact hg.hmemPhysList
  · rcases hK.pos with hpos | ⟨hpos, hi⟩
    · exact .inl hpos
    · have hreg := hg.region.2
      rw [totalPageCount, Nat.shiftRight_eq_div_pow] at hreg
      exact .inr ⟨hpos, by omega⟩

end Machine

end TinyLittleOs.Memory
