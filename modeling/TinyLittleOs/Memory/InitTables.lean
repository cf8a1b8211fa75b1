import TinyLittleOs.Memory.DirectMap
import TinyLittleOs.Memory.KmemRuns

/-!
# The kernel's page directory

`init_page_allocator` maps the kernel and creates a page table for every directory entry of the
kmem region. In this state the conditions of `_map_page` hold for `first_page_directory`.
-/

namespace TinyLittleOs.Memory

open Lib

namespace Machine

/-- Directory entry `i` covers a part of the kmem region, or of the first buddy. -/
def Covers (s : Machine) (i : Fin 1024) : Prop :=
  768 ≤ i.val ∧
    (i.val * 2 ^ 22 < 0xC0000000 + s.kmemRegionEnd ∨ i.val * 2 ^ 22 < s.kmem.base + 2 ^ 19)

/-- The addresses that the kernel maps. -/
def KernelAt (_ a : Nat) : Prop := 0xC0000000 ≤ a ∧ a < 0xF8000000

/-- What `init_page_allocator` leaves in `first_page_directory`, which is the current directory. -/
structure Ready (s : Machine) (K : List Block) : Prop where
  tracked : s.Tracked K 0
  paged : s.Paged ⟨{pageNo s.firstPageDirectory}, ∅⟩
  covered : ∀ i, s.Covers i → tablePage (s.pages (pageNo s.firstPageDirectory) i) ≠ none
  empty : ∀ i : Fin 1024, i.val < 768 ∨ 992 ≤ i.val → s.pages (pageNo s.firstPageDirectory) i = 0
  direct : s.Direct
  cr3 : s.cr3 = fromKmem s.firstPageDirectory

theorem Layout.dirPage {s : Machine} (h : s.Layout) :
    PagePtr s.firstPageDirectory ∧ pageNo s.firstPageDirectory < s.pageOf 0 0 ∧
      fromKmem s.firstPageDirectory = 4096 * pageNo s.firstPageDirectory := by
  have hlo := h.dirLo
  have hhi := h.dirHi
  have halign := h.dirAligned
  have htop := h.top
  unfold pageOf pageNo fromKmem
  exact ⟨⟨hlo, by omega, halign⟩, by omega, by omega⟩

theorem ByGrowth.kernelAt {s s' : Machine} {L : List Block} (ht : s'.Tracked L 0)
    (hbase : s'.kmem.base = s.kmem.base) {d a : Nat} (h : ByGrowth s s' d a) : KernelAt d a := by
  have hlo := h.lo
  have hhi := h.hi
  have hend := ht.physEnd
  have hle := ht.physLe
  have hdlo := ht.dirLo
  have hdhi := ht.dirHi
  rw [← hbase] at hlo hhi
  exact ⟨by omega, by omega⟩

theorem Maps.entry_eq {D : Spaces} {s s' : Machine} (h : Maps D KernelAt s s') {a : Nat}
    (ha : a ∈ D.dirs) {i : Fin 1024} (hi : i.val < 768 ∨ 992 ≤ i.val) :
    s'.pages a i = s.pages a i := by
  by_contra hne
  obtain ⟨virt, ⟨hlo, hhi⟩, rfl⟩ := h.entries a ha i hne
  simp only [dirOf, Fin.val_ofNat] at hi
  omega

/-- A directory of zeros has no tables. -/
theorem paged_of_zero {s : Machine} {L : List Block} (ht : s.Tracked L 0)
    (hzero : ∀ i, s.pages (pageNo s.firstPageDirectory) i = 0) :
    s.Paged ⟨{pageNo s.firstPageDirectory}, ∅⟩ := by
  obtain ⟨hptr, hlt, -⟩ := ht.toLayout.dirPage
  have hnone : ∀ a ∈ ({pageNo s.firstPageDirectory} : Set Nat), ∀ i,
      tablePage (s.pages a i) = none := by
    rintro a rfl i
    rw [hzero]
    rfl
  refine ⟨⟨fun a ha i t hi => ?_, fun a ha b hb i j t hi hj => ?_⟩, fun q hq => ?_, fun q hq => ?_,
    hptr, rfl⟩
  · rw [hnone a ha i] at hi
    cases hi
  · rw [hnone a ha i] at hi
    cases hi
  · rcases hq with (rfl | ⟨a, ha, i, hi⟩) | hq
    · simp only [InUse, pageOf] at *
      exact ⟨by omega, fun b _ p _ hb => by omega⟩
    · rw [hnone a ha i] at hi
      cases hi
    · cases hq
  · cases hq

section Loops

variable {s : Machine} {L : List Block} {D : Spaces} (ht : s.Tracked L 0) (hp : s.Paged D)
include ht hp

/-- The loop that maps the kernel. -/
theorem mapKernel_maps {stop : Nat} (hstop : stop ≤ 0xC0600000)
    (hend : stop ≤ 0xC0000000 + s.kmemPhysEnd) :
    Outcome ((addrs 0xC0000000 stop 4096).foldlM (fun s addr =>
      s.mapPage kmemAlloc4k addr prwr (fromKmem addr ||| prwr) s.firstPageDirectory) s)
      (fun s' => ∃ L, s'.Tracked L 0 ∧ Maps D KernelAt s s' ∧
        s'.DirectTo (pageNo s.firstPageDirectory) stop) fun _ => True := by
  have hlen : 0xC0000000 + 4096 * (addrs 0xC0000000 stop 4096).length < 0xC0600000 + 4096 ∧
      stop ≤ 0xC0000000 + 4096 * (addrs 0xC0000000 stop 4096).length := by
    rw [addrs, List.length_range']
    omega
  have hphys := ht.physEnd
  have hloop := Outcome.foldlM_index (E := fun _ => True) (l := addrs 0xC0000000 stop 4096) (k := 0)
    (f := fun s addr => s.mapPage kmemAlloc4k addr prwr (fromKmem addr ||| prwr)
      s.firstPageDirectory)
    (Q := fun i s' => ∃ L, s'.Tracked L 0 ∧ Maps D KernelAt s s' ∧
      s'.DirectTo (pageNo s.firstPageDirectory) (min stop (0xC0000000 + 4096 * i)))
    (a := s) ?_ ⟨L, ht, Maps.refl hp, fun virt _ hlo hhi => ?_⟩
  · refine hloop.mono ?_ fun _ he => he
    rintro s' ⟨L, htracked, hmaps, hdirect⟩
    rw [Nat.zero_add, Nat.min_eq_left hlen.2] at hdirect
    exact ⟨L, htracked, hmaps, hdirect⟩
  · rintro s' i hi ⟨L, htracked, hmaps, hdirect⟩
    rw [Nat.zero_add] at hdirect ⊢
    have haddr : (addrs 0xC0000000 stop 4096)[i] = 0xC0000000 + 4096 * i := by
      simp only [addrs, List.getElem_range']
    rw [haddr]
    have hmod : (0xC0000000 + 4096 * i) % 4096 = 0 := by omega
    have hlt : 0xC0000000 + 4096 * i < 2 ^ 32 := by omega
    have hpte : fromKmem (0xC0000000 + 4096 * i) ||| prwr < 2 ^ 32 := by
      refine Nat.or_lt_two_pow ?_ (by decide)
      unfold fromKmem
      omega
    refine (mapPage_mapped htracked hmaps.paged hmaps.paged.first.1 hmaps.paged.first.2
      hmod hlt hpte (by decide) (by decide)
      (kmemAlloc_fetched htracked hmaps.paged .k4)).mono ?_ fun _ he => he
    rintro s'' ⟨T, hm⟩
    refine ⟨T ++ L, hm.tracked, hmaps.trans (hm.maps.mono fun d a ha => ?_),
      fun virt hv hlo hhi => ?_⟩
    · rcases ha with ⟨rfl, rfl⟩ | ha
      · exact ⟨by omega, by omega⟩
      · exact ha.kernelAt hm.tracked hm.maps.base
    · by_cases hat : virt = 0xC0000000 + 4096 * i
      · have hwalk := hm.walk
        rw [hmaps.dir] at hwalk
        rw [hat, hwalk]
      · have hbelow : virt < 0xC0000000 + 4096 * i := by omega
        rw [hm.maps.walk _ hp.first.2 virt hv (Nat.lt_trans hbelow hlt) fun d hin => ?_]
        · exact hdirect virt hv hlo (by omega)
        · rcases hin with ⟨-, heq⟩ | hgrown
          · exact hat heq
          · -- new buddies lie behind what is mapped here
            have hglo := hgrown.lo
            have hbuddies := buddies_le s.kmem.base hmaps.pos
            rw [hmaps.base] at hglo
            omega
  · rw [Nat.mul_zero, Nat.add_zero] at hhi
    omega

/-- A round of the loop that creates the tables of the kmem region. -/
theorem initTable_maps {s₀ : Machine} {i : Nat} {K : List Block} (hT : Tables s₀ i s K)
    (hd : s.Direct)
    (hbase : s₀.kmem.base ≤ 0xC0488000) (hi : i < 252) {a : Nat} (ha : 0xC0400000 + 2 ^ 22 * i ≤ a)
    (hlt : a < 0xF8000000) (hmod : a % 4096 = 0) :
    Outcome (s.initTable a)
    (fun s' => (∃ K, Tables s₀ (i + 1) s' K) ∧ s'.Direct ∧ ∃ L, s'.Tracked L 0 ∧
      Maps D KernelAt s s' ∧ tablePage (s'.pages (pageNo s'.firstPageDirectory) (dirOf a)) ≠ none)
      fun _ => True := by
  have hlt' : a < 2 ^ 32 := by omega
  have hfirst := hp.first
  rw [initTable]
  dsimp only
  refine .ite (fun _ => trivial) fun habsent => ?_
  rw [load_dir hfirst.1 s hlt', not_not] at habsent
  have halloc := ((hT.alloc hi).and ((kmemAlloc_direct ht hp hd .k4).both
    (kmemAlloc_fetched ht hp .k4))).mono (fun _ h => h) fun _ _ => trivial
  refine halloc.bind ?_
  rintro ⟨p, s₁⟩ ⟨⟨K', hK⟩, hd₁, x, T, hf⟩
  dsimp only at hK hf hd₁ ⊢
  have habsent₁ : tablePage (s₁.pages (pageNo s.firstPageDirectory) (dirOf a)) = none := by
    by_contra hpresent
    -- the pages of a new buddy lie far below
    obtain ⟨virt, hgrown, hdir⟩ := hf.maps.entries _ hfirst.2 (dirOf a) fun hsame =>
      hpresent (hsame ▸ tablePage_eq_none.2 habsent)
    have hlo := hgrown.lo
    have hhi := hgrown.hi
    have hpos₀ := hT.pos
    have hb := hT.base
    have hdir := congrArg Fin.val hdir
    simp only [dirOf, Fin.val_ofNat] at hdir
    rcases hK.pos with hpos | ⟨hpos, hi'⟩ <;> rw [hpos] at hhi <;> omega
  have hor : fromKmem p ||| present ||| write = fromKmem p ||| prwr := Nat.or_assoc _ _ _
  rw [hor]
  obtain ⟨htracked, hmaps, htable, -⟩ := newTable_maps (s := s₁) hf.tracked hf.maps.paged hfirst.1
    hfirst.2 hlt' habsent₁ (show prwr < 4096 by decide) (by decide) List.mem_cons_self hf.size
    hf.not_holds hf.addr rfl
  refine ⟨⟨K', hK.congr ?_⟩, ?_, _, htracked, (hf.maps.mono fun d b hb => ?_).trans
    (hmaps.mono fun d b hb => ?_), ?_⟩
  · rw [store, memset]
  · -- the new table is not one of the direct map
    have hout : 0xC0000000 + s₁.kmemPhysEnd ≤ a := by
      by_contra hin
      refine hd₁.all.table hmod (by omega) (Nat.lt_of_not_le hin) ?_
      rw [hf.maps.dir]
      exact habsent₁
    refine hd₁.maps hf.tracked hf.maps.paged hmaps (by rw [store, memset])
      (by rw [store_kmem, memset_kmem]) fun d v hv => Or.inl ?_
    rw [hv.2]
    exact hout
  · exact hb.kernelAt hf.tracked hf.maps.base
  · rw [hb.2]
    exact ⟨by omega, hlt⟩
  · rw [hmaps.dir, hf.maps.dir, htable]
    exact Option.some_ne_none _

end Loops

/-! ## `init_page_allocator` -/

/-- Before anything is mapped. -/
theorem Booted.cleared {s s₁ s₂ : Machine} (h : s.Booted) (hg : Globals s s₁)
    (hs₂ : s₂ = s₁.memset s₁.firstPageDirectory 0 4096) :
    s₂.Tracked [] 0 ∧ ∀ i, s₂.pages (pageNo s₂.firstPageDirectory) i = 0 := by
  obtain ⟨hbase, -, -, hhi⟩ := h.base
  have hlayout : s₂.Layout := hs₂ ▸ h.layout hg
  obtain ⟨-, -, haddr⟩ := hlayout.dirPage
  have hkmem : s₂.kmem = s.initKmem.buddyNewNoAlloc := by rw [hs₂, memset_kmem, hg.kmem]
  have hdir : s₂.firstPageDirectory = s₁.firstPageDirectory := by rw [hs₂, memset_dir]
  have hbase₁ : s.initKmem.buddyNewNoAlloc.base = s.buddyMemoryEndPhys + 0xC0000000 := hbase
  have hpos : s.initKmem.buddyNewNoAlloc.buddyArrayPos = 1 := rfl
  have hphys : s₂.kmemPhysEnd = s₁.kmemPhysEnd := by rw [hs₂, memset]
  have hregion : s₂.kmemRegionEnd = s₁.kmemRegionEnd := by rw [hs₂, memset]
  refine ⟨⟨hlayout, ?_, ?_, ?_, ?_⟩, fun i => ?_⟩
  · rw [hkmem]
    exact s.initKmem_accounts.buddyNewNoAlloc.marked
  · rw [hphys, hg.kmemPhysEnd, hkmem, hbase₁, hpos]
    omega
  · rw [hphys, hg.kmemPhysEnd]
    omega
  · rw [hregion]
    exact hg.region.1
  · rw [hdir] at haddr ⊢
    rw [hs₂, pages_memset_zero haddr, Function.update_self]

theorem addrs_getElem {start stop step i : Nat} (h : i < (addrs start stop step).length) :
    (addrs start stop step)[i] = start + step * i := by
  simp only [addrs, List.getElem_range']

/-- The loop that creates the tables of the kmem region. -/
theorem initTables_maps {s : Machine} {K L : List Block} {D : Spaces} (hT : Tables s 0 s K)
    (ht : s.Tracked L 0) (hp : s.Paged D) (hd : s.Direct) (hbase : s.kmem.base ≤ 0xC0488000)
    {mapped : Nat}
    (hlo : 0xC0000000 < mapped) (hhi : mapped ≤ 0xC0600000) :
    Outcome ((tableAddrs mapped s.kmemRegionEnd).foldlM initTable s)
      (fun s' => ∃ L, s'.Tracked L 0 ∧ Maps D KernelAt s s' ∧ s'.Direct ∧
        ∀ i : Fin 1024, mapped ≤ i.val * 2 ^ 22 → i.val * 2 ^ 22 < 0xC0000000 + s.kmemRegionEnd →
          tablePage (s'.pages (pageNo s'.firstPageDirectory) i) ≠ none) fun _ => True := by
  have hregion := ht.region
  have hlen := tableAddrs_length hlo.le hhi hregion
  have hvirt : toVirt s.kmemRegionEnd = s.kmemRegionEnd + 0xC0000000 := by
    unfold toVirt
    omega
  obtain ⟨start, hstart⟩ : ∃ start,
    start = (((mapped + ((1 <<< 22) - 1)) % 2 ^ 32) >>> 22) <<< 22 :=
    ⟨_, rfl⟩
  rw [tableAddrs, ← hstart, hvirt] at hlen ⊢
  rw [Nat.shiftRight_eq_div_pow, Nat.shiftLeft_eq, show 1 <<< 22 = 4194304 from rfl] at hstart
  rw [show 1 <<< 22 = 4194304 from rfl] at hlen ⊢
  set l := addrs start (s.kmemRegionEnd + 0xC0000000) 4194304 with hl
  have hcount : l.length = (s.kmemRegionEnd + 0xC0000000 - start + 4194303) / 4194304 := by
    rw [hl, addrs, List.length_range']
  have hloop :=
    Outcome.foldlM_index (E := fun _ => True) (l := l) (k := 0) (f := initTable) (a := s)
    (Q := fun i s' => (∃ K, Tables s i s' K) ∧ s'.Direct ∧ ∃ L, s'.Tracked L 0 ∧
      Maps D KernelAt s s' ∧
      ∀ k < i, tablePage (s'.pages (pageNo s'.firstPageDirectory) (dirOf (start + 4194304 * k))) ≠
      none)
    ?_ ⟨⟨K, hT⟩, hd, L, ht, Maps.refl hp, fun k hk => absurd hk (Nat.not_lt_zero k)⟩
  · refine hloop.mono ?_ fun _ he => he
    rintro s' ⟨-, hd', L, htracked, hmaps, htables⟩
    refine ⟨L, htracked, hmaps, hd', fun i hi hi' => ?_⟩
    have hk := htables (i - start / 4194304) (by omega)
    have hdir : dirOf (start + 4194304 * (i - start / 4194304)) = i := by
      apply Fin.ext
      simp only [dirOf, Fin.val_ofNat]
      omega
    rwa [hdir] at hk
  · rintro s' i hi ⟨⟨K, hK⟩, hd', L, htracked, hmaps, htables⟩
    rw [Nat.zero_add] at hK htables ⊢
    have haddr : l[i] = start + 4194304 * i := addrs_getElem hi
    rw [haddr]
    refine (initTable_maps htracked hmaps.paged hK hd' hbase (by omega) (by omega) (by omega)
      (by omega)).mono ?_ fun _ he => he
    rintro s'' ⟨hK', hd'', L', htracked', hmaps', htable⟩
    refine ⟨hK', hd'', L', htracked', hmaps.trans hmaps', fun k hk => ?_⟩
    rcases Nat.lt_succ_iff_lt_or_eq.1 hk with hk | rfl
    · obtain ⟨t, htab⟩ := Option.ne_none_iff_exists'.1 (htables k hk)
      rw [hmaps'.dir, hmaps'.tables _ hmaps.paged.first.2 _ t htab, htab]
      exact Option.some_ne_none t
    · exact htable

/-- The state that `init_page_allocator` leaves has tables for the whole region. -/
theorem Booted.ready {s : Machine} (h : s.Booted) :
    Outcome s.initPageAllocator (fun s' => ∃ K, s'.Ready K) fun _ => True := by
  obtain ⟨-, -, -, hhi⟩ := h.base
  rw [Machine.initPageAllocator]
  refine (h.initGlobals.mono (fun _ hg => hg) fun _ _ => trivial).bind fun s₁ hg => ?_
  obtain ⟨s₂, T, hs₂, hgrow⟩ := h.mapKernel hg
  have hvirt : toVirt s₁.kmemPhysEnd = s.buddyMemoryEndPhys + 2 ^ 19 + 0xC0000000 := by
    rw [hg.kmemPhysEnd]
    unfold toVirt
    omega
  dsimp only
  rw [hs₂, ok_bind]
  generalize hs₀ : s₁.memset s₁.firstPageDirectory 0 4096 = s₀ at hs₂
  obtain ⟨htracked, hzero⟩ := h.cleared hg hs₀.symm
  have hend₀ : s₀.kmemPhysEnd = s₁.kmemPhysEnd := by rw [← hs₀, memset]
  have hdir₀ : s₀.firstPageDirectory = s₁.firstPageDirectory := by rw [← hs₀, memset]
  have hend₂ : s₂.kmemPhysEnd = s₁.kmemPhysEnd := by rw [hgrow.globals]
  have hphys := hg.kmemPhysEnd
  have hstop : toVirt s₁.kmemPhysEnd ≤ 0xC0600000 := by omega
  have hle : toVirt s₁.kmemPhysEnd ≤ 0xC0000000 + s₀.kmemPhysEnd := by omega
  obtain ⟨L₂, ht₂, hm₂, hdirect₂⟩ :=
    (mapKernel_maps htracked (paged_of_zero htracked hzero) hstop hle).of_ok hs₂
  -- the register is set
  generalize hs₃ : ({ s₂ with cr3 := fromKmem s₂.firstPageDirectory } : Machine) = s₃
  have hk₃ : s₃.kmem = s₂.kmem := by rw [← hs₃]
  have hmem₃ : s₃.mem = s₂.mem := by rw [← hs₃]
  have hdir₃ : s₃.firstPageDirectory = s₂.firstPageDirectory := by rw [← hs₃]
  have hregion₃ : s₃.kmemRegionEnd = s₂.kmemRegionEnd := by rw [← hs₃]
  have hpages₃ : s₃.pages = s₂.pages := by
    funext q k
    rw [pages, pages, hmem₃]
  obtain ⟨hstart, hbase₃⟩ :=
    h.startTables hg hgrow (show s₃ = { s₂ with cr3 := s₃.cr3 } by rw [← hs₃])
  have ht₃ : s₃.Tracked L₂ 0 := ht₂.congr hk₃ hdir₃ (by rw [← hs₃]) hregion₃
  have hp₃ := hm₂.paged.congr hmem₃ hk₃ hdir₃
  have hend₃ : s₃.kmemPhysEnd = s₂.kmemPhysEnd := by rw [← hs₃]
  have hd₃ : s₃.Direct := by
    have hstop : 0xC0000000 + s₃.kmemPhysEnd = toVirt s₁.kmemPhysEnd := by omega
    have hpos := hstart.pos
    refine ⟨?_, Or.inr (by omega)⟩
    rw [hstop, hdir₃, hm₂.dir]
    exact hdirect₂.congr fun i j => by rw [hpages₃]
  rw [← hregion₃]
  refine (initTables_maps hstart ht₃ hp₃ hd₃ (by omega)
    (show 0xC0000000 < toVirt s₁.kmemPhysEnd by omega) (by omega)).mono ?_ fun _ he => he
  rintro s' ⟨L, ht', hm', hd', htables⟩
  have hdir' : s'.firstPageDirectory = s₀.firstPageDirectory := by rw [hm'.dir, hdir₃, hm₂.dir]
  have hfirst : pageNo s₀.firstPageDirectory ∈ ({pageNo s₀.firstPageDirectory} : Set Nat) := rfl
  refine ⟨L, ht', hdir' ▸ hm'.paged, fun i hi => ?_, fun i hi => ?_, hd', ?_⟩
  · obtain ⟨hi, hi'⟩ := hi
    rw [hm'.base, hbase₃, hm'.globals] at hi'
    by_cases hk : toVirt s₁.kmemPhysEnd ≤ i.val * 2 ^ 22
    · exact htables i hk (hi'.resolve_right (by omega))
    · have hmod : i.val * 2 ^ 22 % 4096 = 0 := by omega
      have hpresent := hdirect₂.table hmod (by omega) (Nat.lt_of_not_le hk)
      have hindex : dirOf (i.val * 2 ^ 22) = i := by
        apply Fin.ext
        simp only [dirOf, Fin.val_ofNat]
        omega
      rw [hindex] at hpresent
      obtain ⟨t, htable⟩ := Option.ne_none_iff_exists'.1 hpresent
      rw [hdir', hm'.tables _ hfirst i t (by rw [hpages₃]; exact htable), hpages₃]
      exact hpresent
  · rw [hdir', hm'.entry_eq hfirst hi, hpages₃, hm₂.entry_eq hfirst hi]
    exact hzero i
  · have hcr3 : s'.cr3 = s₃.cr3 := by rw [hm'.globals]
    rw [hcr3, hdir', ← hs₃, hm₂.dir]

theorem Booted.ready_of_ok {s s' : Machine} (h : s.Booted) (hs : s.initPageAllocator = .ok s') :
    ∃ K, s'.Ready K :=
  h.ready.of_ok hs

/-! ## The law of `_map_page` -/

/-- Whatever path `_map_page` takes, the walk of `pd` at `virt` yields the entry, and the walks of
all directories stay as they were at every other page that is not in a buddy created meanwhile. A
page that was allocated in vain is free again. -/
theorem mapPage_walk {s s' : Machine} {L : List Block} {D : Spaces} {pd virt pdeFlags pte : Nat}
    (ht : s.Tracked L 0) (hp : s.Paged D) (hpd : PagePtr pd) (hD : pageNo pd ∈ D.dirs)
    (hv : virt % 4096 = 0) (hlt : virt < 2 ^ 32) (hpte : pte < 2 ^ 32) (hflags : pdeFlags < 4096)
    (hodd : pdeFlags % 2 = 1) (h : s.mapPage kmemAlloc4k virt pdeFlags pte pd = .ok s') :
    s'.walk virt pd = pte ∧
    (∀ pd' a, PagePtr pd' → pageNo pd' ∈ D.dirs → a % 4096 = 0 → a < 2 ^ 32 → a ≠ virt →
      ¬ (s.kmem.base + s.kmem.buddyArrayPos * 2 ^ 19 ≤ a ∧
        a < s.kmem.base + s'.kmem.buddyArrayPos * 2 ^ 19) → s'.walk a pd' = s.walk a pd') ∧
    ∀ p s₁, s.load (pd + 4 * (virt >>> 22)) &&& present = 0 → s.kmemAlloc4k = .ok (p, s₁) →
      s₁.load (pd + 4 * (virt >>> 22)) &&& present ≠ 0 →
      ∃ s₂ b i, s₁.kmemFree4k p = .ok s₂ ∧ s'.kmem = s₂.kmem ∧ p = s'.kmem.blockAddr .k4 b i ∧
        s'.kmem.bit .k4 b i = true := by
  obtain ⟨T, hm⟩ := (mapPage_mapped ht hp hpd hD hv hlt hpte hflags hodd
    (kmemAlloc_fetched ht hp .k4)).of_ok h
  refine ⟨?_, fun pd' a hpd' hD' ha hlt' hne hold => ?_, fun p s₁ habsent halloc hpresent => ?_⟩
  · rw [walk_eq hpd s' hlt]
    exact hm.walk
  · rw [walk_eq hpd' s' hlt', walk_eq hpd' s hlt']
    refine hm.maps.walk _ hD' a ha hlt' fun d hd => ?_
    rcases hd with ⟨-, heq⟩ | hgrown
    · exact hne heq
    · exact hold ⟨hgrown.lo, hgrown.hi⟩
  · obtain ⟨x, T, hf⟩ := (kmemAlloc_fetched ht hp .k4).of_ok halloc
    obtain ⟨s₂, hs₂, -, hmaps, -, -, hbit⟩ := hf.free
    have hv' : ¬ virt &&& 0xFFF ≠ 0 := by
      rw [Nat.and_two_pow_sub_one_eq_mod virt 12]
      omega
    rw [mapPage, if_neg hv'] at h
    dsimp only at h
    rw [if_neg (not_not.2 habsent), halloc, ok_bind] at h
    dsimp only at h hs₂
    rw [if_pos hpresent, hs₂, ok_bind] at h
    have hkmem : s'.kmem = s₂.kmem := by
      rw [← Except.ok.inj h, store_kmem]
    have hbase : s₂.kmem.base = s₁.kmem.base := hmaps.base.trans hf.maps.base.symm
    refine ⟨s₂, x.buddy, x.index, hs₂, hkmem, ?_, hkmem ▸ hbit⟩
    rw [hkmem, Client.blockAddr_congr hbase]
    exact hf.addr

theorem mapPage_walk_small : ∃ s s', Client.smallBoot.initPageAllocator = .ok s ∧
    s.mapPage kmemAlloc4k 0xC0000000 prwr 7 s.firstPageDirectory = .ok s' ∧
    s'.walk 0xC0000000 s.firstPageDirectory = 7 := by
  obtain ⟨s, hs, htrace⟩ := Client.smallBoot_init
  obtain ⟨K, hK⟩ := Client.smallBoot_booted.ready_of_ok hs
  have htable : s.HasTable (0xC0000000 >>> 22) := by
    rw [show 0xC0000000 >>> 22 = 768 by decide]
    exact htrace.table
  obtain ⟨s', hs', -⟩ := mapPage_of_hasTable kmemAlloc4k prwr htrace.layout
    (show 0xC0000000 % 4096 = 0 by decide) (show 7 % 2 = 1 by decide) htable
  exact ⟨s, s', hs, hs', (mapPage_walk hK.tracked hK.paged hK.paged.first.1 hK.paged.first.2
    (by decide) (by decide) (by decide) (by decide) (by decide) hs').1⟩

end Machine

end TinyLittleOs.Memory
