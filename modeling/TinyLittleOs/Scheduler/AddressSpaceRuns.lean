import TinyLittleOs.Memory.AboveKmem
import TinyLittleOs.Scheduler.AddressSpaces

/-!
# Coherent address spaces

Every step of the kernel keeps the tables of the kmem region where `init_page_allocator` put them,
as long as tasks map pages in the user half only. `map_user_page` does not check its address: a page
put over `first_page_directory` is what the next `new_page_directory` copies.
-/

namespace TinyLittleOs.Scheduler

open Lib Memory Memory.Machine Relation

namespace System

variable {c c' : System} {U K : List Block}

theorem kmemFree_frame {s s' : Machine} {n : BlockSize} {p : Nat} (h : s.kmemFree n p = .ok s') :
    s'.pages = s.pages ∧ s'.firstPageDirectory = s.firstPageDirectory ∧
    s'.kmem.base = s.kmem.base := by
  obtain ⟨halike, hmem⟩ := kmemFree_alike h
  refine ⟨?_, ?_, halike.base⟩
  · funext q k
    rw [pages, pages, hmem]
  · rw [halike.globals]

/-- The page table and the lower half of the stack are free, the upper half stays. -/
theorem Inv.wrapperEnd (h : c.Inv U K) {s₁ s₂ : Machine} {a b : List (BlockSize × Nat)}
    {u v : List (Nat × Option Nat)} {cr3 p stack : Nat} (htasks : c.tasks = u ++ (cr3, some p) :: v)
    (hheld : c.held = a ++ (.k8, stack) :: b) (hp : c.machine.kmemFree4k p = .ok s₁)
    (hstack : s₁.kmemFree4k stack = .ok s₂) :
    ∃ U' K', Inv ⟨s₂, (.k4, stack + 4096) :: (a ++ b), u ++ v, cr3 :: c.ended⟩ U' K' := by
  obtain ⟨s, held, tasks, ended⟩ := c
  dsimp only at htasks hheld hp
  subst htasks hheld
  -- the last table is given back
  obtain ⟨x, U₁, hx, hretire, hapart⟩ := h.retire rfl
  dsimp only at hx hretire hapart
  have hsize : x.size = .k4 := congrArg Prod.fst hx
  have hfree : s.kmemFree x.size (see s x).2 = .ok s₁ := by
    rw [hsize, hx]
    exact hp
  have h₁ := hretire.free hapart hfree
  dsimp only at h₁
  -- and the lower half of the stack
  obtain ⟨⟨n, buddy, i⟩, U₂, hy, hunhold, hfresh⟩ := h₁.unhold rfl
  dsimp only at hy hunhold hfresh
  obtain rfl : n = .k8 := congrArg Prod.fst hy
  have hsplit := hunhold.split rfl
  obtain ⟨hlo, hhi⟩ :=
    see_half (hsplit.tracked.perm (List.perm_append_comm.trans (List.Perm.refl _)))
  dsimp only at hlo hhi
  rw [hy] at hlo hhi
  dsimp only at hlo hhi
  have hfree₂ : s₁.kmemFree .k4 (see s₁ ⟨.k4, buddy, 2 * i⟩).2 = .ok s₂ := by
    rw [hlo]
    exact hstack
  have h₂ := hsplit.free (fun q hq => hfresh q (pageIn_half.1 hq)) hfree₂
  -- the upper half stays
  obtain ⟨hpages, hdir, hbase⟩ := kmemFree_frame hfree₂
  have hhold := h₂.hold (x := ⟨.k4, buddy, 2 * i + 1⟩) fun q hq hrefs => by
    dsimp only at hq hrefs
    rw [PageIn, pageOf, hbase, ← pageOf, ← PageIn] at hq
    rw [hpages, dirs, hdir] at hrefs
    exact hfresh q (pageIn_half.2 hq) (Or.inl hrefs)
  dsimp only at hhold
  rw [see_congr hbase, hhi] at hhold
  exact ⟨_, _, hhold⟩

/-- Pages of the buddies are below the end of kmem. -/
theorem Inv.see_lt (h : c.Inv U K) {x : Block} (hx : x ∈ U ++ K) :
    (see c.machine x).2 < 0xC0000000 + c.machine.kmemPhysEnd := by
  obtain ⟨hb, hi⟩ := h.tracked.marked.valid x hx
  obtain ⟨-, hhi, -⟩ := h.tracked.toLayout.blockAddr_bounds hb hi
  have hphys := h.tracked.physEnd
  have hbytes : 0 < x.size.bytes := Nat.two_pow_pos _
  rw [see]
  dsimp only
  omega

/-- Where the page tables are coherent, `new_page_directory` copies `first_page_directory`. -/
theorem Inv.newPageDirectory_eq_ok (h : c.Inv U K) {cr3 : Nat} {s' : Machine} :
    c.machine.newPageDirectory = .ok (cr3, s') ↔ ∃ p s₁, c.machine.kmemAlloc .k4 = .ok (p, s₁) ∧
      cr3 = fromKmem p ∧ s' = s₁.memcpy p s₁.firstPageDirectory 4096 := by
  rw [Machine.newPageDirectory, kmemAlloc4k]
  cases halloc : c.machine.kmemAlloc .k4 with
  | error e =>
    constructor
    · intro hnew
      cases hnew
    · rintro ⟨p, s₁, hs₁, -⟩
      cases hs₁
  | ok r =>
    obtain ⟨p, s₁⟩ := r
    obtain ⟨x, T, hinv, hsee, -, -⟩ := h.fetched halloc
    have hx : x ∈ U ++ x :: (T ++ K) := by simp
    have hptr := pagePtr_see hinv.tracked hx
    have hlt := hinv.see_lt hx
    rw [hsee] at hptr hlt
    have hend := pageOf_end hinv.tracked
    have hdir := hinv.tracked.dirHi
    have hphys := hinv.tracked.physEnd
    dsimp only at hptr hlt hend hdir hphys
    have hcopy : s₁.copyPage p s₁.firstPageDirectory = _ :=
      hinv.directHere.copyPage hinv.currentPtr.1
      (by dsimp only; omega) hptr hlt hinv.paged.first.1 (by dsimp only; omega)
    rw [ok_bind]
    dsimp only
    rw [hcopy, ok_bind]
    constructor
    · intro hnew
      obtain ⟨rfl, hs'⟩ := Prod.mk.inj (Except.ok.inj hnew)
      exact ⟨p, s₁, rfl, rfl, hs'.symm⟩
    · rintro ⟨p', s₁', hs₁, rfl, rfl⟩
      obtain ⟨rfl, rfl⟩ := Prod.mk.inj (Except.ok.inj hs₁)
      rfl

theorem Inv.newPageDirectory (h : c.Inv U K) {cr3 : Nat} {s' : Machine}
    (hnew : c.machine.newPageDirectory = .ok (cr3, s')) :
    ∃ U' K', Inv ⟨s', c.held, (cr3, none) :: c.tasks, c.ended⟩ U' K' := by
  obtain ⟨p, s₁, halloc, rfl, hs'⟩ := h.newPageDirectory_eq_ok.1 hnew
  obtain ⟨x, T, hinv, hsee, hfresh, -⟩ := h.fetched halloc
  have hsize : x.size = .k4 := congrArg Prod.fst hsee
  have hp : p = (see s₁ x).2 := congrArg Prod.snd hsee.symm
  exact ⟨_, _, hinv.newDir hsize (page_holds hsize hfresh) hp hs'⟩

theorem Inv.wrapperBegin (h : c.Inv U K) {u v : List (Nat × Option Nat)} {p : Nat} {s' : Machine}
    (htasks : c.tasks = u ++ (c.machine.cr3, none) :: v)
    (hb : Kernel.wrapperBegin c.machine = .ok (p, s')) :
    ∃ U' K', Inv ⟨s', c.held, u ++ (c.machine.cr3, some p) :: v, c.ended⟩ U' K' := by
  rw [Kernel.wrapperBegin, kmemAlloc4k] at hb
  cases halloc : c.machine.kmemAlloc .k4 with
  | error e =>
    rw [halloc] at hb
    cases hb
  | ok r =>
    obtain ⟨q, s₁⟩ := r
    rw [halloc, ok_bind] at hb
    dsimp only at hb
    obtain ⟨rfl, hs'⟩ := Prod.mk.inj (Except.ok.inj hb)
    obtain ⟨x, T, hinv, hsee, hfresh, hcr3⟩ := h.fetched halloc
    have hsize : x.size = .k4 := congrArg Prod.fst hsee
    have hp : q = (see s₁ x).2 := congrArg Prod.snd hsee.symm
    have hsame : (s₁.memset q 0 4096).cr3 = c.machine.cr3 := by
      rw [memset]
      exact hcr3
    rw [Nat.or_assoc, hsame] at hs'
    exact ⟨_, _, hinv.newTable hsize (page_holds hsize hfresh) hp htasks hs'.symm⟩

theorem Inv.step (h : c.Inv U K) (hs : Step userTop c c') : ∃ U' K', c'.Inv U' K' := by
  cases hs with
  | alloc halloc =>
    obtain ⟨x, T, hinv, hsee, hfresh, -⟩ := h.fetched halloc
    have hhold := hinv.hold fun q hq hrefs => hfresh q hq (Or.inl hrefs)
    dsimp only at hhold
    rw [hsee] at hhold
    exact ⟨_, _, hhold⟩
  | free hfree =>
    obtain ⟨x, U', hsee, hinv, hapart⟩ := h.unhold rfl
    refine ⟨U', K, hinv.free hapart ?_⟩
    have hsize : x.size = _ := congrArg Prod.fst hsee
    rw [hsize, hsee]
    exact hfree
  | newPageDirectory hnew => exact h.newPageDirectory hnew
  | enter ht => exact ⟨U, K, h.regs rfl rfl rfl rfl rfl (Or.inr ⟨_, ht, rfl⟩)⟩
  | wrapperBegin hb => exact h.wrapperBegin rfl hb
  | mapUserPage ht hvirt hphys hmap =>
    obtain ⟨T, hinv⟩ := h.mapUserPage ht hvirt hphys hmap
    exact ⟨U, _, hinv⟩
  | hmemMap ht haddr hmap => exact ⟨U, K, h.hmemMap ht haddr hmap⟩
  | hmem => exact ⟨U, K, h.regs rfl rfl rfl rfl rfl (Or.inl rfl)⟩
  | write hw => exact ⟨U, K, h.write rfl hw⟩
  | wrapperEnd hp hstack => exact h.wrapperEnd rfl rfl hp hstack

/-- The start of a run. -/
theorem inv_of_ready {s : Machine} (h : s.Ready K) : Inv ⟨s, [], [], []⟩ [] K := by
  have hdirs : dirs ⟨s, [], [], []⟩ = {pageNo s.firstPageDirectory} := by
    ext q
    simp [dirs]
  have hkept : kept ⟨s, [], [], []⟩ = ∅ := by
    ext q
    simp [kept]
  refine ⟨⟨h.covered, fun q hq i hi => ?_, ?_, ?_⟩, h.tracked, List.Perm.nil, ?_, ?_,
    h.direct, Or.inl h.cr3⟩
  · rw [hdirs] at hq
    rcases hq with rfl | ⟨cr3, hcr3, -⟩
    · rfl
    · cases hcr3
  · have hzero := h.empty lastIndex (Or.inr (by decide))
    dsimp only
    rw [hzero]
    rfl
  · intro t ht
    cases ht
  · rw [spaces, hdirs, hkept]
    exact h.paged
  · intro cr3 hcr3
    cases hcr3

theorem Inv.reachable {s : Machine} (h : s.Ready K) (hc : Reachable userTop s c) :
    ∃ U' K', c.Inv U' K' := by
  induction hc with
  | refl => exact ⟨[], K, inv_of_ready h⟩
  | tail _ hs ih =>
    obtain ⟨U', K', hinv⟩ := ih
    exact hinv.step hs

/-! ## The kmem region -/

/-- The directory at `pd` has the tables of the kmem region that `first_page_directory` has, so that
the walks there agree and `_map_page` needs no new table. -/
structure Shares (s : Machine) (pd : Nat) : Prop where
  entries : ∀ i < 1024, 0xC0000000 ≤ i * 2 ^ 22 → i * 2 ^ 22 < 0xC0000000 + s.kmemRegionEnd →
    s.load (pd + 4 * i) = s.load (s.firstPageDirectory + 4 * i) ∧
    s.load (pd + 4 * i) &&& present ≠ 0
  walk : ∀ virt, 0xC0000000 ≤ virt → virt < 0xC0000000 + s.kmemRegionEnd →
    s.walk virt pd = s.walk virt s.firstPageDirectory
  mapPage : ∀ virt, 0xC0000000 ≤ virt → virt < 0xC0000000 + s.kmemRegionEnd →
    ∀ alloc alloc' pdeFlags pte, s.mapPage alloc virt pdeFlags pte pd =
    s.mapPage alloc' virt pdeFlags pte pd

theorem shares_of_entries {s : Machine} {pd : Nat} (hregion : s.kmemRegionEnd ≤ 0x38000000)
    (h : ∀ i < 1024, 0xC0000000 ≤ i * 2 ^ 22 → i * 2 ^ 22 < 0xC0000000 + s.kmemRegionEnd →
      s.load (pd + 4 * i) = s.load (s.firstPageDirectory + 4 * i) ∧
      s.load (pd + 4 * i) &&& present ≠ 0) :
    Shares s pd := by
  have hat (virt : Nat) (hlo : 0xC0000000 ≤ virt) (hhi : virt < 0xC0000000 + s.kmemRegionEnd) :=
    h (virt >>> 22) (by rw [Nat.shiftRight_eq_div_pow]; omega)
      (by rw [Nat.shiftRight_eq_div_pow]; omega) (by rw [Nat.shiftRight_eq_div_pow]; omega)
  refine ⟨h, fun virt hlo hhi => ?_, fun virt hlo hhi alloc alloc' pdeFlags pte => ?_⟩
  · rw [walk, walk, (hat virt hlo hhi).1]
  · have hpresent := (hat virt hlo hhi).2
    rw [Machine.mapPage, Machine.mapPage]
    dsimp only
    rw [if_pos hpresent, if_pos hpresent]

theorem Inv.shares (h : c.Inv U K) {pd : Nat} (hptr : PagePtr pd)
    (hpd : pageNo pd ∈ c.dirs ∨ ∃ cr3 ∈ c.ended, pageNo pd = cr3 / 4096) : Shares c.machine pd := by
  have hregion := h.tracked.region
  refine shares_of_entries hregion fun i hi hlo hhi => ?_
  have hshift : i <<< 22 >>> 22 = i := by
    rw [Nat.shiftLeft_eq, Nat.shiftRight_eq_div_pow]
    omega
  have hlt : i <<< 22 < 2 ^ 32 := by
    rw [Nat.shiftLeft_eq]
    omega
  have hcovers : c.machine.Covers (dirOf (i <<< 22)) := by
    rw [Covers, dirOf_val hlt, hshift]
    exact ⟨by omega, Or.inl hhi⟩
  have hload := load_dir hptr c.machine hlt
  have hload₁ := load_dir h.paged.first.1 c.machine hlt
  rw [hshift] at hload hload₁
  rw [hload, hload₁, h.same _ hpd _ hcovers]
  refine ⟨rfl, fun hzero => h.covered _ hcovers ?_⟩
  rw [tablePage, if_pos hzero]

/-- With pages mapped in the user half only, every directory that `new_page_directory` returned
shares the kmem region, also after the task. -/
theorem directories_share {s₀ s : Machine} (hb : s₀.Booted) (hs : s₀.initPageAllocator = .ok s)
    (hc : Reachable userTop s c) :
    Shares c.machine c.machine.firstPageDirectory ∧
      ∀ cr3 ∈ c.tasks.map Prod.fst ++ c.ended, Shares c.machine (toVirt cr3) := by
  obtain ⟨K₀, hK⟩ := hb.ready_of_ok hs
  obtain ⟨U, K, h⟩ := Inv.reachable hK hc
  refine ⟨h.shares h.paged.first.1 (Or.inl h.paged.first.2), fun cr3 hcr3 => ?_⟩
  obtain ⟨hptr, hno⟩ := h.ptr_of_mem hcr3
  refine h.shares hptr ?_
  rw [hno]
  rcases List.mem_append.1 hcr3 with hcr3 | hcr3
  · obtain ⟨t, ht, rfl⟩ := List.mem_map.1 hcr3
    exact Or.inl (h.mem_dirs ht)
  · exact Or.inr ⟨cr3, hcr3, rfl⟩

/-- In every address space a kmem pointer leads to the byte that the functions above read and write
behind it, so that they mean what the code does. -/
theorem kmem_direct {s₀ s : Machine} (hb : s₀.Booted) (hs : s₀.initPageAllocator = .ok s)
    (hc : Reachable userTop s c) {cr3 p : Nat}
    (hcr3 : cr3 = fromKmem c.machine.firstPageDirectory ∨ cr3 ∈ c.tasks.map Prod.fst ++ c.ended)
    (hlo : 0xC0000000 ≤ p) (hhi : p < 0xC0000000 + c.machine.kmemPhysEnd) :
    ({ c.machine with cr3 } : Machine).translate p = some (fromKmem p) := by
  obtain ⟨K₀, hK⟩ := hb.ready_of_ok hs
  obtain ⟨U, K, h⟩ := Inv.reachable hK hc
  have hend := pageOf_end h.tracked
  have hle := h.tracked.physLe
  obtain ⟨hptr, hdir⟩ : PagePtr (toVirt cr3) ∧
      (pageNo (toVirt cr3) ∈ c.dirs ∨ ∃ cr3' ∈ c.ended, pageNo (toVirt cr3) = cr3' / 4096) := by
    rcases hcr3 with rfl | hcr3
    · rw [toVirt_fromKmem h.paged.first.1]
      exact ⟨h.paged.first.1, Or.inl h.paged.first.2⟩
    · obtain ⟨hptr, hno⟩ := h.ptr_of_mem hcr3
      rw [hno]
      refine ⟨hptr, ?_⟩
      rcases List.mem_append.1 hcr3 with hcr3 | hcr3
      · obtain ⟨t, ht, rfl⟩ := List.mem_map.1 hcr3
        exact Or.inl (h.mem_dirs ht)
      · exact Or.inr ⟨cr3, hcr3, rfl⟩
  have hdirect : ({ c.machine with cr3 } : Machine).DirectTo (pageNo (toVirt cr3))
      (0xC0000000 + c.machine.kmemPhysEnd) :=
    (h.directIn hdir).congr fun i j => rfl
  exact hdirect.translate hptr (by omega) hlo hhi (by omega)

/-! ## A small run -/

/-- The directory has the table for the start of kmem. -/
theorem hasTable_of_entry {s : Machine} (hptr : PagePtr s.firstPageDirectory)
    (h : tablePage (s.pages (pageNo s.firstPageDirectory) (dirOf 0xC0000000)) ≠ none) :
    s.HasTable 768 := by
  have hload := load_dir hptr s (show 0xC0000000 < 2 ^ 32 by decide)
  have hshift : 0xC0000000 >>> 22 = 768 := by decide
  rw [hshift] at hload
  rw [HasTable, hload]
  exact fun hzero => h (tablePage_eq_none.2 hzero)

theorem Inv.kernelTable (h : c.Inv U K) (hregion : 0 < c.machine.kmemRegionEnd) :
    tablePage (c.machine.pages (pageNo c.machine.firstPageDirectory) (dirOf 0xC0000000)) ≠
      none := by
  refine h.covered _ ?_
  rw [Covers, dirOf_val (by decide)]
  omega

/-- Over kmem every table is there, and only memory changes. -/
theorem Inv.mapUserPage_over (h : c.Inv U K) {virt : Nat} (phys : Nat) (writable : Bool)
    (hptr : PagePtr virt)
    (hhi : virt < 0xC0000000 + c.machine.kmemPhysEnd) :
    ∃ s', Scheduler.mapUserPage virt phys writable c.machine = .ok s' ∧
    s' = { c.machine with mem := s'.mem } := by
  have hpresent : c.machine.load (toVirt c.machine.cr3 + 4 * (virt >>> 22)) &&& present ≠ 0 := by
    rw [load_dir h.currentPtr.1 c.machine hptr.hi]
    intro hnone
    exact h.directHere.table hptr.aligned hptr.lo hhi (tablePage_eq_none.2 hnone)
  have hmask : ¬ virt &&& 0xFFF ≠ 0 := by
    rw [Nat.and_two_pow_sub_one_eq_mod virt 12, hptr.aligned]
    decide
  refine ⟨c.machine.store (tableOf (c.machine.load (toVirt c.machine.cr3 + 4 * (virt >>> 22))) +
    4 * (virt >>> 12 &&& 0x03FF)) (userEntry phys writable), mapUserPage_eq_ok.2 ?_, by rw [store]⟩
  rw [Machine.mapPage, if_neg hmask]
  dsimp only
  rw [if_pos hpresent]
  rfl

/-- A page can be mapped when the table for it can be allocated. -/
theorem Inv.mapUserPage_of_alloc (h : c.Inv U K) {q virt phys : Nat} {writable : Bool}
    {s₁ : Machine}
    (hmod : virt % 4096 = 0)
    (halloc : c.machine.kmemAlloc .k4 = .ok (q, s₁)) :
    ∃ s', Scheduler.mapUserPage virt phys writable c.machine = .ok s' := by
  obtain ⟨x, T, hf⟩ := (kmemAlloc_fetched h.tracked h.paged .k4).of_ok halloc
  obtain ⟨s₂, hs₂, -⟩ := hf.free
  have hmask : ¬ virt &&& 0xFFF ≠ 0 := by
    rw [Nat.and_two_pow_sub_one_eq_mod virt 12]
    omega
  refine (exists_congr fun s' => mapUserPage_eq_ok).2 ?_
  rw [Machine.mapPage, if_neg hmask]
  dsimp only
  split
  · exact ⟨_, rfl⟩
  · rw [kmemAlloc4k, halloc, ok_bind]
    dsimp only
    split
    · rw [hs₂]
      exact ⟨_, rfl⟩
    · exact ⟨_, rfl⟩

/-- A run on the small machine, with the structures `k` of kmem. -/
structure Small (s : Machine) (c : System) (k : Kmem) : Prop where
  run : Reachable userTop s c
  inv : ∃ U K, c.Inv U K
  traces : Client.Traces 0x110000 0x210000 c.machine k

section Small

variable {s : Machine} {k k' : Kmem} (h : Small s c k)
include h

/-- The next step, where only memory and registers change after `s'`. -/
theorem Small.step (hs : Step userTop c c') {s' : Machine}
    (ht : Client.Traces 0x110000 0x210000 s' k')
    (hk : c'.machine.kmem = s'.kmem) (hdir : c'.machine.firstPageDirectory = s'.firstPageDirectory)
    (hend : c'.machine.kmemPhysEnd = s'.kmemPhysEnd)
    (hregion : c'.machine.kmemRegionEnd = s'.kmemRegionEnd)
    (hhmem : c'.machine.hmemPhysEnd = s'.hmemPhysEnd) : Small s c' k' := by
  obtain ⟨U, K, hinv⟩ := h.inv
  obtain ⟨U', K', hinv'⟩ := hinv.step hs
  refine ⟨h.run.tail hs, ⟨U', K', hinv'⟩, ht.congr hk hdir hend hregion hhmem
    (hasTable_of_entry hinv'.paged.first.1 (hinv'.kernelTable ?_))⟩
  rw [hregion, ht.region]
  decide

theorem Small.newPageDirectory {p : Nat} (ha : Client.traceAlloc .k4 k = some (p, k')) :
    ∃ s', Small s ⟨s', c.held, (fromKmem p, none) :: c.tasks, c.ended⟩ k' := by
  obtain ⟨U, K, hinv⟩ := h.inv
  obtain ⟨s₁, hs₁, ht₁⟩ := h.traces.alloc (by decide) ha
  obtain ⟨s', hs'⟩ : ∃ s', s' = s₁.memcpy p s₁.firstPageDirectory 4096 := ⟨_, rfl⟩
  have hglob : s' = { s₁ with mem := s'.mem } := by rw [hs', memcpy]
  have hnew := hinv.newPageDirectory_eq_ok.2 ⟨p, s₁, hs₁, rfl, hs'⟩
  have hs : Step userTop c ⟨s', c.held, (fromKmem p, none) :: c.tasks, c.ended⟩ :=
    .newPageDirectory hnew
  exact ⟨s', h.step hs ht₁ (by rw [hglob]) (by rw [hglob]) (by rw [hglob]) (by rw [hglob])
    (by rw [hglob])⟩

theorem Small.enter {t : Nat × Option Nat} (ht : t ∈ c.tasks) :
    ∃ s', Small s ⟨s', c.held, c.tasks, c.ended⟩ k ∧ s'.cr3 = t.1 := by
  have hs :
      Step userTop c ⟨{ c.machine with cr3 := t.1, hmemEnd := 0 }, c.held, c.tasks, c.ended⟩ :=
      .enter ht
  have hnext := h.step hs h.traces rfl rfl rfl rfl rfl
  exact ⟨_, hnext, rfl⟩

theorem Small.wrapperBegin {u v : List (Nat × Option Nat)} {p : Nat}
    (htasks : c.tasks = u ++ (c.machine.cr3, none) :: v)
    (ha : Client.traceAlloc .k4 k = some (p, k')) :
    ∃ s', Small s ⟨s', c.held, u ++ (s'.cr3, some p) :: v, c.ended⟩ k' := by
  obtain ⟨U, K, hinv⟩ := h.inv
  obtain ⟨s₁, hs₁, ht₁⟩ := h.traces.alloc (by decide) ha
  obtain ⟨-, -, -, -, -, hcr3⟩ := hinv.fetched hs₁
  obtain ⟨s', hs', hglob⟩ : ∃ s', Kernel.wrapperBegin c.machine = .ok (p, s') ∧
    s' = { s₁ with mem := s'.mem } := by
    rw [Kernel.wrapperBegin, kmemAlloc4k, hs₁]
    exact ⟨_, rfl, by rw [store, memset]⟩
  have hcr3' : s'.cr3 = c.machine.cr3 := by
    rw [hglob]
    exact hcr3
  obtain ⟨m, held, tasks, ended⟩ := c
  dsimp only at htasks hs' hcr3'
  subst htasks
  refine ⟨s', ?_⟩
  rw [hcr3']
  exact h.step (.wrapperBegin hs') ht₁ (by rw [hglob]) (by rw [hglob]) (by rw [hglob])
    (by rw [hglob])
    (by rw [hglob])

/-- A page of hmem is filled with zeros. -/
theorem Small.clear {q : Nat} (hq : c.machine.kmemPhysEnd ≤ 4096 * q) (hlt : 4096 * q < 2 ^ 32) :
    ∃ s', Small s ⟨s', c.held, c.tasks, c.ended⟩ k ∧ s'.cr3 = c.machine.cr3 ∧
    s'.pages q = fun _ => 0 := by
  obtain ⟨U, K, hinv⟩ := h.inv
  have hend := pageOf_end hinv.tracked
  have haddr : fromKmem (toVirt (4096 * q)) = 4096 * q := by
    unfold fromKmem toVirt
    omega
  have hpages := pages_memset_zero (s := c.machine) haddr
  obtain ⟨mem, hmem⟩ : ∃ mem, c.machine.memset (toVirt (4096 * q)) 0 4096 =
    { c.machine with mem } :=
    ⟨_, rfl⟩
  rw [hmem] at hpages
  have hs : Step userTop c ⟨{ c.machine with mem }, c.held, c.tasks, c.ended⟩ := by
    refine .write fun r hr => ?_
    have huse : r < q := by
      rcases hr with hrefs | hended
      · have hlt := (hinv.paged.inUse r (Or.inl hrefs)).1
        omega
      · have hlt := (hinv.paged.inUse r (Or.inr (Or.inr hended))).1
        omega
    rw [hpages, Function.update_of_ne (Nat.ne_of_lt huse)]
  refine ⟨_, h.step hs h.traces rfl rfl rfl rfl rfl, rfl, ?_⟩
  rw [hpages, Function.update_self]

theorem Small.mapUserPage {p q : Nat} (virt phys : Nat) (writable : Bool)
    (ht : (c.machine.cr3, some p) ∈ c.tasks)
    (hmod : virt % 4096 = 0) (hvirt : virt < userTop) (hphys : phys < 2 ^ 32)
    (ha : Client.traceAlloc .k4 k = some (q, k')) :
    ∃ s', Scheduler.mapUserPage virt phys writable c.machine = .ok s' ∧
      Reachable userTop s ⟨s', c.held, c.tasks, c.ended⟩ := by
  obtain ⟨U, K, hinv⟩ := h.inv
  obtain ⟨s₁, hs₁, -⟩ := h.traces.alloc (by decide) ha
  obtain ⟨s', hs'⟩ := hinv.mapUserPage_of_alloc hmod hs₁
  exact ⟨s', hs', h.run.tail (.mapUserPage ht hvirt hphys hs')⟩

end Small

/-- A task has run `task_wrapper`, and a page of hmem is all zeros. -/
theorem smallTask : ∃ s c p k, Client.smallBoot.initPageAllocator = .ok s ∧ Small s c k ∧
    c.tasks = [(c.machine.cr3, some p)] ∧ c.machine.pages 0x20F = (fun _ => 0) ∧
    k.buddyArrayPos = 1 ∧
    (Client.traceAlloc .k4 k).any (fun r => decide (r.1 < 0xC01A8000 ∧ r.2.buddyArrayPos = 1)) =
      true := by
  obtain ⟨s, hs, htrace⟩ := Client.smallBoot_init
  obtain ⟨K₀, hK⟩ := Client.smallBoot_booted.ready_of_ok hs
  have hstart : Small s ⟨s, [], [], []⟩ Client.smallKmem :=
    ⟨.refl, ⟨[], K₀, inv_of_ready hK⟩, htrace⟩
  have hallocs : ((Client.traceAlloc .k4 Client.smallKmem).any fun r =>
      (Client.traceAlloc .k4 r.2).any fun r => decide (r.2.buddyArrayPos = 1) &&
        (Client.traceAlloc .k4 r.2).any fun r =>
          decide (r.1 < 0xC01A8000 ∧ r.2.buddyArrayPos = 1)) = true := by
    decide +kernel
  obtain ⟨⟨p₁, k₁⟩, ha₁, hallocs⟩ := (Option.any_eq_true _ _).1 hallocs
  obtain ⟨⟨p₂, k₂⟩, ha₂, hallocs⟩ := (Option.any_eq_true _ _).1 hallocs
  obtain ⟨hpos, hallocs⟩ := Bool.and_eq_true_iff.1 hallocs
  have hpos := of_decide_eq_true hpos
  obtain ⟨s₁, h₁⟩ := hstart.newPageDirectory ha₁
  obtain ⟨s₂, h₂, hcr3⟩ := h₁.enter List.mem_cons_self
  obtain ⟨s₃, h₃⟩ := h₂.wrapperBegin (u := []) (v := []) (by rw [hcr3]; rfl) ha₂
  have hend := h₃.traces.physEnd
  dsimp only at hend hpos
  obtain ⟨s₄, h₄, hcr3₄, hzero⟩ := h₃.clear (q := 0x20F) (by dsimp only; rw [hend, hpos]; decide)
    (by decide)
  refine ⟨s, _, p₂, k₂, hs, h₄, ?_, hzero, hpos, hallocs⟩
  dsimp only at hcr3₄ ⊢
  rw [hcr3₄]
  rfl

theorem directories_share_small : ∃ s c, Client.smallBoot.initPageAllocator = .ok s ∧
    Reachable userTop s c ∧ c.tasks ≠ [] ∧ ∀ cr3 ∈ c.tasks.map Prod.fst,
    Shares c.machine (toVirt cr3) := by
  obtain ⟨s, c, p, k, hs, h, htasks, -, -, halloc⟩ := smallTask
  obtain ⟨⟨q, k'⟩, ha, -⟩ := (Option.any_eq_true _ _).1 halloc
  have ht : (c.machine.cr3, some p) ∈ c.tasks := by
    rw [htasks]
    exact List.mem_cons_self
  obtain ⟨s', -, hrun⟩ :=
    h.mapUserPage 0x8048000 0x20F000 true ht (by decide) (by decide) (by decide) ha
  refine ⟨s, _, hs, hrun, List.ne_nil_of_mem ht, fun cr3 hcr3 => ?_⟩
  exact (directories_share Client.smallBoot_booted hs hrun).2 cr3 (List.mem_append_left _ hcr3)

theorem kmem_direct_small : ∃ s c, Client.smallBoot.initPageAllocator = .ok s ∧
    Reachable userTop s c ∧ c.tasks ≠ [] ∧ ∀ cr3 ∈ c.tasks.map Prod.fst,
      ({ c.machine with cr3 } : Machine).translate 0xC0123456 = some 0x123456 := by
  obtain ⟨s, c, p, k, hs, h, htasks, -, hpos, -⟩ := smallTask
  have hend := h.traces.physEnd
  rw [hpos] at hend
  have hphys : c.machine.kmemPhysEnd = 0x1A8000 := hend
  have hhi : 0xC0123456 < 0xC0000000 + c.machine.kmemPhysEnd := by omega
  have hfrom : fromKmem 0xC0123456 = 0x123456 := by
    unfold fromKmem
    omega
  refine ⟨s, c, hs, h.run, by rw [htasks]; exact List.cons_ne_nil _ _, fun cr3 hcr3 => ?_⟩
  rw [← hfrom]
  exact kmem_direct Client.smallBoot_booted hs h.run (Or.inr (List.mem_append_left _ hcr3))
    (by omega) hhi

/-! ## A page over `first_page_directory` -/

/-- The frame of a page that `map_user_page` mapped. -/
theorem frame_userEntry {phys : Nat} (h : phys % 4096 = 0) :
    userEntry phys true &&& present ≠ 0 ∧ alignPageDown (userEntry phys true) = phys := by
  have hflags : present ||| user ||| Memory.write = 7 := rfl
  have hor := Nat.two_pow_add_eq_or_of_lt (i := 12) (b := 7) (by decide) (phys / 4096)
  have hphys : 2 ^ 12 * (phys / 4096) = phys := by omega
  rw [hphys] at hor
  rw [userEntry, if_pos rfl, Nat.or_assoc, Nat.or_assoc, ← Nat.or_assoc present, hflags,
    ← hor, present,
    Nat.and_one_is_mod, alignPageDown, Nat.shiftLeft_eq, Nat.shiftRight_eq_div_pow]
  omega

theorem translate_of_walk {s : Machine} (hcr3 : PagePtr (toVirt s.cr3)) {v entry : Nat}
    (hv : v < 2 ^ 32) (halign : v % 4096 = 0)
    (hwalk : s.pages.walk tablePage (pageNo (toVirt s.cr3)) (dirOf v) (tabOf v) = entry)
    (hpresent : entry &&& present ≠ 0) : s.translate v = some (alignPageDown entry) := by
  rw [translate_eq hcr3 hv, hwalk, if_neg hpresent, Nat.and_two_pow_sub_one_eq_mod _ 12, halign,
    Nat.add_zero]

/-- A copy of zeros has no table of the kmem region. -/
theorem not_shares_copy {s : Machine} {q phys : Nat} (hq : PagePtr q)
    (hregion : 0 < s.kmemRegionEnd) (hzero : s.mem.load32 (phys + 4 * 768) = 0) :
    ¬ Shares { s with mem := s.mem.copy (fromKmem q) phys 4096 } (toVirt (fromKmem q)) := by
  intro hshares
  obtain ⟨-, hpresent⟩ := hshares.entries 768 (by decide) (by decide)
    (show 768 * 2 ^ 22 < 0xC0000000 + s.kmemRegionEnd by omega)
  apply hpresent
  have haddr : fromKmem (toVirt (fromKmem q) + 4 * 768) = fromKmem q + 4 * 768 := by
    have hfrom := hq.fromKmem_add (k := 0) (by decide)
    rw [Nat.add_zero, Nat.add_zero] at hfrom
    rw [toVirt_fromKmem hq, hq.fromKmem_add (by decide), hfrom]
  rw [load, haddr, ByteMem.load32_copy (by decide), hzero]
  rfl

/-- The page that an allocation fetches is behind `first_page_directory`. -/
theorem fetched_far {D : Spaces} {s s' : Machine} {L T : List Block} {lag q : Nat} {x : Block}
    (hf : Fetched D s L lag .k4 q s' x T) : PagePtr q ∧ s'.firstPageDirectory < q := by
  have hx : x ∈ x :: (T ++ L) := List.mem_cons_self
  obtain ⟨hb, hi⟩ := hf.tracked.marked.valid x hx
  constructor
  · have hptr := pagePtr_see hf.tracked hx
    rw [see, hf.size, ← hf.addr] at hptr
    exact hptr
  · have hlo := (hf.tracked.toLayout.blockAddr_bounds hb hi).1
    have hdirHi := hf.tracked.dirHi
    have haddr := hf.addr
    rw [hf.size] at hlo
    omega

/-- The current task has a page of zeros at `first_page_directory`, and the next directory is a copy
of that page. -/
theorem Inv.overlaid (h : c.Inv U K) {p q phys : Nat} {s₁ s₂ : Machine}
    (ht : (c.machine.cr3, some p) ∈ c.tasks) (halign : phys % 4096 = 0) (hphys : phys < 2 ^ 32)
    (hmap : Scheduler.mapUserPage c.machine.firstPageDirectory phys true c.machine = .ok s₁)
    (halloc : s₁.kmemAlloc .k4 = .ok (q, s₂)) (hq : q < 0xC0000000 + c.machine.kmemPhysEnd)
    (hout : s₂.kmemPhysEnd ≤ phys) (hzero : c.machine.pages (phys / 4096) = fun _ => 0)
    (hregion : 0 < c.machine.kmemRegionEnd) :
    ∃ s₃, s₁.newPageDirectory = .ok (fromKmem q, s₃) ∧ ¬ Shares s₃ (toVirt (fromKmem q)) := by
  have hfpd := h.paged.first.1
  have hlt : c.machine.firstPageDirectory < 2 ^ 32 := hfpd.hi
  obtain ⟨hcur, hno⟩ := h.dirPtr ht
  dsimp only at hcur hno
  have hD : pageNo (toVirt c.machine.cr3) ∈ c.spaces.dirs := hno ▸ h.mem_dirs ht
  -- what the two steps leave
  obtain ⟨T, hm⟩ := h.mapUserPage_mapped ht hlt hphys hmap
  have hleaves : Leaves c.machine s₁ := (mapPage_leaves h.paged hcur hD hlt
    (kmemAlloc4k_leaves h.paged h.tracked)).of_ok (mapUserPage_eq_ok.1 hmap)
  obtain ⟨⟨x, T', hf⟩, hleaves₂⟩ := (kmemAlloc4k_leaves hm.maps.paged hm.tracked).of_ok halloc
  dsimp only at hf hleaves₂
  have hzero₂ : s₂.mem.load32 (phys + 4 * 768) = 0 := by
    have hend := pageOf_end hf.tracked
    have hkeep := hleaves.trans hleaves₂ hf.maps.base hf.maps.pos
    rw [ByteMem.load32_congr fun y hy _ => hkeep y (by omega)]
    have hentry := congrFun hzero ⟨768, by decide⟩
    rw [pages, Nat.mul_div_cancel' (Nat.dvd_of_mod_eq_zero halign)] at hentry
    exact hentry
  -- the pointers of the copy
  obtain ⟨hqptr, hfar⟩ := fetched_far hf
  have hcr3 : s₂.cr3 = c.machine.cr3 := by
    rw [hf.maps.globals]
    dsimp only
    rw [hm.maps.globals]
  have hdir₂ := hf.maps.dir.trans hm.maps.dir
  rw [hdir₂] at hfar
  have hend := h.tracked.physEnd
  have hend₁ := hm.tracked.physEnd
  have hpos := hm.maps.pos
  have hbase := hm.maps.base
  -- neither is mapped by the growth of kmem
  have hkeep (v : Nat) (hv : v % 4096 = 0) (hhi : v < 0xC0000000 + c.machine.kmemPhysEnd)
      (hv32 : v < 2 ^ 32) :
      s₂.pages.walk tablePage (pageNo (toVirt c.machine.cr3)) (dirOf v) (tabOf v) =
        s₁.pages.walk tablePage (pageNo (toVirt c.machine.cr3)) (dirOf v) (tabOf v) :=
    hf.maps.walk _ hD v hv hv32 fun d hgrown => by
      have hlo := hgrown.lo
      omega
  have hdst : s₂.translate q = some (fromKmem q) := by
    have hwalk := h.directHere q hqptr.aligned hqptr.lo hq
    rw [← hm.maps.walk _ hD q hqptr.aligned hqptr.hi ?_,
      ← hkeep q hqptr.aligned hq hqptr.hi] at hwalk
    · obtain ⟨hpresent, hframe⟩ := direct_entry hqptr.aligned
      rw [← hframe]
      exact translate_of_walk (hcr3 ▸ hcur) hqptr.hi hqptr.aligned (hcr3 ▸ hwalk) hpresent
    · rintro d (⟨-, heq⟩ | hgrown)
      · omega
      · have hlo := hgrown.lo
        omega
  have hsrc : s₂.translate c.machine.firstPageDirectory = some phys := by
    obtain ⟨hpresent, hframe⟩ := frame_userEntry halign
    have hwalk := (hkeep _ hfpd.aligned (by omega) hlt).trans hm.walk
    rw [← hcr3] at hwalk
    rw [translate_of_walk (hcr3 ▸ hcur) hlt hfpd.aligned hwalk hpresent, hframe]
  have hregion₂ : s₂.kmemRegionEnd = c.machine.kmemRegionEnd := by
    rw [hf.maps.globals]
    dsimp only
    rw [hm.maps.globals]
  refine ⟨{ s₂ with mem := s₂.mem.copy (fromKmem q) phys 4096 }, ?_,
    not_shares_copy hqptr (hregion₂ ▸ hregion) hzero₂⟩
  rw [Machine.newPageDirectory, kmemAlloc4k, halloc, ok_bind]
  dsimp only
  rw [copyPage, hdir₂, hdst, hsrc]
  rfl

theorem Step.mono {top top' : Nat} (hle : top ≤ top') (hs : Step top c c') : Step top' c c' := by
  cases hs with
  | alloc halloc => exact .alloc halloc
  | free hfree => exact .free hfree
  | newPageDirectory hnew => exact .newPageDirectory hnew
  | enter ht => exact .enter ht
  | wrapperBegin hb => exact .wrapperBegin hb
  | mapUserPage ht hvirt hphys hmap =>
      exact .mapUserPage ht (Nat.lt_of_lt_of_le hvirt hle) hphys hmap
  | hmemMap ht haddr hmap => exact .hmemMap ht haddr hmap
  | hmem => exact .hmem
  | write hw => exact .write hw
  | wrapperEnd hp hstack => exact .wrapperEnd hp hstack

/-- A task maps a page of hmem over `first_page_directory` and is entered again. The directory of
the next task has no table at all. -/
theorem directories_not_share : ¬ ∀ s₀ s : Machine, s₀.Booted → s₀.initPageAllocator = .ok s →
    ∀ c, Reachable (2 ^ 32) s c → Shares c.machine c.machine.firstPageDirectory ∧
      ∀ cr3 ∈ c.tasks.map Prod.fst ++ c.ended, Shares c.machine (toVirt cr3) := by
  intro hall
  obtain ⟨s, c, p, k, hs, h, htasks, hzero, hpos, halloc⟩ := smallTask
  obtain ⟨⟨q, k'⟩, ha, hq⟩ := (Option.any_eq_true _ _).1 halloc
  obtain ⟨hq, hpos'⟩ := of_decide_eq_true hq
  have ht : (c.machine.cr3, some p) ∈ c.tasks := by
    rw [htasks]
    exact List.mem_cons_self
  obtain ⟨U, K, hinv⟩ := h.inv
  have hfpd := hinv.paged.first.1
  have hlt : c.machine.firstPageDirectory < 2 ^ 32 := hfpd.hi
  have hregion : 0 < c.machine.kmemRegionEnd := by
    rw [h.traces.region]
    decide
  have hend : c.machine.kmemPhysEnd = 0x1A8000 := by
    have hphys := h.traces.physEnd
    omega
  have hdirHi := hinv.tracked.dirHi
  have hphys := hinv.tracked.physEnd
  obtain ⟨s₁, hmap, hglob⟩ := hinv.mapUserPage_over 0x20F000 true hfpd (by omega)
  obtain ⟨T, hm⟩ := hinv.mapUserPage_mapped ht hlt (by decide) hmap
  have htable : s₁.HasTable 768 := by
    refine hasTable_of_entry hm.maps.paged.first.1 ?_
    rw [hm.maps.dir]
    obtain ⟨t, ht⟩ := Option.ne_none_iff_exists'.1 (hinv.kernelTable hregion)
    rw [hm.maps.tables _ hinv.paged.first.2 _ t ht]
    exact hinv.kernelTable hregion
  have ht₁ : Client.Traces _ _ s₁ k :=
    h.traces.congr (by rw [hglob]) (by rw [hglob]) (by rw [hglob]) (by rw [hglob])
    (by rw [hglob]) htable
  obtain ⟨s₂, hs₂, ht₂⟩ := ht₁.alloc (by decide) ha
  have hend₂ : s₂.kmemPhysEnd = 0x1A8000 := by
    have hphys := ht₂.physEnd
    dsimp only at hpos'
    omega
  obtain ⟨s₃, hnew, hnot⟩ :=
    hinv.overlaid ht (by decide) (by decide) hmap hs₂ (by omega) (by omega) hzero hregion
  have hcr3 : s₁.cr3 = c.machine.cr3 := by rw [hglob]
  have hrun : Reachable (2 ^ 32) s ⟨s₃, c.held, (fromKmem q, none) :: c.tasks, c.ended⟩ := by
    have hmapped : Step (2 ^ 32) c ⟨s₁, c.held, c.tasks, c.ended⟩ :=
      .mapUserPage ht hlt (by decide) hmap
    have henter : Step (2 ^ 32) ⟨s₁, c.held, c.tasks, c.ended⟩
        ⟨{ s₁ with cr3 := c.machine.cr3, hmemEnd := s₁.hmemEnd }, c.held, c.tasks, c.ended⟩ :=
          .enter ht
    rw [← hcr3] at henter
    have hstart : Reachable (2 ^ 32) s c :=
      ReflTransGen.mono (fun c c' (hs : Step userTop c c') => hs.mono (by decide)) _ _ h.run
    exact ((hstart.tail hmapped).tail henter).tail (.newPageDirectory hnew)
  exact hnot ((hall _ _ Client.smallBoot_booted hs _ hrun).2 _ (by simp))

end System

end TinyLittleOs.Scheduler
