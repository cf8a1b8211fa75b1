import TinyLittleOs.Memory.Growth

/-!
# The direct map of kmem

The model reads and writes behind a kmem pointer at `from_kmem` of it. The hardware does the same
where the page tables lead every kmem page to itself. `init_page_allocator` establishes this, and
kmem keeps it when it grows.
-/

namespace TinyLittleOs.Memory

open Lib

namespace Machine

/-- The directory in page `a` leads the pages of kmem below `stop` to `from_kmem` of them. -/
def DirectTo (s : Machine) (a stop : Nat) : Prop :=
  ∀ virt, virt % 4096 = 0 → 0xC0000000 ≤ virt → virt < stop →
    s.pages.walk tablePage a (dirOf virt) (tabOf virt) = fromKmem virt ||| prwr

/-- `first_page_directory` leads all of kmem to `from_kmem`. Only the first buddy may lie behind the
kmem region. -/
structure Direct (s : Machine) : Prop where
  all : s.DirectTo (pageNo s.firstPageDirectory) (0xC0000000 + s.kmemPhysEnd)
  region : s.kmemPhysEnd < s.kmemRegionEnd ∨ s.kmem.buddyArrayPos = 1

theorem direct_entry {virt : Nat} (hmod : virt % 4096 = 0) :
    (fromKmem virt ||| prwr) &&& present ≠ 0 ∧ alignPageDown (fromKmem virt ||| prwr) =
      fromKmem virt := by
  have hor := Nat.two_pow_add_eq_or_of_lt (i := 12) (b := prwr) (by decide) (fromKmem virt / 4096)
  have hfrom : 2 ^ 12 * (fromKmem virt / 4096) = fromKmem virt := by
    unfold fromKmem
    omega
  have hflags : prwr = 3 := rfl
  rw [hfrom, hflags] at hor
  rw [hflags, ← hor, present, Nat.and_one_is_mod, alignPageDown, Nat.shiftLeft_eq,
    Nat.shiftRight_eq_div_pow]
  omega

/-- A kmem pointer is translated to `from_kmem` of it. -/
theorem DirectTo.translate {s : Machine} {stop : Nat} (hptr : PagePtr (toVirt s.cr3))
    (h : s.DirectTo (pageNo (toVirt s.cr3)) stop) (hstop : stop % 4096 = 0) {virt : Nat}
    (hlo : 0xC0000000 ≤ virt) (hhi : virt < stop) (hlt : virt < 2 ^ 32) :
    s.translate virt = some (fromKmem virt) := by
  have hpage : virt / 4096 * 4096 % 4096 = 0 := Nat.mul_mod_left _ _
  obtain ⟨hdir, htab, hoff⟩ :=
    indices_add hpage (show virt % 4096 < 4096 from Nat.mod_lt _ (by decide))
  have hsplit : virt / 4096 * 4096 + virt % 4096 = virt := by omega
  rw [hsplit] at hdir htab hoff
  have hwalk := h (virt / 4096 * 4096) hpage (by omega) (by omega)
  obtain ⟨hpresent, hframe⟩ := direct_entry hpage
  rw [translate_eq hptr hlt, hdir, htab, hoff, hwalk, if_neg hpresent, hframe]
  congr 1
  unfold fromKmem
  omega

/-- Pages of kmem are copied where they are. -/
theorem DirectTo.copyPage {s : Machine} {stop : Nat} (hptr : PagePtr (toVirt s.cr3))
    (h : s.DirectTo (pageNo (toVirt s.cr3)) stop) (hstop : stop % 4096 = 0) {dst src : Nat}
    (hdst : PagePtr dst) (hdst' : dst < stop) (hsrc : PagePtr src) (hsrc' : src < stop) :
    s.copyPage dst src = .ok (s.memcpy dst src 4096) := by
  rw [Machine.copyPage, h.translate hptr hstop hdst.lo hdst' hdst.hi,
    h.translate hptr hstop hsrc.lo hsrc' hsrc.hi]
  rfl

section Maps

variable {D : Spaces} {V : Nat → Nat → Prop} {s s' : Machine} {a stop : Nat}

/-- Mappings elsewhere leave the direct map alone. -/
theorem DirectTo.maps (h : s.DirectTo a stop) (hm : Maps D V s s') (ha : a ∈ D.dirs)
    (hstop : stop ≤ 2 ^ 32)
    (hV : ∀ d virt, V d virt → stop ≤ virt ∨ virt < 0xC0000000) : s'.DirectTo a stop := by
  intro virt hmod hlo hhi
  rw [hm.walk a ha virt hmod (by omega) fun d hin => ?_]
  · exact h virt hmod hlo hhi
  · rcases hV d virt hin with hout | hout <;> omega

theorem DirectTo.congr (h : s.DirectTo a stop)
    (hpages : ∀ i j, s'.pages.walk tablePage a i j = s.pages.walk tablePage a i j) :
    s'.DirectTo a stop := by
  intro virt hmod hlo hhi
  rw [hpages]
  exact h virt hmod hlo hhi

theorem DirectTo.mono {stop' : Nat} (h : s.DirectTo a stop) (hle : stop' ≤ stop) :
    s.DirectTo a stop' :=
  fun virt hmod hlo hhi => h virt hmod hlo (Nat.lt_of_lt_of_le hhi hle)

/-- There is a table for what is mapped. -/
theorem DirectTo.table (h : s.DirectTo a stop) {virt : Nat} (hmod : virt % 4096 = 0)
    (hlo : 0xC0000000 ≤ virt) (hhi : virt < stop) : tablePage (s.pages a (dirOf virt)) ≠ none := by
  intro hnone
  have hwalk := h virt hmod hlo hhi
  rw [PageMem.walk_of_none hnone] at hwalk
  apply (direct_entry hmod).1
  rw [← hwalk]
  exact Nat.zero_and present

/-- Directories with the same tables agree. -/
theorem DirectTo.same {b : Nat} (h : s.DirectTo a stop) (hstop : stop ≤ 2 ^ 32)
    (hsame : ∀ i : Fin 1024, 768 ≤ i.val → i.val * 2 ^ 22 < stop → s.pages b i = s.pages a i) :
    s.DirectTo b stop := by
  intro virt hmod hlo hhi
  have hdir : (dirOf virt).val = virt / 2 ^ 22 := by
    rw [dirOf, Fin.val_ofNat]
    omega
  rw [PageMem.walk, hsame (dirOf virt) (by omega) (by omega)]
  exact h virt hmod hlo hhi

end Maps

/-! ## Growth -/

section Alloc

variable {D : Spaces} {s : Machine} {L : List Block} (ht : s.Tracked L 0) (hp : s.Paged D)
  (hd : s.Direct)
include ht hp hd

omit hp hd in
/-- kmem stays as it is and pages are mapped elsewhere. -/
theorem Direct.maps (hd : s.Direct) {V : Nat → Nat → Prop} {s' : Machine} (hp : s.Paged D)
    (hm : Maps D V s s')
    (hend : s'.kmemPhysEnd = s.kmemPhysEnd) (hpos : s'.kmem.buddyArrayPos = s.kmem.buddyArrayPos)
    (hV : ∀ d virt, V d virt → 0xC0000000 + s.kmemPhysEnd ≤ virt ∨ virt < 0xC0000000) :
    s'.Direct := by
  have hle := ht.physLe
  have hregion : s'.kmemRegionEnd = s.kmemRegionEnd := by rw [hm.globals]
  constructor
  · rw [hm.dir, hend]
    exact hd.all.maps hm hp.first.2 (by omega) hV
  · rw [hend, hregion, hpos]
    exact hd.region

theorem Direct.take {n : BlockSize} {b i : Nat} (hb : b < s.kmem.buddyArrayPos)
    (hi : s.kmem.bit n b i = true) : (s.take n b i).Direct := by
  have hm : Maps D (fun _ _ => False) s (s.take n b i) := take_maps ht hp hb hi
  have halike := take_alike (s := s) (b := b) (Kmem.bit_lt hi)
  exact hd.maps ht hp hm (by rw [halike.globals]) halike.pos fun _ _ hin => hin.elim

/-- The pages of the new buddy that are mapped so far lead to themselves, unless a nested call has
created another buddy meanwhile. -/
theorem mapBuddy_direct {alloc4k : Machine → Except Fault (Nat × Machine)}
    (halloc : ∀ s' L', s'.Tracked L' 1 → s'.Paged D →
      Outcome (alloc4k s') (fun r => ∃ x T, Fetched D s' L' 1 .k4 r.1 r.2 x T) fun _ => True)
    {start : Nat} (hstart : start = s.kmem.base + s.kmem.buddyArrayPos * 2 ^ 19) :
    Outcome ((addrs start (start + 1 <<< 19) 4096).foldlM (fun s addr =>
      s.mapPage alloc4k addr prwr (prwr ||| fromKmem addr) s.firstPageDirectory) s.withNewBuddy)
      (fun s' => (∃ T, MapsBuddy D s L 0 s' T) ∧ (s'.kmem.buddyArrayPos = s.kmem.buddyArrayPos + 1 →
        s'.DirectTo (pageNo s.firstPageDirectory) (start + 2 ^ 19))) fun _ => True := by
  have hlen : (addrs start (start + 1 <<< 19) 4096).length = 128 := by
    rw [addrs, List.length_range']
    omega
  have hloop := Outcome.foldlM_index (E := fun _ => True) (l := addrs start (start + 1 <<< 19) 4096)
    (k := 0) (a := s.withNewBuddy)
    (f := fun s addr => s.mapPage alloc4k addr prwr (prwr ||| fromKmem addr) s.firstPageDirectory)
    (Q := fun i s' => (∃ T, MapsBuddy D s L 0 s' T) ∧
      (s'.kmem.buddyArrayPos = s.kmem.buddyArrayPos + 1 →
        s'.DirectTo (pageNo s.firstPageDirectory) (start + 4096 * i))) ?_ ?_
  · rw [hlen] at hloop
    exact hloop
  · rintro s' i hi ⟨⟨T, h⟩, hdirect⟩
    rw [Nat.zero_add] at hdirect ⊢
    have haddr : (addrs start (start + 1 <<< 19) 4096)[i] = start + 4096 * i := by
      simp only [addrs, List.getElem_range']
    have hmem := List.getElem_mem hi
    rw [haddr] at hmem ⊢
    obtain ⟨hmod, hlt, hpte⟩ := h.page ht hstart hmem
    refine (mapPage_mapped h.tracked h.maps.paged h.maps.paged.first.1 h.maps.paged.first.2
      hmod hlt hpte (by decide) (by decide) (halloc s' _ h.tracked h.maps.paged)).mono ?_
      fun _ he => he
    rintro s'' ⟨T', hm⟩
    refine ⟨⟨T' ++ T, h.round hstart hmem hm⟩, fun hpos => ?_⟩
    -- no buddy was created in this round
    have hle := hm.maps.pos
    have hcreated := h.created
    have hold := hdirect (by omega)
    have hpos' : s''.kmem.buddyArrayPos = s'.kmem.buddyArrayPos := by omega
    have hdir : pageNo s'.firstPageDirectory = pageNo s.firstPageDirectory := by rw [h.maps.dir]
    intro virt hv hlo hhi
    by_cases hat : virt = start + 4096 * i
    · have hwalk := hm.walk
      rw [hdir, ← hat, Nat.or_comm] at hwalk
      exact hwalk
    · have hbelow : virt ≤ start + 4096 * i := by omega
      rw [hm.maps.walk _ hp.first.2 virt hv (Nat.lt_of_le_of_lt hbelow hlt) fun d hin => ?_]
      · exact hold virt hv hlo (by omega)
      · rcases hin with ⟨-, heq⟩ | hgrown
        · exact hat heq
        · have hglo := hgrown.lo
          have hghi := hgrown.hi
          rw [hpos'] at hghi
          omega
  · refine ⟨⟨[], mapsBuddy_withNewBuddy ht hp (by decide)⟩, fun _ => ?_⟩
    have hend := ht.physEnd
    have hstop : start + 4096 * 0 = 0xC0000000 + s.kmemPhysEnd := by omega
    have hpages : s.withNewBuddy.pages = s.pages := rfl
    rw [hstop]
    exact hd.all.congr fun i j => by rw [hpages]

theorem kmemBuddyNew_direct {alloc4k : Machine → Except Fault (Nat × Machine)}
    (halloc : ∀ s' L', s'.Tracked L' 1 → s'.Paged D →
      Outcome (alloc4k s') (fun r => ∃ x T, Fetched D s' L' 1 .k4 r.1 r.2 x T) fun _ => True) :
    Outcome (s.kmemBuddyNew alloc4k) Direct fun _ => True := by
  refine kmemBuddyNew_outcome ht (by decide) rfl (mapBuddy_direct ht hp hd halloc rfl) ?_
  rintro s₁ ⟨⟨T, h⟩, hdirect⟩ hstart hregion
  have hend := ht.physEnd
  have hend₁ := h.tracked.physEnd
  have hle₁ := h.tracked.physLe
  have hbase := h.maps.base
  have hvirt : toVirt s₁.kmemPhysEnd = s₁.kmemPhysEnd + 0xC0000000 := by
    unfold toVirt
    omega
  have hstop : 0xC0000000 + (s₁.kmemPhysEnd + 1 <<< 19) % 2 ^ 32 =
      s.kmem.base + s.kmem.buddyArrayPos * 2 ^ 19 + 2 ^ 19 := by omega
  refine ⟨?_, Or.inl hregion⟩
  dsimp only
  rw [hstop, h.maps.dir]
  exact (hdirect (by omega)).congr fun _ _ => rfl

/-- An allocation keeps the direct map, also when kmem grows. -/
theorem kmemAlloc_direct (n : BlockSize) :
    Outcome (s.kmemAlloc n) (fun r => r.2.Direct) fun _ => True := by
  have hfetched (s' : Machine) (L' : List Block) (ht' : s'.Tracked L' 1) (hp' : s'.Paged D) :=
    kmemAllocFuel_fetched ht' hp' 1 .k4 (by decide)
  rw [kmemAlloc, kmemAllocFuel]
  refine (ht.buddyAlloc n).bind ?_
  rintro r (rfl | ⟨b, i, hb, hi, rfl⟩)
  · refine ((kmemBuddyNew_grew ht hp (by decide) hfetched).both
      (kmemBuddyNew_direct ht hp hd hfetched)).bind ?_
    rintro s₁ ⟨⟨T, hg⟩, hd₁⟩
    refine (hg.tracked.buddyAlloc n).bind ?_
    rintro r (rfl | ⟨b, i, hb, hi, rfl⟩)
    · trivial
    · exact hd₁.take hg.tracked hg.maps.paged hb hi
  · exact hd.take ht hp hb hi

omit ht hp hd in
/-- Giving the block back keeps the direct map. -/
theorem Fetched.free_direct {s₁ s₂ : Machine} {p : Nat} {x : Block} {T : List Block}
    (hf : Fetched D s L 0 .k4 p s₁ x T) (hd : s₁.Direct) (hs₂ : s₁.kmemFree4k p = .ok s₂) :
    s₂.Direct := by
  obtain ⟨hfree, -⟩ := hf.tracked.kmemFree (u := [])
  obtain ⟨-, hi⟩ := hf.tracked.marked.valid x List.mem_cons_self
  have halike := s₁.free_alike x.buddy hi
  have hmaps := free_maps (V := fun _ _ => False) hf.tracked hf.maps.paged hf.fresh
  have hd₂ := hd.maps hf.tracked hf.maps.paged hmaps rfl halike.pos fun _ _ hin => hin.elim
  rw [hf.size, ← hf.addr] at hfree
  rw [hf.size] at hd₂
  exact Except.ok.inj (hfree.symm.trans hs₂) ▸ hd₂

/-- `_map_page` outside kmem keeps the direct map. -/
theorem mapPage_direct {pd virt pdeFlags pte : Nat} (hpd : PagePtr pd) (hD : pageNo pd ∈ D.dirs)
    (hv : virt % 4096 = 0) (hlt : virt < 2 ^ 32) (hpte : pte < 2 ^ 32) (hflags : pdeFlags < 4096)
    (hodd : pdeFlags % 2 = 1) (hout : virt < 0xC0000000 ∨ 0xF8000000 ≤ virt) :
    Outcome (s.mapPage kmemAlloc4k virt pdeFlags pte pd) Direct fun _ => True := by
  have hv' : ¬ virt &&& 0xFFF ≠ 0 := by
    rw [Nat.and_two_pow_sub_one_eq_mod virt 12]
    omega
  have hside (s' : Machine) (hle : s'.kmemPhysEnd ≤ 0x38000000) (d v : Nat)
      (hin : d = pageNo pd ∧ v = virt) :
      0xC0000000 + s'.kmemPhysEnd ≤ v ∨ v < 0xC0000000 := by omega
  rw [mapPage, if_neg hv']
  dsimp only
  rw [load_dir hpd s hlt]
  by_cases htable : s.pages (pageNo pd) (dirOf virt) &&& present ≠ 0
  · rw [if_pos htable, ← load_dir hpd s hlt]
    have htable' := tablePage_eq_some.2 ⟨htable, rfl⟩
    obtain ⟨-, hmaps, -⟩ :=
      store_maps ht hp hD hlt hv hpte htable' (fromKmem_entry hpd hlt htable') rfl
    exact hd.maps ht hp hmaps (by rw [store]) (by rw [store_kmem]) (hside s ht.physLe)
  · rw [if_neg htable]
    refine ((kmemAlloc_fetched ht hp .k4).both (kmemAlloc_direct ht hp hd .k4)).bind ?_
    rintro ⟨p, s₁⟩ ⟨⟨x, T, hf⟩, hd₁⟩
    dsimp only at hf hd₁ ⊢
    rw [load_dir hpd s₁ hlt]
    by_cases htable₁ : s₁.pages (pageNo pd) (dirOf virt) &&& present ≠ 0
    · -- meanwhile the allocation made the table
      rw [if_pos htable₁]
      obtain ⟨s₂, hs₂, htracked, hmaps₂, hmem, -, -⟩ := hf.free
      have hd₂ := hf.free_direct hd₁ hs₂
      have hpages : s₂.pages = s₁.pages := by
        funext q k
        rw [pages, pages, hmem]
      rw [hs₂, ok_bind]
      have htable₂ : tablePage (s₂.pages (pageNo pd) (dirOf virt)) = _ :=
        tablePage_eq_some.2 ⟨by rw [hpages]; exact htable₁, rfl⟩
      obtain ⟨-, hmaps₃, -⟩ := store_maps htracked hmaps₂.paged hD hlt hv hpte htable₂
        (fromKmem_entry hpd hlt htable₂) rfl
      exact hd₂.maps htracked hmaps₂.paged hmaps₃ (by rw [store]) (by rw [store_kmem])
        (hside _ htracked.physLe)
    · rw [if_neg htable₁]
      obtain ⟨htracked, hmaps, htable₂, hptr⟩ := newTable_maps hf.tracked
        hf.maps.paged hpd hD hlt (tablePage_eq_none.2 (not_not.1 htable₁)) hflags hodd
        List.mem_cons_self hf.size hf.not_holds hf.addr rfl
      have haddr : fromKmem (p + 4 * (virt >>> 12 &&& 0x03FF)) =
          4096 * (fromKmem p / 4096) + 4 * (tabOf virt : Nat) := by
        rw [← tabOf_val, hptr.fromKmem_add (by have := (tabOf virt).isLt; omega), pageNo]
      have hd₂ := hd₁.maps hf.tracked hf.maps.paged hmaps (by rw [store, memset])
        (by rw [store_kmem, memset_kmem]) (hside s₁ hf.tracked.physLe)
      obtain ⟨-, hmaps₂, -⟩ := store_maps htracked hmaps.paged hD hlt hv hpte htable₂ haddr rfl
      exact hd₂.maps htracked hmaps.paged hmaps₂ (by rw [store]) (by rw [store_kmem])
        (hside _ htracked.physLe)

end Alloc

end Machine

end TinyLittleOs.Memory
