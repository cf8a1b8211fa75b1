import TinyLittleOs.Memory.Paging

/-!
# `_map_page` and the growth of kmem

`_map_page` allocates its tables with `kmem_alloc_4k`, which may create a buddy and map its pages
with `_map_page`. By induction on this nesting the walks of all directories change only at the
mapped address and in the buddies that were created meanwhile.
-/

namespace TinyLittleOs.Memory

open Lib

namespace Machine

/-- The buddies that were created from `s` to `s'` are mapped through `first_page_directory`. -/
structure ByGrowth (s s' : Machine) (d a : Nat) : Prop where
  dir : d = pageNo s.firstPageDirectory
  lo : s.kmem.base + s.kmem.buddyArrayPos * 2 ^ 19 ≤ a
  hi : a < s.kmem.base + s'.kmem.buddyArrayPos * 2 ^ 19

theorem buddies_le (k : Nat) {b b' : Nat} (h : b ≤ b') : k + b * 2 ^ 19 ≤ k + b' * 2 ^ 19 :=
  Nat.add_le_add_left (Nat.mul_le_mul_right _ h) k

section ByGrowth

variable {D : Spaces} {s s' s'' : Machine}

theorem ByGrowth.mono {d a : Nat} (h : ByGrowth s s' d a)
    (hpos : s'.kmem.buddyArrayPos ≤ s''.kmem.buddyArrayPos) : ByGrowth s s'' d a :=
  ⟨h.dir, h.lo, lt_of_lt_of_le h.hi (buddies_le _ hpos)⟩

theorem Maps.trans_byGrowth (h : Maps D (ByGrowth s s') s s')
    (h' : Maps D (ByGrowth s' s'') s' s'') :
    Maps D (ByGrowth s s'') s s'' := by
  refine (h.mono fun d a ha => ?_).trans (h'.mono fun d a ha => ?_)
  · exact ha.mono h'.pos
  · obtain ⟨hd, hlo, hhi⟩ := ha
    rw [h.base] at hlo hhi
    exact ⟨h.dir ▸ hd, le_trans (buddies_le _ h.pos) hlo, hhi⟩

end ByGrowth

/-- A block of size `n` that nobody had, and the page tables that were needed for it. -/
structure Fetched (D : Spaces) (s : Machine) (L : List Block) (lag : Nat) (n : BlockSize) (p : Nat)
    (s' : Machine) (x : Block) (T : List Block) : Prop where
  tracked : s'.Tracked (x :: (T ++ L)) lag
  size : x.size = n
  tables : ∀ y ∈ T, y.size = .k4
  addr : p = s'.kmem.blockAddr n x.buddy x.index
  maps : Maps D (ByGrowth s s') s s'
  fresh : ∀ q, s'.PageIn x q → ¬ s'.Holds D q

theorem Fetched.not_holds {D : Spaces} {s s' : Machine} {L T : List Block} {lag p : Nat} {x : Block}
    (h : Fetched D s L lag .k4 p s' x T) : ¬ s'.Holds D (s'.pageOf x.buddy x.index) := by
  refine h.fresh _ ?_
  rw [PageIn, h.size]
  simp [BlockSize.order]

/-- What `_map_page` leaves: the entry, and page tables in `T`. -/
structure Mapped (D : Spaces) (s : Machine) (L : List Block) (lag pd virt pte : Nat) (s' : Machine)
    (T : List Block) : Prop where
  tracked : s'.Tracked (T ++ L) lag
  tables : ∀ y ∈ T, y.size = .k4
  maps : Maps D (fun d a => d = pageNo pd ∧ a = virt ∨ ByGrowth s s' d a) s s'
  walk : s'.pages.walk tablePage (pageNo pd) (dirOf virt) (tabOf virt) = pte

section Take

variable {D : Spaces} {s : Machine} {L : List Block} {lag : Nat}
variable (ht : s.Tracked L lag) (hp : s.Paged D)
include ht hp

theorem take_fetched {n : BlockSize} {b i : Nat} (hb : b < s.kmem.buddyArrayPos)
    (hi : s.kmem.bit n b i = true) :
    Fetched D s L lag n (s.kmem.blockAddr n b i) (s.take n b i) ⟨n, b, i⟩ [] := by
  have hs := s.kmem.allocAt_clears b (Kmem.bit_lt hi)
  have halike := take_alike (s := s) (b := b) (Kmem.bit_lt hi)
  refine ⟨ht.take hb hi, rfl, fun y hy => absurd hy List.not_mem_nil, ?_, take_maps ht hp hb hi,
    fun q hpage hq => ?_⟩
  · rw [take_kmem, hs.toSameBut.blockAddr]
  · obtain ⟨hlo, hhi⟩ := hpage
    simp only [pageOf, halike.base] at hlo hhi
    refine not_inUse_of_free ht hi hb hlo hhi (hp.inUse q (hq.imp_left ?_))
    exact (PageMem.refs_congr (fun r hr => take_pages ht hp hb hi (Or.inl hr)) q).1

end Take

/-! ## `_map_page` -/

section Results

variable {D : Spaces} {s : Machine} {L : List Block} {lag : Nat} {pd virt pte : Nat}

theorem Maps.toMapped {s₁ s' : Machine} {T : List Block}
    (h : Maps D (fun d a => d = pageNo pd ∧ a = virt ∨ ByGrowth s s₁ d a) s s₁)
    (hk : ∀ y ∈ T, y.size = .k4)
    (h' : s'.Tracked (T ++ L) lag ∧ Maps D (fun d a => d = pageNo pd ∧ a = virt) s₁ s' ∧
      s'.pages.walk tablePage (pageNo pd) (dirOf virt) (tabOf virt) = pte) :
    Mapped D s L lag pd virt pte s' T := by
  obtain ⟨htracked, hmaps, hwalk⟩ := h'
  refine ⟨htracked, hk, (h.mono fun d a ha => ha.imp_right fun ha => ha.mono hmaps.pos).trans
    (hmaps.mono fun d a ha => Or.inl ha), hwalk⟩

/-- The page that another allocation made superfluous is given back. -/
theorem Fetched.free {s₁ : Machine} {p : Nat} {x : Block} {T : List Block}
    (hf : Fetched D s L lag .k4 p s₁ x T) : ∃ s₂, s₁.kmemFree4k p = .ok s₂ ∧
      s₂.Tracked (T ++ L) lag ∧ Maps D (ByGrowth s s₂) s s₂ ∧ s₂.mem = s₁.mem ∧
      s₂.firstPageDirectory = s₁.firstPageDirectory ∧
      s₂.kmem.bit .k4 x.buddy x.index = true := by
  obtain ⟨hfree, htracked⟩ := hf.tracked.kmemFree (u := [])
  obtain ⟨hb, hi⟩ := hf.tracked.marked.valid x List.mem_cons_self
  have halike := s₁.free_alike x.buddy hi
  have hsize := hf.size
  rw [hsize] at hfree hi halike
  rw [hsize] at htracked
  rw [← hf.addr] at hfree
  refine ⟨_, hfree, htracked, ?_, rfl, rfl, ?_⟩
  · exact hf.maps.trans_byGrowth (hsize ▸ free_maps hf.tracked hf.maps.paged hf.fresh)
  · exact (Kmem.free_k4_bit _ _ _ _ hi).2 (Or.inr ⟨rfl, rfl⟩)

end Results

section MapPage

variable {D : Spaces} {s : Machine} {L : List Block} {lag : Nat} {pd virt pdeFlags pte : Nat}
variable (ht : s.Tracked L lag) (hp : s.Paged D) (hpd : PagePtr pd) (hD : pageNo pd ∈ D.dirs)
  (hv : virt % 4096 = 0) (hlt : virt < 2 ^ 32) (hpte : pte < 2 ^ 32)
include ht hp hpd hD hv hlt hpte

theorem mapPage_mapped (hflags : pdeFlags < 4096) (hodd : pdeFlags % 2 = 1)
    {alloc4k : Machine → Except Fault (Nat × Machine)}
    (halloc : Outcome (alloc4k s) (fun r => ∃ x T, Fetched D s L lag .k4 r.1 r.2 x T)
      fun _ => True) :
    Outcome (s.mapPage alloc4k virt pdeFlags pte pd)
      (fun s' => ∃ T, Mapped D s L lag pd virt pte s' T) fun _ => True := by
  have hv' : ¬ virt &&& 0xFFF ≠ 0 := by
    rw [Nat.and_two_pow_sub_one_eq_mod virt 12]
    omega
  have hstay : Maps D (ByGrowth s s) s s := Maps.refl hp
  rw [mapPage, if_neg hv']
  dsimp only
  rw [load_dir hpd s hlt]
  by_cases htable : s.pages (pageNo pd) (dirOf virt) &&& present ≠ 0
  · rw [if_pos htable, ← load_dir hpd s hlt]
    have htable' := tablePage_eq_some.2 ⟨htable, rfl⟩
    have h := store_maps ht hp hD hlt hv hpte htable' (fromKmem_entry hpd hlt htable') rfl
    exact ⟨[], (hstay.mono fun d a => Or.inr).toMapped (fun y hy => absurd hy List.not_mem_nil) h⟩
  · rw [if_neg htable]
    refine halloc.bind ?_
    rintro ⟨p, s₁⟩ ⟨x, T, hf⟩
    dsimp only
    rw [load_dir hpd s₁ hlt]
    by_cases htable₁ : s₁.pages (pageNo pd) (dirOf virt) &&& present ≠ 0
    · -- meanwhile the allocation made the table
      rw [if_pos htable₁]
      obtain ⟨s₂, hs₂, htracked, hmaps, hmem, -, -⟩ := hf.free
      have hpages : s₂.pages = s₁.pages := by
        funext q k
        rw [pages, pages, hmem]
      rw [hs₂, ok_bind]
      have htable₂ : tablePage (s₂.pages (pageNo pd) (dirOf virt)) = _ :=
        tablePage_eq_some.2 ⟨by rw [hpages]; exact htable₁, rfl⟩
      have h := store_maps htracked hmaps.paged hD hlt hv hpte htable₂
        (fromKmem_entry hpd hlt htable₂) rfl
      exact ⟨T, (hmaps.mono fun d a => Or.inr).toMapped hf.tables h⟩
    · rw [if_neg htable₁]
      obtain ⟨htracked, hmaps, htable₂, hptr⟩ := newTable_maps hf.tracked
        hf.maps.paged hpd hD hlt (tablePage_eq_none.2 (not_not.1 htable₁)) hflags hodd
        List.mem_cons_self hf.size hf.not_holds hf.addr rfl
      have haddr : fromKmem (p + 4 * (virt >>> 12 &&& 0x03FF)) =
          4096 * (fromKmem p / 4096) + 4 * (tabOf virt : Nat) := by
        rw [← tabOf_val, hptr.fromKmem_add (by have := (tabOf virt).isLt; omega), pageNo]
      have h := store_maps htracked hmaps.paged hD hlt hv hpte htable₂ haddr rfl
      have hmaps' := (hf.maps.mono fun d a ha => Or.inr (ha.mono hmaps.pos)).trans
        (hmaps.mono fun d a ha => Or.inl ha)
      exact ⟨x :: T, hmaps'.toMapped (List.forall_mem_cons.2 ⟨hf.size, hf.tables⟩) h⟩

end MapPage

/-! ## `kmem_buddy_new` and `kmem_alloc_N` -/

/-- A new buddy, with the page tables in `T`. -/
structure Grew (D : Spaces) (s : Machine) (L : List Block) (lag : Nat) (s' : Machine)
    (T : List Block) : Prop where
  tracked : s'.Tracked (T ++ L) lag
  tables : ∀ y ∈ T, y.size = .k4
  maps : Maps D (ByGrowth s s') s s'

/-- Some pages of the new buddy are mapped, with page tables in `T`. -/
structure MapsBuddy (D : Spaces) (s : Machine) (L : List Block) (lag : Nat) (s' : Machine)
    (T : List Block) : Prop where
  created : s.kmem.buddyArrayPos + 1 ≤ s'.kmem.buddyArrayPos
  tracked : s'.Tracked (T ++ L) (lag + 1)
  tables : ∀ y ∈ T, y.size = .k4
  maps : Maps D (ByGrowth s s') s s'

section Alloc

variable {D : Spaces} {s : Machine} {L : List Block} {lag : Nat}
variable (ht : s.Tracked L lag) (hp : s.Paged D)
include ht hp

theorem mapsBuddy_withNewBuddy (hlag : lag ≤ 1) : MapsBuddy D s L lag s.withNewBuddy [] := by
  have hpos : s.withNewBuddy.kmem.buddyArrayPos = s.kmem.buddyArrayPos + 1 := rfl
  exact ⟨Nat.le_of_eq hpos.symm, ht.withNewBuddy hlag, fun y hy => absurd hy List.not_mem_nil,
    hp.withNewBuddy⟩

section Round

variable {s' : Machine} {T : List Block} (h : MapsBuddy D s L lag s' T) {start addr : Nat}
  (hstart : start = s.kmem.base + s.kmem.buddyArrayPos * 2 ^ 19)
  (haddr : addr ∈ addrs start (start + 1 <<< 19) 4096)
include h hstart haddr

omit hp ht in
/-- The page lies in the new buddy. -/
theorem MapsBuddy.addr_lt : start ≤ addr ∧ addr < s.kmem.base + s'.kmem.buddyArrayPos * 2 ^ 19 := by
  obtain ⟨k, hk, rfl⟩ := mem_addrs_buddy haddr
  have hend : start + 4096 * k < s.kmem.base + (s.kmem.buddyArrayPos + 1) * 2 ^ 19 := by omega
  exact ⟨Nat.le_add_right _ _, lt_of_lt_of_le hend (buddies_le s.kmem.base h.created)⟩

omit hp in
theorem MapsBuddy.page : addr % 4096 = 0 ∧ addr < 2 ^ 32 ∧ prwr ||| fromKmem addr < 2 ^ 32 := by
  obtain ⟨-, hend⟩ := h.addr_lt hstart haddr
  have htop := h.tracked.top
  have halign := ht.aligned
  obtain ⟨k, hk, rfl⟩ := mem_addrs_buddy haddr
  rw [h.maps.base] at htop
  refine ⟨by omega, lt_of_lt_of_le hend htop, Nat.or_lt_two_pow (by decide) ?_⟩
  unfold fromKmem
  omega

omit hp ht in
theorem MapsBuddy.round {pte : Nat} {s'' : Machine} {T' : List Block}
    (hm : Mapped D s' (T ++ L) (lag + 1) s'.firstPageDirectory addr pte s'' T') :
    MapsBuddy D s L lag s'' (T' ++ T) := by
  obtain ⟨hlo, hhi⟩ := h.addr_lt hstart haddr
  have hpos := hm.maps.pos
  refine ⟨le_trans h.created hpos, ?_, fun y hy => ?_, ?_⟩
  · rw [List.append_assoc]
    exact hm.tracked
  · rcases List.mem_append.1 hy with hy | hy
    · exact hm.tables y hy
    · exact h.tables y hy
  · refine (h.maps.mono fun d a ha => ha.mono hpos).trans (hm.maps.mono fun d a ha => ?_)
    rcases ha with ⟨rfl, rfl⟩ | ⟨hd, hlo', hhi'⟩
    · exact ⟨by rw [h.maps.dir], hstart ▸ hlo, lt_of_lt_of_le hhi (buddies_le _ hpos)⟩
    · rw [h.maps.base] at hlo' hhi'
      exact ⟨h.maps.dir ▸ hd, le_trans (buddies_le _ h.maps.pos) hlo', hhi'⟩

end Round

/-- The loop over the pages of the new buddy. -/
theorem mapBuddy_grew (hlag : lag ≤ 1) {alloc4k : Machine → Except Fault (Nat × Machine)}
    (halloc : ∀ s' L', s'.Tracked L' (lag + 1) → s'.Paged D →
      Outcome (alloc4k s') (fun r => ∃ x T, Fetched D s' L' (lag + 1) .k4 r.1 r.2 x T) fun _ =>
      True)
    {start : Nat} (hstart : start = s.kmem.base + s.kmem.buddyArrayPos * 2 ^ 19) :
    Outcome ((addrs start (start + 1 <<< 19) 4096).foldlM (fun s addr =>
      s.mapPage alloc4k addr prwr (prwr ||| fromKmem addr) s.firstPageDirectory) s.withNewBuddy)
      (fun s' => ∃ T, MapsBuddy D s L lag s' T) fun _ => True := by
  apply Outcome.foldlM
  · rintro s' addr haddr ⟨T, h⟩
    obtain ⟨hmod, hlt, hpte⟩ := h.page ht hstart haddr
    refine (mapPage_mapped h.tracked h.maps.paged h.maps.paged.first.1 h.maps.paged.first.2
      hmod hlt hpte (by decide) (by decide) (halloc s' _ h.tracked h.maps.paged)).mono ?_
      fun _ he => he
    rintro s'' ⟨T', hm⟩
    exact ⟨T' ++ T, h.round hstart haddr hm⟩
  · exact ⟨[], mapsBuddy_withNewBuddy ht hp hlag⟩

omit hp in
/-- `kmem_buddy_new` is the loop over the pages of the new buddy, and then the new end. -/
theorem kmemBuddyNew_outcome (hlag : lag ≤ 1) {alloc4k : Machine → Except Fault (Nat × Machine)}
    {Q Q' : Machine → Prop} {start : Nat}
    (hstart : start = s.kmem.base + s.kmem.buddyArrayPos * 2 ^ 19)
    (hloop : Outcome ((addrs start (start + 1 <<< 19) 4096).foldlM (fun s addr =>
      s.mapPage alloc4k addr prwr (prwr ||| fromKmem addr) s.firstPageDirectory) s.withNewBuddy) Q
      fun _ => True)
    (hend : ∀ s₁, Q s₁ → toVirt s₁.kmemPhysEnd = start →
      (s₁.kmemPhysEnd + 1 <<< 19) % 2 ^ 32 < s₁.kmemRegionEnd →
      Q' { s₁ with kmemPhysEnd := (s₁.kmemPhysEnd + 1 <<< 19) % 2 ^ 32 }) :
    Outcome (s.kmemBuddyNew alloc4k) Q' fun _ => True := by
  rw [Machine.kmemBuddyNew, kmemBuddyNewNoAlloc]
  split
  · rw [pure_bind]
    have hphys := ht.physEnd
    have hle := ht.physLe
    have hfirst : s.withNewBuddy.kmem.myFirstPage (s.withNewBuddy.kmem.buddyArrayPos - 1) =
        start := by
      rw [hstart]
      exact (ht.withNewBuddy hlag).toPlaced.myFirstPage (Nat.sub_lt (Nat.succ_pos _) Nat.one_pos)
    have hstop : (start + 1 <<< 19) % 2 ^ 32 = start + 1 <<< 19 := Nat.mod_eq_of_lt (by omega)
    change Outcome (do
      let s₁ ← (addrs (s.withNewBuddy.kmem.myFirstPage (s.withNewBuddy.kmem.buddyArrayPos - 1))
        ((s.withNewBuddy.kmem.myFirstPage (s.withNewBuddy.kmem.buddyArrayPos - 1) + 1 <<< 19) %
        2 ^ 32)
        4096).foldlM (fun s addr =>
          s.mapPage alloc4k addr prwr (prwr ||| fromKmem addr) s.firstPageDirectory) s.withNewBuddy
      _) _ _
    rw [hfirst, hstop]
    refine hloop.bind fun s₁ hQ => ?_
    dsimp only
    split
    · trivial
    · rename_i hstart₁
      rw [withNewBuddy] at hfirst
      split
      · rename_i hregion
        exact hend s₁ hQ ((not_not.1 hstart₁).trans hfirst) hregion
      · trivial
  · trivial

theorem kmemBuddyNew_grew (hlag : lag ≤ 1) {alloc4k : Machine → Except Fault (Nat × Machine)}
    (halloc : ∀ s' L', s'.Tracked L' (lag + 1) → s'.Paged D →
      Outcome (alloc4k s') (fun r => ∃ x T, Fetched D s' L' (lag + 1) .k4 r.1 r.2 x T) fun _ =>
      True) :
    Outcome (s.kmemBuddyNew alloc4k) (fun s' => ∃ T, Grew D s L lag s' T) fun _ => True := by
  refine kmemBuddyNew_outcome ht hlag rfl (mapBuddy_grew ht hp hlag halloc rfl) ?_
  rintro s₁ ⟨T, -, htracked, htables, hmaps⟩ - hregion
  have hphys₁ := htracked.physEnd
  have hle₁ := htracked.physLe
  have hregion₁ := htracked.region
  have hend : (s₁.kmemPhysEnd + 1 <<< 19) % 2 ^ 32 = s₁.kmemPhysEnd + 2 ^ 19 :=
    Nat.mod_eq_of_lt (by omega)
  rw [hend] at hregion ⊢
  refine ⟨T, ⟨htracked.toLayout.congr htracked.toPlaced rfl rfl, htracked.marked, ?_, ?_, hregion₁⟩,
    htables, ?_⟩
  · dsimp only
    omega
  · dsimp only
    omega
  · exact hmaps.trans_byGrowth (hmaps.paged.maps_of_mem rfl rfl rfl (Nat.le_refl _)
      fun q _ huse => huse)

/-- An allocation returns pages that no directory and no table has, and changes the walks at the
addresses of new buddies only. -/
theorem kmemAllocFuel_fetched (fuel : Nat) (n : BlockSize) (hlag : lag + fuel ≤ 2) :
    Outcome (kmemAllocFuel fuel n s) (fun r => ∃ x T, Fetched D s L lag n r.1 r.2 x T)
      fun _ => True := by
  induction fuel generalizing s L lag n with
  | zero => trivial
  | succ fuel ih =>
    rw [kmemAllocFuel]
    refine (ht.buddyAlloc n).bind ?_
    rintro r (rfl | ⟨b, i, hb, hi, rfl⟩)
    · dsimp only
      have hnew := kmemBuddyNew_grew ht hp (by omega) fun s' L' ht' hp' =>
        ih ht' hp' .k4 (show lag + 1 + fuel ≤ 2 by omega)
      refine hnew.bind ?_
      rintro s₁ ⟨T, hg⟩
      refine (hg.tracked.buddyAlloc n).bind ?_
      rintro r (rfl | ⟨b, i, hb, hi, rfl⟩)
      · trivial
      · have hf := take_fetched hg.tracked hg.maps.paged hb hi
        exact ⟨_, T, hf.tracked, rfl, hg.tables, hf.addr, hg.maps.trans_byGrowth hf.maps, hf.fresh⟩
    · exact ⟨_, [], take_fetched ht hp hb hi⟩

omit ht hp in
/-- `kmem_alloc_N` between calls. -/
theorem kmemAlloc_fetched {s : Machine} {L : List Block} (ht : s.Tracked L 0) (hp : s.Paged D)
    (n : BlockSize) :
    Outcome (s.kmemAlloc n) (fun r => ∃ x T, Fetched D s L 0 n r.1 r.2 x T) fun _ => True :=
  kmemAllocFuel_fetched ht hp 2 n (Nat.le_refl _)

end Alloc

end Machine

end TinyLittleOs.Memory
