import TinyLittleOs.Memory.Growth

/-!
# Memory above kmem

kmem writes to its own pages, to directories and to their tables. All of them lie below the end of
the buddies, so memory from there on stays as it is.
-/

namespace TinyLittleOs.Memory

open Lib

namespace Machine

/-- From `s` to `s'` memory above the buddies did not change. -/
def Leaves (s s' : Machine) : Prop :=
  ∀ x, 4096 * s'.pageOf s'.kmem.buddyArrayPos 0 ≤ x → s'.mem x = s.mem x

section Leaves

variable {s s' s'' : Machine}

theorem Leaves.refl (s : Machine) : Leaves s s := fun _ _ => rfl

theorem pageOf_mono (hbase : s''.kmem.base = s'.kmem.base)
    (hpos : s'.kmem.buddyArrayPos ≤ s''.kmem.buddyArrayPos) :
    s'.pageOf s'.kmem.buddyArrayPos 0 ≤ s''.pageOf s''.kmem.buddyArrayPos 0 := by
  rw [pageOf, pageOf, hbase]
  omega

theorem Leaves.trans (h : Leaves s s') (h' : Leaves s' s'') (hbase : s''.kmem.base = s'.kmem.base)
    (hpos : s'.kmem.buddyArrayPos ≤ s''.kmem.buddyArrayPos) : Leaves s s'' := by
  intro x hx
  have hle := pageOf_mono hbase hpos
  exact (h' x hx).trans (h x (by omega))

theorem Leaves.congr (h : Leaves s s') (hmem : s''.mem = s'.mem)
    (hbase : s''.kmem.base = s'.kmem.base)
    (hpos : s''.kmem.buddyArrayPos = s'.kmem.buddyArrayPos) : Leaves s s'' := by
  intro x hx
  rw [pageOf, hbase, hpos] at hx
  rw [hmem]
  exact h x hx

theorem pageOf_congr (hk : s'.kmem = s.kmem) :
    s'.pageOf s'.kmem.buddyArrayPos 0 = s.pageOf s.kmem.buddyArrayPos 0 := by
  rw [pageOf, pageOf, hk]

/-- An entry of a page below is written. -/
theorem Leaves.store (h : Leaves s s') {q a : Nat} {k : Fin 1024}
    (hq : q < s'.pageOf s'.kmem.buddyArrayPos 0) (ha : fromKmem a = 4096 * q + 4 * (k : Nat))
    (v : Nat) :
    Leaves s (s'.store a v) := by
  refine h.trans (fun x hx => ?_) (by rw [store_kmem]) (by rw [store_kmem])
  have hk := k.isLt
  rw [pageOf_congr (store_kmem _ _ _)] at hx
  rw [store_mem, ha]
  exact ByteMem.store32_of_out (by omega)

theorem Leaves.memset (h : Leaves s s') {p n : Nat} {v : BitVec 8}
    (hend : fromKmem p + n ≤ 4096 * s'.pageOf s'.kmem.buddyArrayPos 0) :
    Leaves s (s'.memset p v n) := by
  refine h.trans (fun x hx => ?_) (by rw [memset_kmem]) (by rw [memset_kmem])
  rw [pageOf_congr (memset_kmem _ _ _ _)] at hx
  rw [memset_mem]
  exact ByteMem.fill_of_out (by omega)

end Leaves

theorem Layout.block_le {s : Machine} (h : s.Layout) {n : BlockSize} {b i : Nat}
    (hb : b < s.kmem.buddyArrayPos) (hi : i < n.count) :
    fromKmem (s.kmem.blockAddr n b i) + n.bytes ≤ 4096 * s.pageOf s.kmem.buddyArrayPos 0 := by
  obtain ⟨-, haddr⟩ := h.blockAddr_page hb hi
  rw [haddr, pageOf, pageOf]
  cases n <;>
    simp only [BlockSize.count, BlockSize.bytes, BlockSize.shift, BlockSize.order] at * <;> omega

theorem take_leaves {s : Machine} {L : List Block} {lag : Nat} (ht : s.Tracked L lag)
    {n : BlockSize}
    {b i : Nat} (hb : b < s.kmem.buddyArrayPos) (hi : s.kmem.bit n b i = true) :
    Leaves s (s.take n b i) := by
  have hlt := Kmem.bit_lt hi
  have halike := take_alike (s := s) (b := b) hlt
  have hend := ht.toLayout.block_le hb hlt
  intro x hx
  rw [pageOf, halike.base, halike.pos, ← pageOf] at hx
  rw [Machine.take, memset_mem]
  exact ByteMem.fill_of_out (by omega)

/-! ## `_map_page` -/

section MapPage

variable {D : Spaces} {s : Machine} {L : List Block} {lag : Nat} {pd virt pdeFlags pte : Nat}
variable (hp : s.Paged D) (hpd : PagePtr pd) (hD : pageNo pd ∈ D.dirs) (hlt : virt < 2 ^ 32)
include hp hpd hD hlt

/-- The write to a table that is there. -/
theorem Leaves.store_table {s₀ : Machine} (h : Leaves s₀ s)
    (htable : s.load (pd + 4 * (virt >>> 22)) &&& present ≠ 0) :
    Leaves s₀
    (s.store (tableOf (s.load (pd + 4 * (virt >>> 22))) + 4 * (virt >>> 12 &&& 0x03FF)) pte) := by
  rw [load_dir hpd s hlt] at htable
  have hsome := tablePage_eq_some.2 ⟨htable, rfl⟩
  exact h.store (hp.inUse _ (Or.inl (PageMem.refs_table hD hsome))).1
    (fromKmem_entry hpd hlt hsome) pte

omit hp in
/-- A page becomes a table. -/
theorem Fetched.newTable_leaves {s₁ : Machine} {p : Nat} {x : Block} {T : List Block}
    (hf : Fetched D s L lag .k4 p s₁ x T) (h : Leaves s s₁) (pde : Nat) :
    Leaves s (((s₁.memset p 0 4096).store (pd + 4 * (virt >>> 22)) pde).store
      (p + 4 * (virt >>> 12 &&& 0x03FF)) pte) := by
  obtain ⟨hb, hi⟩ := hf.tracked.marked.valid x List.mem_cons_self
  have huse := (hf.tracked.inUse_of_mem List.mem_cons_self hf.size).1
  rw [hf.size] at hi
  have hend := hf.tracked.toLayout.block_le hb hi
  obtain ⟨hptr, haddr⟩ := hf.tracked.toLayout.blockAddr_page (n := .k4) hb hi
  have hdirUse := (hf.maps.paged.inUse _ (Or.inl (PageMem.refs_dir hD))).1
  have hbytes : BlockSize.k4.bytes = 4096 := rfl
  rw [← hf.addr] at hend hptr haddr
  rw [hbytes] at hend
  have hdir : fromKmem (pd + 4 * (virt >>> 22)) = 4096 * pageNo pd + 4 * (dirOf virt : Nat) := by
    rw [← dirOf_val hlt, hpd.fromKmem_add (by have := (dirOf virt).isLt; omega)]
  have htab : fromKmem (p + 4 * (virt >>> 12 &&& 0x03FF)) =
      4096 * s₁.pageOf x.buddy x.index + 4 * (tabOf virt : Nat) := by
    rw [← tabOf_val, hptr.fromKmem_add (by have := (tabOf virt).isLt; omega), pageNo, haddr,
      Nat.mul_div_cancel_left _ (by decide)]
    simp [BlockSize.order]
  have hmemset : Leaves s (s₁.memset p 0 4096) := h.memset hend
  refine (hmemset.store (q := pageNo pd) ?_ hdir pde).store (q := s₁.pageOf x.buddy x.index)
    ?_ htab pte
  · rw [pageOf_congr (memset_kmem _ _ _ _)]
    exact hdirUse
  · rw [pageOf_congr (store_kmem _ _ _), pageOf_congr (memset_kmem _ _ _ _)]
    exact huse

theorem mapPage_leaves {alloc4k : Machine → Except Fault (Nat × Machine)}
    (halloc : Outcome (alloc4k s)
      (fun r => (∃ x T, Fetched D s L lag .k4 r.1 r.2 x T) ∧ Leaves s r.2) fun _ => True) :
    Outcome (s.mapPage alloc4k virt pdeFlags pte pd) (Leaves s) fun _ => True := by
  rw [mapPage]
  refine .ite (fun _ => trivial) fun _ => ?_
  dsimp only
  refine .ite (fun htable => (Leaves.refl s).store_table hp hpd hD hlt htable) fun _ => ?_
  refine halloc.bind ?_
  rintro ⟨p, s₁⟩ ⟨⟨x, T, hf⟩, hleaves⟩
  dsimp only at hf hleaves ⊢
  refine .ite (fun htable => ?_) fun _ => hf.newTable_leaves hpd hD hlt hleaves _
  -- the page is given back, and the table is there
  obtain ⟨s₂, hs₂, -, hmaps, -, -, -⟩ := hf.free
  obtain ⟨halike, hmem⟩ := kmemFree_alike hs₂
  have hload : s₂.load (pd + 4 * (virt >>> 22)) = s₁.load (pd + 4 * (virt >>> 22)) := by
    rw [load, load, hmem]
  rw [hs₂, ok_bind]
  rw [← hload] at htable
  exact (hleaves.congr hmem halike.base halike.pos).store_table hmaps.paged hpd hD hlt htable

end MapPage

/-! ## `kmem_buddy_new` and `kmem_alloc_N` -/

section Alloc

variable {D : Spaces} {s : Machine} {L : List Block} {lag : Nat}
variable (ht : s.Tracked L lag) (hp : s.Paged D)
include ht hp

theorem mapBuddy_leaves (hlag : lag ≤ 1) {alloc4k : Machine → Except Fault (Nat × Machine)}
    (halloc : ∀ s' L', s'.Tracked L' (lag + 1) → s'.Paged D → Outcome (alloc4k s')
      (fun r => (∃ x T, Fetched D s' L' (lag + 1) .k4 r.1 r.2 x T) ∧ Leaves s' r.2) fun _ => True)
    {start : Nat} (hstart : start = s.kmem.base + s.kmem.buddyArrayPos * 2 ^ 19) :
    Outcome ((addrs start (start + 1 <<< 19) 4096).foldlM (fun s addr =>
      s.mapPage alloc4k addr prwr (prwr ||| fromKmem addr) s.firstPageDirectory) s.withNewBuddy)
      (fun s' => (∃ T, MapsBuddy D s L lag s' T) ∧ Leaves s s') fun _ => True := by
  apply Outcome.foldlM
  · rintro s' addr haddr ⟨⟨T, h⟩, hleaves⟩
    obtain ⟨hmod, hlt, hpte⟩ := h.page ht hstart haddr
    have hfetched := (halloc s' _ h.tracked h.maps.paged).mono (fun _ h => h.1) fun _ h => h
    have hmapped :
        Outcome (s'.mapPage alloc4k addr prwr (prwr ||| fromKmem addr) s'.firstPageDirectory)
        _ _ := mapPage_mapped h.tracked h.maps.paged h.maps.paged.first.1 h.maps.paged.first.2
      hmod hlt hpte (by decide) (by decide) hfetched
    have hround :
        Outcome (s'.mapPage alloc4k addr prwr (prwr ||| fromKmem addr) s'.firstPageDirectory)
        _ _ := mapPage_leaves h.maps.paged h.maps.paged.first.1 h.maps.paged.first.2 hlt
      (halloc s' _ h.tracked h.maps.paged)
    refine (hmapped.both hround).mono ?_ fun _ h => h
    rintro s'' ⟨⟨T', hm⟩, hleaves'⟩
    exact ⟨⟨T' ++ T, h.round hstart haddr hm⟩, hleaves.trans hleaves' hm.maps.base hm.maps.pos⟩
  · exact ⟨⟨[], mapsBuddy_withNewBuddy ht hp hlag⟩, fun _ _ => rfl⟩

theorem kmemBuddyNew_leaves (hlag : lag ≤ 1) {alloc4k : Machine → Except Fault (Nat × Machine)}
    (halloc : ∀ s' L', s'.Tracked L' (lag + 1) → s'.Paged D → Outcome (alloc4k s')
      (fun r => (∃ x T, Fetched D s' L' (lag + 1) .k4 r.1 r.2 x T) ∧ Leaves s' r.2) fun _ => True) :
    Outcome (s.kmemBuddyNew alloc4k) (Leaves s) fun _ => True := by
  refine kmemBuddyNew_outcome ht hlag rfl (mapBuddy_leaves ht hp hlag halloc rfl) ?_
  rintro s₁ ⟨-, hleaves⟩ - -
  exact hleaves.congr rfl rfl rfl

theorem kmemAllocFuel_leaves (fuel : Nat) (n : BlockSize) (hlag : lag + fuel ≤ 2) :
    Outcome (kmemAllocFuel fuel n s) (fun r => Leaves s r.2) fun _ => True := by
  induction fuel generalizing s L lag n with
  | zero => trivial
  | succ fuel ih =>
    rw [kmemAllocFuel]
    refine (ht.buddyAlloc n).bind ?_
    rintro r (rfl | ⟨b, i, hb, hi, rfl⟩)
    · dsimp only
      have hfetched (s' : Machine) (L' : List Block) (ht' : s'.Tracked L' (lag + 1))
          (hp' : s'.Paged D) :=
        kmemAllocFuel_fetched ht' hp' fuel .k4 (show lag + 1 + fuel ≤ 2 by omega)
      have hgrew := kmemBuddyNew_grew ht hp (by omega) hfetched
      have hnew := kmemBuddyNew_leaves ht hp (by omega) fun s' L' ht' hp' =>
        (hfetched s' L' ht' hp').both (ih ht' hp' .k4 (show lag + 1 + fuel ≤ 2 by omega))
      refine (hgrew.both hnew).bind ?_
      rintro s₁ ⟨⟨T, hg⟩, hleaves⟩
      refine (hg.tracked.buddyAlloc n).bind ?_
      rintro r (rfl | ⟨b, i, hb, hi, rfl⟩)
      · trivial
      · have htake := take_leaves hg.tracked hb hi
        have halike := take_alike (s := s₁) (b := b) (Kmem.bit_lt hi)
        exact hleaves.trans htake halike.base (Nat.le_of_eq halike.pos.symm)
    · exact take_leaves ht hb hi

omit ht in
/-- `kmem_alloc_4k` between calls, as `_map_page` uses it. -/
theorem kmemAlloc4k_leaves (ht : s.Tracked L 0) : Outcome (s.kmemAlloc .k4)
    (fun r => (∃ x T, Fetched D s L 0 .k4 r.1 r.2 x T) ∧ Leaves s r.2) fun _ => True :=
  (kmemAlloc_fetched ht hp .k4).both (kmemAllocFuel_leaves ht hp 2 .k4 (Nat.le_refl _))

end Alloc

end Machine

end TinyLittleOs.Memory
