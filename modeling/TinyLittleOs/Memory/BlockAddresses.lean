import TinyLittleOs.Memory.Heaps

/-!
# The addresses of blocks

`alloc<N>` makes an address of a buddy and an index, and `kmem_free_N` takes it apart again. Both
are right modulo `2 ^ 32` wherever the buddies lie, as long as there are at most `2 ^ 13` of them.
The check of `kmem_region_end` in `kmem_buddy_new` keeps them far below.
-/

namespace TinyLittleOs.Memory

open Lib Relation

theorem BlockSize.offset_lt {n : BlockSize} {i : Nat} (hi : i < n.count) :
    i * n.bytes < 2 ^ 19 := by
  cases n <;> simp only [count, bytes, shift] at * <;> omega

namespace Machine

/-- `buddy_rel_pos` -/
def buddyRelPos (s : Machine) (ptr : Nat) : Nat :=
  (ptr + (2 ^ 32 - s.kmem.buddyArray) + (2 ^ 32 - s.kmem.buddyArraySize)) % 2 ^ 32

/-- The buddy and the `alloc_index` that `kmem_free_N` finds. -/
def freed (s : Machine) (n : BlockSize) (ptr : Nat) : Nat × Nat :=
  (s.buddyRelPos ptr >>> 19, (s.buddyRelPos ptr &&& 0x7FFFF) >>> n.shift)

theorem kmemFree_eq (s : Machine) (n : BlockSize) (ptr : Nat) :
    s.kmemFree n ptr = if s.buddyRelPos ptr &&& (n.bytes - 1) ≠ 0 then .error (.freeUnaligned n)
      else .ok { s with kmem := s.kmem.free n (s.freed n ptr).1 (s.freed n ptr).2 } := rfl

/-- The first buddy is aligned to 32 KiB. -/
structure Based (k : Kmem) : Prop where
  array : k.buddyArray < 2 ^ 32
  size : k.buddyArraySize < 2 ^ 32
  aligned : (k.buddyArray + k.buddyArraySize) % 2 ^ 15 = 0

theorem Based.congr {k k' : Kmem} (h : Based k) (harray : k'.buddyArray = k.buddyArray)
    (hsize : k'.buddyArraySize = k.buddyArraySize) : Based k' := by
  refine ⟨harray ▸ h.array, hsize ▸ h.size, ?_⟩
  rw [harray, hsize]
  exact h.aligned

/-- The buddies do not fill the address space either. -/
structure Sited (s : Machine) : Prop extends Based s.kmem where
  few : s.kmem.buddyArrayPos ≤ 2 ^ 13

section Sited

variable {s : Machine} (h : s.Sited) {n : BlockSize} {b i : Nat} (hb : b < s.kmem.buddyArrayPos)
  (hi : i < n.count)
include h

theorem Sited.blockAddr_aligned : s.kmem.blockAddr n b i % n.bytes = 0 := by
  have halign := h.aligned
  rw [Kmem.blockAddr, Kmem.myFirstPage, Nat.shiftLeft_eq, Nat.shiftLeft_eq]
  cases n <;> simp only [BlockSize.bytes, BlockSize.shift] <;> omega

include hb hi

/-- The base cancels modulo `2 ^ 32`. -/
theorem Sited.buddyRelPos : s.buddyRelPos (s.kmem.blockAddr n b i) = b * 2 ^ 19 + i * n.bytes := by
  have harray := h.array
  have hsize := h.size
  have hfew := h.few
  have hoffset := BlockSize.offset_lt hi
  rw [Machine.buddyRelPos, Kmem.blockAddr, Kmem.myFirstPage, Nat.shiftLeft_eq, Nat.shiftLeft_eq]
  unfold BlockSize.bytes at *
  omega

theorem Sited.freed : s.freed n (s.kmem.blockAddr n b i) = (b, i) := by
  have hoffset := BlockSize.offset_lt hi
  have hbuddy : (b * 2 ^ 19 + i * n.bytes) / 2 ^ 19 = b := by omega
  have hin : (b * 2 ^ 19 + i * n.bytes) % 2 ^ 19 = i * n.bytes := by omega
  have hindex : (b * 2 ^ 19 + i * n.bytes) % 2 ^ 19 / 2 ^ n.shift = i := by
    rw [hin]
    exact Nat.mul_div_cancel i (Nat.two_pow_pos _)
  rw [Machine.freed, h.buddyRelPos hb hi, Nat.and_two_pow_sub_one_eq_mod _ 19,
    Nat.shiftRight_eq_div_pow, Nat.shiftRight_eq_div_pow, hbuddy, hindex]

/-- The assertion of `kmem_free_N` holds. -/
theorem Sited.kmemFree : s.kmemFree n (s.kmem.blockAddr n b i) =
    .ok { s with kmem := s.kmem.free n b i } := by
  have hmask : s.buddyRelPos (s.kmem.blockAddr n b i) &&& (n.bytes - 1) = 0 := by
    rw [h.buddyRelPos hb hi, BlockSize.bytes, Nat.and_two_pow_sub_one_eq_mod]
    cases n <;> simp only [BlockSize.shift] <;> omega
  rw [kmemFree_eq, if_neg (not_not_intro hmask), h.freed hb hi]

end Sited

/-- What `alloc<N>` returns, and how `kmem_free_N` takes it. -/
structure Addressed (s : Machine) : Prop where
  alloc : ∀ n b p k, s.kmem.alloc n b = .ok (p, k) → ∃ i < n.count, p = s.kmem.blockAddr n b i
  aligned : ∀ n b i, b < s.kmem.buddyArrayPos → i < n.count → s.kmem.blockAddr n b i % n.bytes = 0
  distinct : ∀ n b i b' i', b < s.kmem.buddyArrayPos → i < n.count → b' < s.kmem.buddyArrayPos →
    i' < n.count → s.kmem.blockAddr n b i = s.kmem.blockAddr n b' i' → b = b' ∧ i = i'
  freed : ∀ n b i, b < s.kmem.buddyArrayPos → i < n.count →
    s.freed n (s.kmem.blockAddr n b i) = (b, i)
  kmemFree : ∀ n b i, b < s.kmem.buddyArrayPos → i < n.count →
    s.kmemFree n (s.kmem.blockAddr n b i) = .ok { s with kmem := s.kmem.free n b i }

theorem Sited.addressed {s : Machine} (h : s.Sited) : s.Addressed where
  alloc n b p k halloc := by
    obtain ⟨i, hi, hp⟩ := bind_eq_ok.1 halloc
    cases hp
    exact ⟨i, Kmem.bit_lt (Kmem.findFree_eq_ok hi).1, rfl⟩
  aligned _ _ _ _ _ := h.blockAddr_aligned
  distinct n b i b' i' hb hi hb' hi' heq := by
    have hfreed := h.freed hb hi
    rw [heq, h.freed hb' hi', Prod.mk.injEq] at hfreed
    exact ⟨hfreed.1.symm, hfreed.2.symm⟩
  freed _ _ _ hb hi := h.freed hb hi
  kmemFree _ _ _ hb hi := h.kmemFree hb hi

/-! ## The number of buddies -/

/-- After initialization every buddy but the first two has taken 512 KiB below `kmem_region_end`. -/
structure Bounded (s : Machine) : Prop extends Based s.kmem where
  atEnd : s.AtEnd
  region : s.kmemRegionEnd ≤ 0x38000000
  buddies : s.kmem.buddyArrayPos ≤ 1 ∨
    s.kmemPhysEnd < s.kmemRegionEnd ∧ (s.kmem.buddyArrayPos - 2) * 2 ^ 19 ≤ s.kmemPhysEnd

theorem Bounded.sited {s : Machine} (h : s.Bounded) : s.Sited := by
  have hregion := h.region
  refine ⟨h.toBased, ?_⟩
  rcases h.buddies with hone | ⟨hlt, hle⟩ <;> omega

/-- The end of kmem moves with the number of buddies. -/
theorem buddies_succ_le {pos physEnd regionEnd : Nat} (hregion : regionEnd ≤ 0x38000000)
    (h : pos ≤ 1 ∨ physEnd < regionEnd ∧ (pos - 2) * 2 ^ 19 ≤ physEnd) :
    (pos + 1 - 2) * 2 ^ 19 ≤ (physEnd + 2 ^ 19) % 2 ^ 32 := by
  by_cases hone : pos ≤ 1
  · have hzero : pos + 1 - 2 = 0 := by omega
    rw [hzero, Nat.zero_mul]
    exact Nat.zero_le _
  · obtain ⟨hlt, hle⟩ := h.resolve_left hone
    have hsucc : pos + 1 - 2 = pos - 2 + 1 := by omega
    have hsum : physEnd + 2 ^ 19 < 2 ^ 32 := by omega
    rw [hsucc, Nat.mod_eq_of_lt hsum, Nat.add_mul, Nat.one_mul]
    exact Nat.add_le_add_right hle _

section Bounded

variable {s s' : Machine}

theorem Bounded.congr (h : s.Bounded) (hk : s'.kmem = s.kmem)
    (hend : s'.kmemPhysEnd = s.kmemPhysEnd)
    (hregion : s'.kmemRegionEnd = s.kmemRegionEnd) : s'.Bounded := by
  refine ⟨hk ▸ h.toBased, ?_, hregion ▸ h.region, ?_⟩
  · unfold AtEnd
    rw [hk, hend]
    exact h.atEnd
  · rw [hk, hend, hregion]
    exact h.buddies

theorem Bounded.still (h : s.Bounded) (hs : Still s s') : s'.Bounded := by
  have hend : s'.kmemPhysEnd = s.kmemPhysEnd := by rw [hs.globals]
  have hregion : s'.kmemRegionEnd = s.kmemRegionEnd := by rw [hs.globals]
  refine ⟨h.toBased.congr hs.array hs.size, h.atEnd.still hs, hregion ▸ h.region, ?_⟩
  rw [hs.pos, hend, hregion]
  exact h.buddies

/-- A new buddy, whose end was compared with `kmem_region_end`. -/
theorem Bounded.grown (h : s.Bounded) (hs : Grown s s') (hlt : s'.kmemPhysEnd < s'.kmemRegionEnd) :
    s'.Bounded := by
  have hend : s'.kmemPhysEnd = (s.kmemPhysEnd + 2 ^ 19) % 2 ^ 32 := by rw [hs.globals]
  have hregion : s'.kmemRegionEnd = s.kmemRegionEnd := by rw [hs.globals]
  refine ⟨h.toBased.congr hs.array hs.size, .grown hs, hregion ▸ h.region, .inr ⟨hlt, ?_⟩⟩
  rw [hs.pos, hend]
  exact buddies_succ_le h.region h.buddies

end Bounded

theorem kmemBuddyNew_region (alloc4k : Machine → Except Fault (Nat × Machine)) (s : Machine) :
    Outcome (s.kmemBuddyNew alloc4k) (fun s' => s'.kmemPhysEnd < s'.kmemRegionEnd)
    (fun _ => True) := by
  have hany {α : Type} (x : Except Fault α) : Outcome x (fun _ => True) (fun _ => True) :=
    .intro (fun _ _ => trivial) fun _ _ => trivial
  rw [kmemBuddyNew]
  refine (hany _).bind fun s₁ _ => (hany _).bind fun s₂ _ => .ite (fun _ => trivial) fun _ => ?_
  exact .ite (fun hlt => hlt) fun _ => trivial

theorem kmemAllocFuel_region (fuel : Nat) (n : BlockSize) {s : Machine}
    (hn : (s.kmem.links n).next none = none) :
    Outcome (kmemAllocFuel (fuel + 1) n s) (fun r => r.2.kmemPhysEnd < r.2.kmemRegionEnd)
      (fun _ => True) := by
  rw [kmemAllocFuel, buddyAlloc_of_null hn, ok_bind]
  dsimp only
  refine (kmemBuddyNew_region _ s).bind fun s₁ h₁ => (buddyAlloc_still s₁ n).bind ?_
  rintro ⟨_ | p, s₂⟩ ⟨h₂, -⟩
  · trivial
  · have h₂ : Still s₁ s₂ := h₂
    have hlt : s₂.kmemPhysEnd < s₂.kmemRegionEnd := by
      rw [h₂.globals]
      exact h₁
    exact hlt

/-- `kmem_alloc_N` keeps the bound, whether it creates a buddy or not. -/
theorem Bounded.kmemAlloc {s : Machine} (h : s.Bounded) (n : BlockSize) :
    Outcome (s.kmemAlloc n) (fun r => r.2.Bounded) (fun _ => True) := by
  by_cases hn : (s.kmem.links n).next none = none
  · exact ((h.atEnd.kmemAlloc n).and (kmemAllocFuel_region 1 n hn)).mono
      (fun r hr => h.grown (hr.1.grown hn) hr.2) fun _ _ => trivial
  · exact (h.atEnd.kmemAlloc n).mono (fun r hr => h.still (hr.still hn)) fun _ _ => trivial

theorem Bounded.mapPage {s : Machine} (h : s.Bounded) (virt pdeFlags pte pd : Nat) :
    Outcome (s.mapPage kmemAlloc4k virt pdeFlags pte pd) Bounded (fun _ => True) := by
  rw [Machine.mapPage]
  dsimp only
  refine .ite (fun _ => trivial) fun _ => .ite (fun _ => h.still (.store s _ _)) fun _ => ?_
  refine (h.kmemAlloc .k4).bind ?_
  rintro ⟨p, s₁⟩ h₁
  have h₁ : s₁.Bounded := h₁
  refine .ite (fun _ => (kmemFree_still s₁ .k4 p).bind fun s₂ h₂ => ?_) fun _ => ?_
  · exact (h₁.still h₂).still (.store _ _ _)
  · exact ((h₁.still (.memset _ _ _ _)).still (.store _ _ _)).still (.store _ _ _)

/-! ## Initialization -/

theorem toVirt_lt (phys : Nat) : toVirt phys < 2 ^ 32 := by
  unfold toVirt
  exact Nat.mod_lt _ (by decide)

/-- The rounding of `buddy_array_end` aligns the first buddy. -/
theorem buddyArray_aligned (s : Machine) :
    (toVirt s.buddyMemoryPhys + s.initBuddyArraySize) % 2 ^ 15 = 0 := by
  have hlt := toVirt_lt s.buddyMemoryPhys
  have hround (n : Nat) : n <<< 15 % 2 ^ 15 = 0 := by
    rw [Nat.shiftLeft_eq]
    exact Nat.mul_mod_left _ _
  have hend : s.buddyArrayEnd % 2 ^ 15 = 0 := hround _
  rw [initBuddyArraySize]
  omega

/-- `kmem_phys_end` starts behind the first buddy. -/
theorem firstBuddy_atEnd (s : Machine) :
    toVirt ((s.buddyMemoryEndPhys + (1 <<< 19)) % 2 ^ 32) =
      (toVirt s.buddyMemoryPhys + s.initBuddyArraySize + (1 <<< 19)) % 2 ^ 32 := by
  rw [buddyMemoryEndPhys, Nat.shiftLeft_eq]
  generalize s.initBuddyArraySize = size
  generalize s.buddyMemoryPhys = phys
  unfold toVirt
  omega

theorem initGlobals_bounded (s : Machine) : Outcome s.initGlobals Bounded (fun _ => True) := by
  refine .intro (fun s₁ hs₁ => ?_) fun _ _ => trivial
  rw [initGlobals] at hs₁
  obtain ⟨s₂, hs₂, hs₁⟩ := bind_eq_ok.1 hs₁
  rw [kmemBuddyNewNoAlloc] at hs₂
  split at hs₂
  · cases hs₂
    cases hs₁
    refine ⟨⟨toVirt_lt _, Nat.mod_lt _ (by decide), s.buddyArray_aligned⟩, s.firstBuddy_atEnd, ?_,
      .inl (Nat.le_refl 1)⟩
    dsimp only
    split_ifs with hgt
    · exact Nat.le_refl _
    · exact Nat.le_of_not_lt hgt
  · cases hs₂

theorem Bounded.initTable {s : Machine} (h : s.Bounded) (addr : Nat) :
    Outcome (s.initTable addr) Bounded (fun _ => True) := by
  rw [Machine.initTable]
  dsimp only
  refine .ite (fun _ => trivial) fun _ => (h.kmemAlloc .k4).bind ?_
  rintro ⟨p, s₁⟩ h₁
  exact (Bounded.still h₁ (.memset _ _ _ _)).still (.store _ _ _)

theorem initPageAllocator_bounded (s : Machine) :
    Outcome s.initPageAllocator Bounded (fun _ => True) := by
  rw [initPageAllocator]
  dsimp only
  refine (initGlobals_bounded s).bind fun s₁ h₁ => ?_
  refine (Outcome.foldlM (fun t a _ ht => ht.mapPage _ _ _ _) (h₁.still (.memset _ _ _ _))).bind
    fun s₂ h₂ => ?_
  have hcr3 : Bounded { s₂ with cr3 := fromKmem s₂.firstPageDirectory } := h₂.congr rfl rfl rfl
  exact Outcome.foldlM (fun t a _ ht => ht.initTable a) hcr3

theorem Bounded.step {s s' : Machine} {a : Heaps.Call} (h : s.Bounded) (hs : Heaps.Step s a s') :
    s'.Bounded := by
  cases hs with
  | @kmemAlloc _ n _ hs => exact (h.kmemAlloc n).of_ok hs
  | kmemFree hs => exact h.still ((s.kmemFree_still _ _).of_ok hs)
  | hmemAlloc hs =>
    rcases s.hmemAllocPage_moves.of_ok hs with ⟨_, _, _, hs⟩ | ⟨-, hs⟩ <;> dsimp only at hs <;>
      refine h.congr ?_ ?_ ?_ <;> rw [hs]
  | hmemFree hs =>
    obtain ⟨_, _, _, hs⟩ := (s.hmemFreePage_still _).of_ok hs
    refine h.congr ?_ ?_ ?_ <;> rw [hs]
  | other => exact h.congr rfl rfl rfl

theorem Bounded.run {s s' : Machine} (h : s.Bounded) (hr : Heaps.Reachable s (fun _ _ => True) s') :
    s'.Bounded := by
  induction hr with
  | refl => exact h
  | tail _ hstep ih =>
    obtain ⟨a, hs, -⟩ := hstep
    exact ih.step hs

/-- Wherever the buddies lie and however much RAM there is, the blocks of every run have their own
aligned addresses, and `kmem_free_N` recovers them. -/
theorem blocks_addressed {s₀ s s' : Machine} (hs : s₀.initPageAllocator = .ok s)
    (hr : Heaps.Reachable s (fun _ _ => True) s') : s'.Addressed :=
  (((initPageAllocator_bounded s₀).of_ok hs).run hr).sited.addressed

set_option maxRecDepth 10000 in
/-- After a second buddy is created and a block of the first is freed. -/
theorem blocks_addressed_small : ∃ s s', Client.smallBoot.initPageAllocator = .ok s ∧
    Heaps.Reachable s (fun _ _ => True) s' ∧ s'.kmem.buddyArrayPos = 2 ∧ s'.Addressed := by
  obtain ⟨s, c, hs, hrun, -, htwo⟩ := Client.smallBoot_run
    (l := List.replicate 16 (.alloc .k32) ++ [.free .k32 0xC0130000, .alloc .k8])
    (P := fun k => k.buddyArrayPos = 2) (by decide +kernel)
  have hreach := Heaps.reachable_of_client (Q := fun _ _ => True) (fun _ _ _ => trivial) hrun
  exact ⟨s, c.machine, hs, hreach, of_decide_eq_true htwo, blocks_addressed hs hreach⟩

end Machine

end TinyLittleOs.Memory
