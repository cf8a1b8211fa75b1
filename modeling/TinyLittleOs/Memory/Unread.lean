import TinyLittleOs.Lib.Related
import TinyLittleOs.Memory.HmemRuns

/-!
# Memory that the allocators do not read

Of memory the allocators read directory entries only, and the first word of a free page of hmem. So
two machines that differ elsewhere stay alike, whatever is allocated and mapped.
-/

namespace TinyLittleOs.Memory

open Lib

namespace Machine

/-- The machines differ in memory only, and there in `X` only. -/
structure Agree (X : Set Nat) (s t : Machine) : Prop where
  globals : t = { s with mem := t.mem }
  mem : ∀ x ∉ X, t.mem x = s.mem x

/-- No entry of the directory is in `X`. -/
def Spares (X : Set Nat) (pd : Nat) : Prop := ∀ d < 1024, ∀ i < 4, fromKmem (pd + 4 * d) + i ∉ X

section Agree

variable {X Y : Set Nat} {s t u : Machine}

theorem Agree.refl (X : Set Nat) (s : Machine) : Agree X s s := ⟨rfl, fun _ _ => rfl⟩

theorem Agree.mono (h : Agree X s t) (hX : X ⊆ Y) : Agree Y s t :=
  ⟨h.globals, fun x hx => h.mem x fun hin => hx (hX hin)⟩

theorem Agree.symm (h : Agree X s t) : Agree X t s := by
  refine ⟨?_, fun x hx => (h.mem x hx).symm⟩
  rw [h.globals]

theorem Agree.trans (h : Agree X s t) (h' : Agree X t u) : Agree X s u := by
  refine ⟨?_, fun x hx => (h'.mem x hx).trans (h.mem x hx)⟩
  rw [h'.globals, h.globals]

theorem Agree.load32 (h : Agree X s t) {a : Nat} (ha : ∀ i < 4, a + i ∉ X) :
    t.mem.load32 a = s.mem.load32 a := by
  apply ByteMem.load32_congr
  intro x hlo hhi
  apply h.mem
  have hx := ha (x - a) (by omega)
  rwa [Nat.add_sub_cancel' hlo] at hx

theorem Agree.load (h : Agree X s t) {pd d : Nat} (hpd : Spares X pd) (hd : d < 1024) :
    t.load (pd + 4 * d) = s.load (pd + 4 * d) :=
  h.load32 (hpd d hd)

theorem Agree.store (h : Agree X s t) (a v : Nat) : Agree X (s.store a v) (t.store a v) := by
  refine ⟨?_, fun x hx => ?_⟩
  · rw [Machine.store, Machine.store, h.globals]
  · rw [store_mem, store_mem, ByteMem.store32, ByteMem.store32, h.mem x hx]

theorem Agree.memset (h : Agree X s t) (a : Nat) (v : BitVec 8) (n : Nat) :
    Agree X (s.memset a v n) (t.memset a v n) := by
  refine ⟨?_, fun x hx => ?_⟩
  · rw [Machine.memset, Machine.memset, h.globals]
  · rw [memset_mem, memset_mem, ByteMem.fill, ByteMem.fill, h.mem x hx]

theorem Agree.withKmem (h : Agree X s t) (kmem : Kmem) :
    Agree X { s with kmem } { t with kmem } := by
  refine ⟨?_, h.mem⟩
  rw [h.globals]

theorem Agree.withKmemPhysEnd (h : Agree X s t) (kmemPhysEnd : Nat) :
    Agree X { s with kmemPhysEnd } { t with kmemPhysEnd } := by
  refine ⟨?_, h.mem⟩
  rw [h.globals]

theorem Agree.withHmemEnd (h : Agree X s t) (hmemEnd : Nat) :
    Agree X { s with hmemEnd } { t with hmemEnd } := by
  refine ⟨?_, h.mem⟩
  rw [h.globals]

theorem Agree.withHmemPhysEnd (h : Agree X s t) (hmemPhysEnd : Nat) :
    Agree X { s with hmemPhysEnd } { t with hmemPhysEnd } := by
  refine ⟨?_, h.mem⟩
  rw [h.globals]

theorem Agree.withHmemPhysList (h : Agree X s t) (hmemPhysList : Nat) :
    Agree X { s with hmemPhysList } { t with hmemPhysList } := by
  refine ⟨?_, h.mem⟩
  rw [h.globals]

theorem Agree.kmem (h : Agree X s t) : t.kmem = s.kmem := by rw [h.globals]

theorem Agree.kmemPhysEnd (h : Agree X s t) : t.kmemPhysEnd = s.kmemPhysEnd := by rw [h.globals]

theorem Agree.hmemPhysEnd (h : Agree X s t) : t.hmemPhysEnd = s.hmemPhysEnd := by rw [h.globals]

theorem Agree.cr3 (h : Agree X s t) : t.cr3 = s.cr3 := by rw [h.globals]

theorem Agree.hmemEnd (h : Agree X s t) : t.hmemEnd = s.hmemEnd := by rw [h.globals]

theorem Agree.hmemPhysList (h : Agree X s t) : t.hmemPhysList = s.hmemPhysList := by rw [h.globals]

theorem Agree.kmemRegionEnd (h : Agree X s t) : t.kmemRegionEnd = s.kmemRegionEnd := by
  rw [h.globals]

end Agree

/-! ## kmem -/

/-- The machines agree outside `X`, with `first_page_directory` at `fpd`. -/
structure Beside (X : Set Nat) (fpd : Nat) (s t : Machine) : Prop extends Agree X s t where
  dir : s.firstPageDirectory = fpd

/-- An allocation does not depend on what is in `X`. -/
def Blind (X : Set Nat) (fpd : Nat) (alloc : Machine → Except Fault (Nat × Machine)) : Prop :=
  ∀ s t, Beside X fpd s t →
    Related (fun r r' => r.1 = r'.1 ∧ Beside X fpd r.2 r'.2) (alloc s) (alloc t)

section Kmem

variable {X : Set Nat} {fpd : Nat} {s t : Machine} (h : Beside X fpd s t)
include h

theorem Beside.dir' : t.firstPageDirectory = fpd := by
  rw [h.globals]
  exact h.dir

theorem Beside.store (a v : Nat) : Beside X fpd (s.store a v) (t.store a v) := by
  refine ⟨h.toAgree.store a v, ?_⟩
  rw [store_dir]
  exact h.dir

theorem Beside.memset (a : Nat) (v : BitVec 8) (n : Nat) :
    Beside X fpd (s.memset a v n) (t.memset a v n) := by
  refine ⟨h.toAgree.memset a v n, ?_⟩
  rw [memset_dir]
  exact h.dir

theorem Beside.buddyAlloc (n : BlockSize) :
    Related (fun r r' => r.1 = r'.1 ∧ Beside X fpd r.2 r'.2) (s.buddyAlloc n) (t.buddyAlloc n) := by
  have hkmem := h.kmem
  rw [Machine.buddyAlloc, Machine.buddyAlloc, hkmem]
  cases (s.kmem.links n).next none with
  | none => exact Related.pure ⟨rfl, h⟩
  | some b =>
    dsimp only
    cases s.kmem.alloc n b with
    | error e => exact Related.error e
    | ok q =>
      obtain ⟨res, kmem⟩ := q
      have hwith : Beside X fpd { s with kmem } { t with kmem } := ⟨h.withKmem kmem, h.dir⟩
      rw [ok_bind, ok_bind]
      exact Related.pure ⟨rfl, hwith.memset res 0x41 n.bytes⟩

theorem Beside.kmemFree (n : BlockSize) (p : Nat) :
    Related (Beside X fpd) (s.kmemFree n p) (t.kmemFree n p) := by
  have hkmem := h.kmem
  rw [Machine.kmemFree, Machine.kmemFree, hkmem]
  dsimp only
  refine Related.ite Iff.rfl (fun _ => Related.error _) fun _ => Related.pure ?_
  exact ⟨h.withKmem _, h.dir⟩

theorem Beside.mapPage {alloc4k : Machine → Except Fault (Nat × Machine)}
    (halloc : Blind X fpd alloc4k)
    {pd : Nat} (hpd : Spares X pd) {virt : Nat} (hvirt : virt < 2 ^ 32) (pdeFlags pte : Nat) :
    Related (Beside X fpd) (s.mapPage alloc4k virt pdeFlags pte pd)
      (t.mapPage alloc4k virt pdeFlags pte pd) := by
  have hd : virt >>> 22 < 1024 := by
    rw [Nat.shiftRight_eq_div_pow]
    omega
  have hload := h.load hpd hd
  rw [Machine.mapPage, Machine.mapPage]
  refine Related.ite Iff.rfl (fun _ => Related.error _) fun _ => ?_
  dsimp only
  rw [hload]
  refine Related.ite Iff.rfl (fun _ => Related.pure (h.store _ _)) fun _ => ?_
  refine (halloc s t h).bind ?_
  rintro ⟨p, s₁⟩ ⟨p', t₁⟩ ⟨hp, h₁⟩
  dsimp only at hp h₁ ⊢
  subst hp
  have hload₁ := h₁.load hpd hd
  rw [hload₁]
  refine Related.ite Iff.rfl (fun _ => ?_) fun _ =>
    Related.pure (((h₁.memset p 0 4096).store _ _).store _ _)
  refine (h₁.kmemFree .k4 p).bind ?_
  intro s₂ t₂ h₂
  have hload₂ := h₂.load hpd hd
  rw [hload₂]
  exact Related.pure (h₂.store _ _)

end Kmem

section Growth

variable {X : Set Nat} {fpd : Nat} (hfpd : Spares X fpd)
include hfpd

theorem kmemBuddyNew_beside {alloc4k : Machine → Except Fault (Nat × Machine)}
    (halloc : Blind X fpd alloc4k) {s t : Machine} (h : Beside X fpd s t) :
    Related (Beside X fpd) (s.kmemBuddyNew alloc4k) (t.kmemBuddyNew alloc4k) := by
  have hkmem := h.kmem
  rw [kmemBuddyNew, kmemBuddyNew, kmemBuddyNewNoAlloc, kmemBuddyNewNoAlloc, hkmem]
  by_cases hroom : s.kmem.buddyArrayPos * 64 % 2 ^ 32 < s.kmem.buddyArraySize
  · rw [if_pos hroom, if_pos hroom, pure_bind, pure_bind]
    dsimp only
    generalize s.kmem.buddyNewNoAlloc = kmem
    have hnew : Beside X fpd { s with kmem } { t with kmem } := ⟨h.withKmem kmem, h.dir⟩
    generalize hstop : (kmem.myFirstPage (kmem.buddyArrayPos - 1) + 1 <<< 19) % 2 ^ 32 = stop
    have hstop' : stop < 2 ^ 32 := by
      rw [← hstop]
      exact Nat.mod_lt _ (by decide)
    generalize kmem.myFirstPage (kmem.buddyArrayPos - 1) = start
    refine Related.bind (R := Beside X fpd) ?_ fun s₁ t₁ h₁ => ?_
    · refine Related.foldlM (fun s₁ t₁ addr haddr h₁ => ?_) hnew
      have hlt : addr < 2 ^ 32 := by
        obtain ⟨k, hk, rfl⟩ := List.mem_range'.1 haddr
        omega
      rw [h₁.dir, h₁.dir']
      exact h₁.mapPage halloc hfpd hlt _ _
    · have hend := h₁.kmemPhysEnd
      have hregion := h₁.kmemRegionEnd
      refine Related.ite (by rw [hend]) (fun _ => Related.error _) fun _ =>
        Related.ite (by rw [hend, hregion]) (fun _ => Related.pure ?_) fun _ => Related.error _
      rw [hend]
      exact ⟨h₁.withKmemPhysEnd _, h₁.dir⟩
  · rw [if_neg hroom, if_neg hroom]
    exact Related.error _

theorem kmemAllocFuel_blind (fuel : Nat) (n : BlockSize) : Blind X fpd (kmemAllocFuel fuel n) := by
  induction fuel generalizing n with
  | zero => exact fun _ _ _ => Related.error _
  | succ fuel ih =>
    intro s t h
    rw [kmemAllocFuel, kmemAllocFuel]
    refine (h.buddyAlloc n).bind ?_
    rintro ⟨res, s₁⟩ ⟨res', t₁⟩ ⟨hres, h₁⟩
    dsimp only at hres h₁
    subst hres
    cases res with
    | some p => exact Related.pure ⟨rfl, h₁⟩
    | none =>
      dsimp only
      refine (kmemBuddyNew_beside hfpd (ih .k4) h₁).bind fun s₂ t₂ h₂ => ?_
      refine (h₂.buddyAlloc n).bind ?_
      rintro ⟨res, s₃⟩ ⟨res', t₃⟩ ⟨hres, h₃⟩
      dsimp only at hres h₃
      subst hres
      cases res with
      | some p => exact Related.pure ⟨rfl, h₃⟩
      | none => exact Related.error _

end Growth

/-! ## hmem -/

section Hmem

variable {X : Set Nat} {fpd : Nat} {s t : Machine} (h : Beside X fpd s t)
include h

theorem Beside.hmemMap (hcr3 : Spares X (toVirt s.cr3)) (addr : Nat) :
    Related (Beside X fpd) (s.hmemMap addr) (t.hmemMap addr) := by
  rw [Machine.hmemMap, Machine.hmemMap, h.hmemEnd]
  dsimp only
  generalize (s.hmemEnd + (2 ^ 32 - 4096)) % 2 ^ 32 = hmemEnd
  refine Related.ite Iff.rfl (fun _ => Related.error _) fun hlast => ?_
  have hindex : hmemEnd >>> 22 < 1024 := by
    rw [not_not.1 hlast]
    decide
  have hload : t.load (toVirt t.cr3 + 4 * (hmemEnd >>> 22)) =
      s.load (toVirt s.cr3 + 4 * (hmemEnd >>> 22)) := by
    rw [h.cr3]
    exact h.load hcr3 hindex
  rw [hload]
  refine Related.ite Iff.rfl (fun _ => Related.error _) fun _ => Related.pure ?_
  have hwith : Beside X fpd { s with hmemEnd } { t with hmemEnd } := ⟨h.withHmemEnd hmemEnd, h.dir⟩
  exact hwith.store _ _

/-- The first word of the free page that is handed out is read. -/
theorem Beside.hmemAllocPage (hcr3 : Spares X (toVirt s.cr3))
    (hlist : s.hmemPhysList ≠ 0 → ∀ i < 4, hmemFrame s.hmemPhysList + i ∉ X) :
    Related (fun r r' => r.1 = r'.1 ∧ Beside X fpd r.2 r'.2) s.hmemAllocPage t.hmemAllocPage := by
  obtain ⟨m, rfl⟩ : ∃ m, t = { s with mem := m } := ⟨_, h.globals⟩
  rw [Machine.hmemAllocPage, Machine.hmemAllocPage]
  dsimp only
  refine Related.ite Iff.rfl (fun _ => ?_) fun hne => ?_
  · generalize (s.hmemPhysEnd + (2 ^ 32 - 4096)) % 2 ^ 32 = v
    have hnew : Beside X fpd { s with hmemPhysEnd := v } { s with hmemPhysEnd := v, mem := m } :=
      ⟨h.withHmemPhysEnd v, h.dir⟩
    exact Related.ite Iff.rfl (fun _ => Related.pure ⟨rfl, hnew⟩) fun _ => Related.error _
  · refine (h.hmemMap hcr3 s.hmemPhysList).bind fun s₁ t₁ h₁ => ?_
    obtain ⟨m₁, rfl⟩ : ∃ m, t₁ = { s₁ with mem := m } := ⟨_, h₁.globals⟩
    have hword := h₁.load32 (hlist hne)
    dsimp only at hword
    dsimp only [hmemUnmap]
    rw [hword]
    generalize s₁.mem.load32 (hmemFrame s.hmemPhysList) = next
    generalize (s₁.hmemEnd + 4096) % 2 ^ 32 = hmemEnd
    have hnext : Beside X fpd { s₁ with hmemPhysList := next, hmemEnd }
        { s₁ with mem := m₁, hmemPhysList := next, hmemEnd } :=
      ⟨(h₁.withHmemPhysList next).withHmemEnd hmemEnd, h₁.dir⟩
    exact Related.pure ⟨rfl, hnext⟩

end Hmem

end Machine

end TinyLittleOs.Memory
