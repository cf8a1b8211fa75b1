import TinyLittleOs.Memory.InitAlloc
import Mathlib.Logic.Relation

/-!
# Runs of kmem

A client of kmem holds the blocks it allocated and not freed yet. A run starts after
`init_page_allocator` and frees only what is held. Every state of a run keeps the invariant
as long as no buddy is unlinked through a stale back pointer, which `kmem_buddy_new_no_alloc`
leaves in the old first buddy of a list.
-/

namespace TinyLittleOs.Memory

open Lib Relation

/-- The machine and the blocks that are allocated, as size and pointer. -/
structure Client where
  machine : Machine
  held : List (BlockSize × Nat)

namespace Client

inductive Call where
  | alloc (n : BlockSize)
  | free (n : BlockSize) (ptr : Nat)

/-- One call that returns. A free passes a pointer that an allocation of the same size
returned and that was not freed since. -/
inductive Step : Client → Call → Client → Prop
  | alloc {s s' : Machine} {n : BlockSize} {p : Nat} {held : List (BlockSize × Nat)} :
      s.kmemAlloc n = .ok (p, s') → Step ⟨s, held⟩ (.alloc n) ⟨s', (n, p) :: held⟩
  | free {s s' : Machine} {n : BlockSize} {p : Nat} {u v : List (BlockSize × Nat)} :
      s.kmemFree n p = .ok s' → Step ⟨s, u ++ (n, p) :: v⟩ (.free n p) ⟨s', u ++ v⟩

/-- Runs from the state `s` that `init_page_allocator` leaves, all of whose calls meet `P`. -/
def Reachable (s : Machine) (P : Machine → Call → Prop) (c : Client) : Prop :=
  ReflTransGen (fun c c' => ∃ a, Step c a c' ∧ P c.machine a) ⟨s, []⟩ c

/-- The bytes of two blocks are disjoint. -/
def Disjoint (x y : BlockSize × Nat) : Prop := x.2 + x.1.bytes ≤ y.2 ∨ y.2 + y.1.bytes ≤ x.2

/-! ## The invariant of a run -/

/-- The client's blocks `U` and the page tables `K` make up the account. -/
structure Good (c : Client) (U K : List Block) : Prop where
  inv : c.machine.Inv (U ++ K)
  held : c.held = U.map fun x => (x.size, c.machine.kmem.blockAddr x.size x.buddy x.index)
  tables : ∀ x ∈ K, x.size = .k4

/-- The block that the call takes leaves no list through a back pointer to another buddy than
the one before it: of every size that it empties, `prev_kM->next_kM` is the buddy itself. -/
def Settled (s : Machine) : Call → Prop
  | .alloc n => ∀ b i, (s.kmem.links n).next none = some b → s.kmem.bit n b i = true →
      (∀ j < i, s.kmem.bit n b j = false) →
      ∀ m, s.kmem.Empties n b i m → (s.kmem.links m).Settled b
  | .free _ _ => True

/-- What an allocation returns and leaves, with or without a new buddy. -/
theorem alloc_allocated {s s' : Machine} {L : List Block} (h : s.Inv L) {n : BlockSize} {p : Nat}
    (hset : Settled s (.alloc n)) (hs : s.kmemAlloc n = .ok (p, s')) :
    ∃ x T, s.Allocated L n p s' x T := by
  cases hb : (s.kmem.links n).next none with
  | none =>
    obtain ⟨x, T, hal, -⟩ := (h.kmemAlloc_of_null hb).of_ok hs
    exact ⟨x, T, hal⟩
  | some b =>
    obtain ⟨i, hpos, hi, hs', hal⟩ := h.kmemAlloc_of_head hb
    obtain ⟨rfl, rfl⟩ := Prod.mk.inj (Except.ok.inj (hs'.symm.trans hs))
    obtain ⟨hbit, hfirst⟩ := Kmem.findFree_eq_ok hi
    exact ⟨_, [], hal (hset b i hb hbit hfirst)⟩

/-- The addresses of blocks depend on where the first buddy starts only. -/
theorem blockAddr_congr {k k' : Kmem} (h : k'.base = k.base) (n : BlockSize) (b i : Nat) :
    k'.blockAddr n b i = k.blockAddr n b i := by
  unfold Kmem.base at h
  simp only [Kmem.blockAddr, Kmem.myFirstPage, h]

theorem Good.step {c c' : Client} {U K : List Block} {a : Call} (h : Good c U K)
    (hs : Step c a c') (hset : Settled c.machine a) : ∃ U' K', Good c' U' K' := by
  obtain ⟨hinv, hheld, hsize⟩ := h
  cases hs with
  | @alloc s s' n p held hs =>
    obtain ⟨x, T, hal⟩ := alloc_allocated hinv hset hs
    refine ⟨x :: U, T ++ K, hal.inv.perm ?_, ?_, ?_⟩
    · exact (List.perm_append_comm_assoc T U K).cons x
    · dsimp only at hheld ⊢
      rw [hheld, List.map_cons, hal.size, hal.addr]
      simp only [blockAddr_congr hal.base]
    · intro y hy
      rcases List.mem_append.1 hy with hy | hy
      exacts [hal.tables.2 y hy, hsize y hy]
  | @free s s' n p u v hs =>
    dsimp only at hheld hinv
    obtain ⟨U₁, V, rfl, rfl, hV⟩ := List.map_eq_append_iff.1 hheld.symm
    obtain ⟨x, U₂, rfl, hx, rfl⟩ := List.map_eq_cons_iff.1 hV
    obtain ⟨rfl, rfl⟩ := Prod.mk.inj hx
    have hval := hinv.acc.valid x (by simp)
    rw [hinv.toLayout.kmemFree_blockAddr hval.1 hval.2] at hs
    obtain rfl := Except.ok.inj hs
    have hfree := s.kmem.free_sets x.buddy hval.2
    refine ⟨U₁ ++ U₂, K, ?_, ?_, hsize⟩
    · rw [List.append_assoc] at hinv ⊢
      exact hinv.kmemFree
    · dsimp only
      simp only [List.map_append, blockAddr_congr hfree.base]

theorem Good.reachable {s : Machine} {K : List Block} (h : s.Inv K) (hsize : ∀ x ∈ K, x.size = .k4)
    {c : Client} (hc : Reachable s Settled c) : ∃ U K, Good c U K := by
  induction hc with
  | refl => exact ⟨[], K, h, rfl, hsize⟩
  | tail _ hstep ih =>
    obtain ⟨a, hs, hset⟩ := hstep
    obtain ⟨U, K, hg⟩ := ih
    exact hg.step hs hset

/-! ## What the client sees -/

/-- The blocks are aligned, each inside one created buddy, and apart from each other and from
the pages `T` that the allocator took for page tables; every other page is free. No search
finds an empty bitmap. -/
structure Sound (c : Client) : Prop where
  aligned : ∀ x ∈ c.held, x.1.bytes ∣ x.2
  inside : ∀ x ∈ c.held, ∃ b < c.machine.kmem.buddyArrayPos,
    c.machine.kmem.myFirstPage b ≤ x.2 ∧ x.2 + x.1.bytes ≤ c.machine.kmem.myFirstPage b + 2 ^ 19
  apart : ∃ T : List Nat, (c.held ++ T.map fun p => (BlockSize.k4, p)).Pairwise Disjoint ∧
    ∀ b < c.machine.kmem.buddyArrayPos, ∀ i < 128, c.machine.kmem.bit .k4 b i = true ∨
      ∃ x ∈ c.held ++ T.map fun p => (BlockSize.k4, p),
        x.2 ≤ c.machine.kmem.blockAddr .k4 b i ∧
        c.machine.kmem.blockAddr .k4 b i < x.2 + x.1.bytes
  searches : ∀ n m, c.machine.kmemAlloc n ≠ .error (.emptyBitmap m)

theorem Good.sound {c : Client} {U K : List Block} (h : Good c U K) : Sound c := by
  obtain ⟨hinv, hheld, hsize⟩ := h
  have hl := hinv.toLayout
  have hvalid := hinv.acc.valid
  -- the blocks of the account as the client sees them
  let see (x : Block) : BlockSize × Nat := (x.size, c.machine.kmem.blockAddr x.size x.buddy x.index)
  have hall : c.held ++ (K.map fun x => (see x).2).map (fun p => (BlockSize.k4, p)) =
      (U ++ K).map see := by
    rw [hheld, List.map_append, List.map_map]
    congr 1
    exact List.map_congr_left fun x hx => by simp [see, hsize x hx]
  have hmem : ∀ x ∈ c.held, ∃ y ∈ U, see y = x := fun x hx => List.mem_map.1 (hheld ▸ hx)
  refine ⟨fun x hx => ?_, fun x hx => ?_, ⟨K.map fun x => (see x).2, ?_, fun b hb i hi => ?_⟩,
    fun n m hm => ?_⟩
  · obtain ⟨y, hy, rfl⟩ := hmem x hx
    obtain ⟨hb, hi⟩ := hvalid y (List.mem_append_left K hy)
    exact Nat.dvd_of_mod_eq_zero (hl.blockAddr_bounds hb hi).2.2
  · obtain ⟨y, hy, rfl⟩ := hmem x hx
    obtain ⟨hb, hi⟩ := hvalid y (List.mem_append_left K hy)
    have hhi := (hl.blockAddr_bounds hb hi).2.1
    have haddr := hl.toPlaced.blockAddr hb hi
    refine ⟨y.buddy, hb, ?_⟩
    dsimp only [see]
    rw [hl.toPlaced.myFirstPage hb]
    omega
  · rw [hall, List.pairwise_map]
    exact hinv.acc.apart.imp_of_mem fun hx hy ha =>
      hl.blockAddr_apart (hvalid _ hx) (hvalid _ hy) ha
  · rw [or_iff_not_imp_left, hinv.acc.free b hb i hi, hall]
    intro hcov
    push Not at hcov
    obtain ⟨x, hx, rfl, hxi⟩ := hcov
    refine ⟨see x, List.mem_map_of_mem hx, ?_⟩
    dsimp only [see]
    rw [hl.toPlaced.blockAddr hb (n := .k4) hi, hl.toPlaced.blockAddr hb (hvalid x hx).2, ← hxi]
    cases hn : x.size <;>
      simp only [BlockSize.bytes, BlockSize.shift, BlockSize.order, Nat.shiftRight_eq_div_pow] <;>
      omega
  · cases hb : (c.machine.kmem.links n).next none with
    | none =>
      rcases (hinv.kmemAlloc_of_null hb).of_error hm with he | he <;> simp at he
    | some b =>
      obtain ⟨i, -, -, hs', -⟩ := hinv.kmemAlloc_of_head hb
      simp [hs'] at hm

/-! ## Runs of a small machine -/

/-- `kmem_alloc_N` as kmem's structures see it, on a machine with one page table for all of
kmem: growth takes no page. -/
def traceAlloc (n : BlockSize) (k : Kmem) : Option (Nat × Kmem) :=
  match (k.links n).next none with
  | some b =>
    match k.findFree n b with
    | .ok i => if b < k.buddyArrayPos then some (k.blockAddr n b i, k.allocAt n b i) else none
    | .error _ => none
  | none =>
    if k.buddyArrayPos = 1 then
      some (k.buddyNewNoAlloc.blockAddr n 1 0, k.buddyNewNoAlloc.allocAt n 1 0)
    else
      none

/-- `kmem_free_N` as kmem's structures see it. -/
def traceFree (n : BlockSize) (ptr : Nat) (k : Kmem) : Option Kmem :=
  let buddyRelPos := (ptr + (2 ^ 32 - k.buddyArray) + (2 ^ 32 - k.buddyArraySize)) % 2 ^ 32
  if buddyRelPos &&& (n.bytes - 1) ≠ 0 then
    none
  else
    some (k.free n (buddyRelPos >>> 19) ((buddyRelPos &&& 0x7FFFF) >>> n.shift))

def traceCall (c : Kmem × List (BlockSize × Nat)) : Call → Option (Kmem × List (BlockSize × Nat))
  | .alloc n => (traceAlloc n c.1).map fun r => (r.2, (n, r.1) :: c.2)
  | .free n p =>
    if (n, p) ∈ c.2 then (traceFree n p c.1).map fun k => (k, c.2.erase (n, p)) else none

/-- A run all of whose calls meet `Q`. -/
def trace (Q : Kmem → Call → Bool) :
    List Call → Kmem × List (BlockSize × Nat) → Option (Kmem × List (BlockSize × Nat))
  | [], c => some c
  | a :: l, c => if Q c.1 a then (traceCall c a).bind (trace Q l) else none

/-- A small machine before initialization, with `ram` bytes of memory above the first MiB. -/
def bootWith (ram : Nat) : Machine where
  kernelEnd := 0xC0120000
  firstPageDirectory := 0xC0110000
  ramAmount := ram
  kmem :=
    { buddyArray := 0
      buddyArraySize := 0
      buddyArrayPos := 0
      bits := fun n _ => .ones n.width n.words
      links := fun _ => ⟨fun _ => none, fun _ => none⟩ }
  kmemPhysEnd := 0
  kmemRegionEnd := 0
  hmemPhysEnd := 0
  hmemPhysList := 0
  mem := fun _ => 0
  cr3 := 0
  hmemEnd := 0

/-- A small machine with 1 MiB and 64 KiB of memory above the first. -/
def smallBoot : Machine := bootWith 0x110000

theorem smallBoot_booted : smallBoot.Booted := by
  constructor <;> decide

/-- kmem of the small machine after initialization: one page is a page table. -/
def smallKmem : Kmem := smallBoot.initKmem.buddyNewNoAlloc.allocAt .k4 0 0

/-- `s` is the small machine with the structures `k`, all of kmem mapped by one table. -/
structure Traces (ram hmem : Nat) (s : Machine) (k : Kmem) : Prop where
  kmem : s.kmem = k
  layout : s.Layout
  table : s.HasTable 768
  base : k.base = 0xC0128000
  size : k.buddyArraySize = 0x8000
  physEnd : s.kmemPhysEnd = 0x128000 + k.buddyArrayPos * 2 ^ 19
  region : s.kmemRegionEnd = 0x128000 + ram
  hmemPhysEnd : s.hmemPhysEnd = hmem
  dir : s.firstPageDirectory = 0xC0110000

/-- The amounts of memory of the runs. -/
def SmallRam (ram : Nat) : Prop := ram = 0x110000 ∨ ram = 0x200000

theorem bootWith_globals {ram : Nat} (hram : SmallRam ram) :
    ∃ s, (bootWith ram).initGlobals = .ok s ∧
    s.kmem = smallBoot.initKmem.buddyNewNoAlloc ∧ s.kmemPhysEnd = 0x1A8000 ∧
    s.kmemRegionEnd = 0x128000 + ram ∧ s.hmemPhysEnd = 0x100000 + ram ∧ s.hmemPhysList = 0 ∧
    s.firstPageDirectory = 0xC0110000 ∧ s.mem = fun _ => 0 := by
  have hbme : (bootWith ram).buddyMemoryEndPhys = 0x128000 := by
    rcases hram with rfl | rfl <;> decide +kernel
  have hkmem : (bootWith ram).initKmem = smallBoot.initKmem := by
    have hsize : (bootWith ram).initBuddyArraySize = smallBoot.initBuddyArraySize := by
      rcases hram with rfl | rfl <;> decide +kernel
    rw [Machine.initKmem, hsize]
    rfl
  have hregion : (0x128000 + (bootWith ram).totalPageCount <<< 12) % 2 ^ 32 = 0x128000 + ram := by
    rcases hram with rfl | rfl <;> decide +kernel
  have hsize : 0 < smallBoot.initBuddyArraySize := by decide +kernel
  have hfit : ({ bootWith ram with kmem := smallBoot.initKmem } : Machine).kmem.buddyArrayPos * 64 %
      2 ^ 32 < ({ bootWith ram with kmem := smallBoot.initKmem } : Machine).kmem.buddyArraySize :=
        by
    simpa [Machine.initKmem] using hsize
  rw [Machine.initGlobals, hkmem, Machine.kmemBuddyNewNoAlloc, if_pos hfit]
  refine ⟨_, rfl, rfl, ?_, ?_, ?_, rfl, rfl, rfl⟩ <;> dsimp only
  · rw [hbme]
    rfl
  · rw [hbme, hregion]
    exact if_neg (by rcases hram with rfl | rfl <;> decide)
  · rcases hram with rfl | rfl <;> decide +kernel

/-- Mapping pages that share an absent table takes one page, for the table. -/
theorem mapTable {s : Machine} (hl : s.Layout) {b i d : Nat} (ht : ¬ s.HasTable d) (hd : d < 1024)
    (hhead : (s.kmem.links .k4).next none = some b) (hfind : s.kmem.findFree .k4 b = .ok i)
    (hb : b < s.kmem.buddyArrayPos) {a : Nat} {l : List Nat} (pte : Nat → Nat)
    (h : ∀ x ∈ a :: l, x % 4096 = 0 ∧ x < 2 ^ 32 ∧ x >>> 22 = d ∧ pte x % 2 = 1) :
    ∃ s', (a :: l).foldlM (fun s a => s.mapPage Machine.kmemAlloc4k a prwr (pte a)
      s.firstPageDirectory) s = .ok s' ∧ s'.kmem = s.kmem.allocAt .k4 b i ∧ s.Keeps s' ∧
      s'.HasTable d ∧ s'.Layout := by
  have hlt := Kmem.bit_lt (Kmem.findFree_eq_ok hfind).1
  have hk₁ := hl.take_keeps hb hlt
  have hl₁ := hl.take (b := b) hlt
  have ht₁ := (hl.take_hasTable hb hlt hd).not.2 ht
  have hbase : (s.take .k4 b i).kmem.base = s.kmem.base := by
    rw [Machine.take_kmem, (s.kmem.allocAt_clears b hlt).base]
  obtain ⟨hlo, hhi, halign⟩ := hl.blockAddr_bounds hb hlt
  have htop := hl.top
  have hbytes : BlockSize.bytes .k4 = 4096 := rfl
  obtain ⟨ha, halt, rfl, hpte⟩ := h a (by simp)
  obtain ⟨s₂, hs₂, hkmem₂, hk₂, ht₂⟩ := Machine.mapPage_of_not_hasTable prwr ha hpte
    halt ht (Machine.kmemAllocFuel_of_head 1 hhead hfind) hk₁ hl₁ ht₁ (hbase ▸ hlo) (by omega)
    halign rfl
  have hl₂ : s₂.Layout :=
    hl₁.congr (hkmem₂ ▸ hl₁.toPlaced) (hkmem₂ ▸ rfl) (hk₂.dir.trans hk₁.dir.symm)
  obtain ⟨s₃, hs₃, hkmem₃, hk₃⟩ := Machine.mapRange_of_hasTable Machine.kmemAlloc4k
    hl₂ l prwr pte fun x hx => by
      obtain ⟨hx₁, hx₂, hx₃, hx₄⟩ := h x (List.mem_cons_of_mem a hx)
      exact ⟨hx₁, hx₂, hx₃ ▸ ht₂, hx₄⟩
  refine ⟨s₃, ?_, ?_, hk₂.trans hk₃, hk₃.tables _ hd ht₂,
    hl₂.congr (hkmem₃ ▸ hl₂.toPlaced) (hkmem₃ ▸ rfl) hk₃.dir⟩
  · rw [List.foldlM_cons]
    refine Eq.trans (congrArg (· >>= _) hs₂) ?_
    exact hs₃
  · rw [hkmem₃, hkmem₂, Machine.take_kmem]

theorem bootWith_init {ram : Nat} (hram : SmallRam ram) :
    ∃ s, (bootWith ram).initPageAllocator = .ok s ∧
    Traces ram (0x100000 + ram) s smallKmem ∧ s.hmemPhysList = 0 := by
  obtain ⟨s₁, hs₁, hkmem, hend, hregion, hhmem, hlist, hdir, hmem⟩ := bootWith_globals hram
  have hbase : smallBoot.initKmem.buddyNewNoAlloc.base = 0xC0128000 := by decide +kernel
  have hsize : smallBoot.initKmem.buddyNewNoAlloc.buddyArraySize = 0x8000 := by decide +kernel
  have hl₂ : (s₁.memset s₁.firstPageDirectory 0 4096).Layout := by
    refine ⟨⟨?_, ?_⟩, ?_, ?_, ?_⟩ <;>
      simp only [Machine.memset_kmem, Machine.memset_dir, hkmem, hdir, hbase] <;> decide
  have ht₂ : ¬ (s₁.memset s₁.firstPageDirectory 0 4096).HasTable 768 := by
    rw [hl₂.hasTable_iff (by decide), Machine.memset_mem, hmem]
    simp [ByteMem.fill]
  have hglob₂ : s₁.memset s₁.firstPageDirectory 0 4096 =
      { s₁ with mem := (s₁.memset s₁.firstPageDirectory 0 4096).mem } := by rw [Machine.memset]
  have hkmem₂ : (s₁.memset s₁.firstPageDirectory 0 4096).kmem = _ :=
    (s₁.memset_kmem _ _ _).trans hkmem
  have hvirt : toVirt s₁.kmemPhysEnd = 0xC01A8000 := by
    rw [hend]
    unfold toVirt
    rfl
  rw [Machine.initPageAllocator, hs₁, ok_bind]
  dsimp only
  rw [hvirt]
  generalize s₁.memset s₁.firstPageDirectory 0 4096 = s₂ at *
  have hpages : addrs 0xC0000000 0xC01A8000 4096 =
      0xC0000000 :: addrs 0xC0001000 0xC01A8000 4096 := by
    decide +kernel
  obtain ⟨s₃, hs₃, hkmem₃, hk₃, ht₃, hl₃⟩ := mapTable (b := 0) (i := 0) (a := 0xC0000000)
    (l := addrs 0xC0001000 0xC01A8000 4096) hl₂ ht₂ (by decide)
    (by rw [hkmem₂]; rfl) (by rw [hkmem₂]; exact smallBoot.initKmem.findFree_buddyNewNoAlloc .k4)
    (by rw [hkmem₂]; exact Nat.one_pos) (fun a => fromKmem a ||| prwr) (fun x hx => by
      rw [← hpages, addrs] at hx
      obtain ⟨k, hk, rfl⟩ := List.mem_range'.1 hx
      refine ⟨by omega, by omega, ?_, Nat.or_mod_two_eq_one.2 (.inr rfl)⟩
      rw [Nat.shiftRight_eq_div_pow]
      omega)
  rw [hpages, hs₃, ok_bind]
  have hglob := hk₃.globals
  have hregion₃ : s₃.kmemRegionEnd = 0x128000 + ram := by rw [hglob, hglob₂, hregion]
  rw [hregion₃]
  have hnone : addrs ((((0xC01A8000 + ((1 <<< 22) - 1)) % 2 ^ 32) >>> 22) <<< 22)
      (toVirt (0x128000 + ram)) (1 <<< 22) = [] := by
    unfold toVirt
    rcases hram with rfl | rfl <;> decide +kernel
  rw [hnone]
  refine ⟨_, rfl, ⟨?_, ?_, ht₃, ?_, ?_, ?_, rfl, ?_, ?_⟩, ?_⟩
  · dsimp only
    rw [hkmem₃, hkmem₂]
    rfl
  · exact hl₃.congr hl₃.toPlaced rfl rfl
  · decide +kernel
  · decide +kernel
  · dsimp only
    rw [hglob, hglob₂]
    exact hend
  · dsimp only
    rw [hglob, hglob₂]
    exact hhmem
  · dsimp only
    rw [hglob, hglob₂]
    exact hdir
  · dsimp only
    rw [hglob, hglob₂]
    exact hlist

theorem smallBoot_init : ∃ s, smallBoot.initPageAllocator = .ok s ∧
    Traces 0x110000 0x210000 s smallKmem := by
  obtain ⟨s, hs, ht, -⟩ := bootWith_init (.inl rfl)
  exact ⟨s, hs, ht⟩

section Traces

variable {ram hmem : Nat} {s : Machine} {k k' : Kmem} (h : Traces ram hmem s k)
include h

/-- Changing the structures of kmem as an operation on buddy `b` does. -/
theorem Traces.sameBut {s' : Machine} {b : Nat} (hk : k.SameBut b k')
    (hs : s' = { s with kmem := k', mem := s'.mem }) (ht : s'.HasTable 768) :
    Traces ram hmem s' k' := by
  have hbase : k'.base = 0xC0128000 := hk.base.trans h.base
  have hkmem : s'.kmem = k' := by rw [hs]
  have hdir : s'.firstPageDirectory = s.firstPageDirectory := by rw [hs]
  refine ⟨hkmem, h.layout.congr ?_ ?_ hdir, ht, hbase, hk.size.trans h.size, ?_, ?_, ?_,
    hdir.trans h.dir⟩
  · rw [hkmem]
    exact hk.placed (h.kmem ▸ h.layout.toPlaced)
  · rw [hkmem, h.kmem, hbase, h.base]
  · rw [hs, hk.pos]
    exact h.physEnd
  · rw [hs]
    exact h.region
  · rw [hs]
    exact h.hmemPhysEnd

/-- Memory and registers may change. -/
theorem Traces.congr {s' : Machine} (hk : s'.kmem = s.kmem)
    (hdir : s'.firstPageDirectory = s.firstPageDirectory)
    (hend : s'.kmemPhysEnd = s.kmemPhysEnd) (hregion : s'.kmemRegionEnd = s.kmemRegionEnd)
    (hhmem : s'.hmemPhysEnd = s.hmemPhysEnd) (ht : s'.HasTable 768) : Traces ram hmem s' k := by
  refine ⟨hk.trans h.kmem, h.layout.congr ?_ ?_ hdir, ht, h.base, h.size, hend.trans h.physEnd,
    hregion.trans h.region, hhmem.trans h.hmemPhysEnd, hdir.trans h.dir⟩
  · rw [hk]
    exact h.layout.toPlaced
  · rw [hk]

/-- Taking a block. -/
theorem Traces.take {n : BlockSize} {b i : Nat} (hb : b < k.buddyArrayPos) (hi : i < n.count) :
    Traces ram hmem (s.take n b i) (k.allocAt n b i) := by
  obtain rfl := h.kmem
  refine h.sameBut (s.kmem.allocAt_clears b hi).toSameBut ?_
    ((h.layout.take_hasTable hb hi (by decide)).2 h.table)
  rw [Machine.take, Machine.memset]

/-- Growth from one buddy to two. -/
theorem Traces.grow (hram : 0x110000 ≤ ram) (hpos : k.buddyArrayPos = 1) :
    ∃ s', s.kmemBuddyNew (Machine.kmemAllocFuel 1 .k4) = .ok s' ∧
      Traces ram hmem s' k.buddyNewNoAlloc := by
  obtain rfl := h.kmem
  have hbase : s.kmem.buddyNewNoAlloc.base = 0xC0128000 := h.base
  have hend := h.physEnd
  have hsize := h.size
  have hregion := h.region
  have hbase₀ := h.base
  have hl : s.withNewBuddy.Layout := by
    refine h.layout.congr ⟨?_, ?_⟩ rfl rfl <;> dsimp only [Machine.withNewBuddy]
    · rw [hbase]
      decide
    · rw [hbase, s.kmem.buddyNewNoAlloc_pos]
      omega
  obtain ⟨s₁, hs₁, hkmem₁, hk₁⟩ := Machine.mapRange_of_hasTable
    (Machine.kmemAllocFuel 1 .k4) hl
    (addrs (s.kmemPhysEnd + 0xC0000000) (s.kmemPhysEnd + 0xC0000000 + 1 <<< 19) 4096) prwr
    (fun a => prwr ||| fromKmem a) fun a ha => by
      obtain ⟨i, hi, rfl⟩ := Machine.mem_addrs_buddy ha
      have hd : (s.kmemPhysEnd + 0xC0000000 + 4096 * i) >>> 22 = 768 := by
        rw [Nat.shiftRight_eq_div_pow]
        omega
      refine ⟨by omega, by omega, ?_, Nat.or_mod_two_eq_one.2 (.inl rfl)⟩
      rw [hd]
      exact h.table
  have hglob := hk₁.globals
  have hnew := Machine.kmemBuddyNew_eq hl (by omega) (by omega) hs₁ hk₁
  rw [if_pos (by omega), if_pos (by omega)] at hnew
  refine ⟨_, hnew, hkmem₁, ?_, hk₁.tables 768 (by decide) h.table, hbase, h.size, ?_, ?_, ?_,
    hk₁.dir.trans h.dir⟩
  · exact hl.congr (hkmem₁ ▸ hl.toPlaced) (by dsimp only; rw [hkmem₁]) hk₁.dir
  · dsimp only
    rw [s.kmem.buddyNewNoAlloc_pos]
    omega
  · dsimp only
    rw [hglob]
    exact hregion
  · dsimp only
    rw [hglob]
    exact h.hmemPhysEnd

theorem Traces.alloc (hram : 0x110000 ≤ ram) {n : BlockSize} {p : Nat}
    (ha : traceAlloc n k = some (p, k')) :
    ∃ s', s.kmemAlloc n = .ok (p, s') ∧ Traces ram hmem s' k' := by
  obtain rfl := h.kmem
  unfold traceAlloc at ha
  split at ha
  · rename_i b hb
    split at ha
    · rename_i i hi
      split_ifs at ha with hlt
      obtain ⟨rfl, rfl⟩ := Prod.mk.inj (Option.some.inj ha)
      exact ⟨_, Machine.kmemAllocFuel_of_head 1 hb hi,
        h.take hlt (Kmem.bit_lt (Kmem.findFree_eq_ok hi).1)⟩
    · simp at ha
  · rename_i hb
    split_ifs at ha with hpos
    obtain ⟨rfl, rfl⟩ := Prod.mk.inj (Option.some.inj ha)
    obtain ⟨s₁, hs₁, h₁⟩ := h.grow hram hpos
    have hhead : (s₁.kmem.links n).next none = some 1 := by
      rw [h₁.kmem, ← hpos]
      exact Machine.Inv.withNewBuddy_head n
    have hfind : s₁.kmem.findFree n 1 = .ok 0 := by
      rw [h₁.kmem, ← hpos]
      exact s.kmem.findFree_buddyNewNoAlloc n
    have htake := h₁.take (n := n) (b := 1) (i := 0) (by rw [Kmem.buddyNewNoAlloc_pos]; omega)
      (by cases n <;> decide)
    refine ⟨_, ?_, htake⟩
    rw [Machine.kmemAlloc, Machine.kmemAllocFuel, Machine.buddyAlloc_of_null hb, ok_bind]
    dsimp only
    rw [hs₁, ok_bind, Machine.buddyAlloc_of_head hhead hfind, h₁.kmem]
    rfl

theorem Traces.free {n : BlockSize} {p : Nat} (ha : traceFree n p k = some k') :
    ∃ s', s.kmemFree n p = .ok s' ∧ Traces ram hmem s' k' := by
  obtain rfl := h.kmem
  unfold traceFree at ha
  dsimp only at ha
  split_ifs at ha with hmask
  obtain rfl := Option.some.inj ha
  refine ⟨_, if_neg hmask, ?_⟩
  set rel :=
    (p + (2 ^ 32 - s.kmem.buddyArray) + (2 ^ 32 - s.kmem.buddyArraySize)) % 2 ^ 32 with hrel
  have hi : (rel &&& 0x7FFFF) >>> n.shift < n.count := by
    rw [Nat.and_two_pow_sub_one_eq_mod _ 19, Nat.shiftRight_eq_div_pow]
    cases n <;> simp only [BlockSize.shift, BlockSize.count] <;> omega
  exact h.sameBut (s.kmem.free_sets _ hi).toSameBut rfl h.table

/-- A trace is a run. -/
theorem Traces.run (hram : 0x110000 ≤ ram) {P : Machine → Call → Prop} {Q : Kmem → Call → Bool}
    (hQ : ∀ s k a, Traces ram hmem s k → Q k a = true → P s a) {s₀ : Machine} {l : List Call}
    {u v : List (BlockSize × Nat)} (hc : Reachable s₀ P ⟨s, u⟩)
    (ht : trace Q l (k, u) = some (k', v)) :
    ∃ s', Reachable s₀ P ⟨s', v⟩ ∧ Traces ram hmem s' k' := by
  induction l generalizing s k u with
  | nil =>
    obtain ⟨rfl, rfl⟩ := Prod.mk.inj (Option.some.inj ht)
    exact ⟨s, hc, h⟩
  | cons a l ih =>
    rw [trace, Option.ite_none_right_eq_some] at ht
    obtain ⟨hq, ht⟩ := ht
    obtain ⟨⟨k₁, u₁⟩, hcall, htail⟩ := Option.bind_eq_some_iff.1 ht
    cases a with
    | alloc n =>
      obtain ⟨⟨p, k₂⟩, ha, he⟩ := Option.map_eq_some_iff.1 hcall
      obtain ⟨rfl, rfl⟩ := Prod.mk.inj he
      obtain ⟨s₁, hs₁, h₁⟩ := h.alloc hram ha
      exact ih h₁ (hc.tail ⟨_, .alloc hs₁, hQ _ _ _ h hq⟩) htail
    | free n p =>
      dsimp only [traceCall] at hcall
      split_ifs at hcall with hmem
      obtain ⟨k₂, hf, he⟩ := Option.map_eq_some_iff.1 hcall
      obtain ⟨rfl, rfl⟩ := Prod.mk.inj he
      obtain ⟨s₁, hs₁, h₁⟩ := h.free hf
      obtain ⟨w, z, -, rfl, herase⟩ := List.exists_erase_eq hmem
      exact ih h₁ (hc.tail ⟨_, .free hs₁, hQ _ _ _ h hq⟩) (herase ▸ htail)

end Traces

/-- A state at the end of a trace of the small machine is reached from initialization. -/
theorem smallBoot_trace {P : Machine → Call → Prop} {Q : Kmem → Call → Bool}
    (hQ : ∀ s k a, Traces 0x110000 0x210000 s k → Q k a = true → P s a) {l : List Call}
    {R : Kmem → List (BlockSize × Nat) → Bool}
    (h : (trace Q l (smallKmem, [])).any (fun c => R c.1 c.2) = true) :
    ∃ s c, smallBoot.initPageAllocator = .ok s ∧ Reachable s P c ∧
      Traces 0x110000 0x210000 c.machine c.machine.kmem ∧ R c.machine.kmem c.held = true := by
  obtain ⟨s, hs, ht⟩ := smallBoot_init
  obtain ⟨⟨k, v⟩, htrace, hR⟩ := (Option.any_eq_true _ _).1 h
  obtain ⟨s', hrun, ht'⟩ := ht.run (by decide) hQ .refl htrace
  obtain rfl := ht'.kmem
  exact ⟨s, ⟨s', v⟩, hs, hrun, ht', hR⟩

theorem smallBoot_run {l : List Call} {P : Kmem → Bool}
    (h : (trace (fun _ _ => true) l (smallKmem, [])).any (fun c => P c.1) = true) :
    ∃ s c, smallBoot.initPageAllocator = .ok s ∧ Reachable s (fun _ _ => True) c ∧
      Traces 0x110000 0x210000 c.machine c.machine.kmem ∧ P c.machine.kmem = true :=
  smallBoot_trace (R := fun k _ => P k) (fun _ _ _ _ _ => trivial) h

/-! ## Sound runs -/

/-- Runs without a stale unlinking are sound, and so is initialization. -/
theorem kmem_sound {s₀ : Machine} (hb : s₀.Booted) :
    (∀ m, s₀.initPageAllocator ≠ .error (.emptyBitmap m)) ∧
      ∀ s, s₀.initPageAllocator = .ok s → ∀ c, Reachable s Settled c → Sound c := by
  have hinit := hb.initPageAllocator
  refine ⟨fun m hm => ?_, fun s hs c hc => ?_⟩
  · rcases hinit.of_error hm with he | he | he <;> simp at he
  · obtain ⟨K, hK⟩ := hinit.of_ok hs
    obtain ⟨U, K', hg⟩ := Good.reachable hK.inv hK.size hc
    exact hg.sound

/-- The buddy that the allocation takes from leaves no list through a stale back pointer. -/
def settledTrace (k : Kmem) : Call → Bool
  | .alloc n => (k.links n).next none |>.all fun b => [BlockSize.k4, .k8, .k16, .k32].all fun m =>
      decide (k.HasFree m b → ((k.links m).prev b).any fun c => (k.links m).next c = some b)
  | .free _ _ => true

theorem settled_of_trace {s : Machine} {k : Kmem} (hk : s.kmem = k) {a : Call}
    (h : settledTrace k a = true) : Settled s a := by
  cases a with
  | free n ptr => trivial
  | alloc n =>
    subst hk
    intro b i hb _ _ m hm
    dsimp only [settledTrace] at h
    rw [hb, Option.all_some, List.all_eq_true] at h
    have hprev := of_decide_eq_true (h m (by cases m <;> decide)) hm.1
    obtain ⟨c, hc, hnext⟩ := (Option.any_eq_true _ _).1 hprev
    exact ⟨c, hc, of_decide_eq_true hnext⟩

set_option maxRecDepth 10000 in
/-- Buddy 1 is created while the other lists hold buddy 0, blocks of all sizes are taken from both
and freed in another order. -/
theorem kmem_sound_small : ∃ s c, smallBoot.initPageAllocator = .ok s ∧ Reachable s Settled c ∧
    (c.machine.kmem.buddyArrayPos = 2 ∧ c.held.map Prod.fst =
      [.k8, .k16, .k32, .k4] ++ List.replicate 13 .k32 ++ [.k16]) ∧ Sound c := by
  obtain ⟨s, c, hs, hrun, -, hheld⟩ := smallBoot_trace (l := [.alloc .k8, .alloc .k16] ++
      List.replicate 15 (.alloc .k32) ++ [.alloc .k4, .alloc .k32, .free .k8 0xC012A000,
      .free .k32 0xC0130000, .free .k32 0xC0138000, .alloc .k16, .alloc .k8])
    (R := fun k held => k.buddyArrayPos = 2 ∧ held.map Prod.fst =
      [.k8, .k16, .k32, .k4] ++ List.replicate 13 .k32 ++ [.k16])
    (P := Settled) (Q := settledTrace) (fun _ _ _ ht => settled_of_trace ht.kmem)
      (by decide +kernel)
  have hsound := (kmem_sound smallBoot_booted).2 s hs c hrun
  exact ⟨s, c, hs, hrun, of_decide_eq_true hheld, hsound⟩

set_option maxRecDepth 10000 in
/-- Buddy 1 is created for 8 KiB while the list of 4 KiB holds buddy 0, which then leaves and
enters that list through its stale back pointer. In the end it is first in the list with an
empty bitmap. -/
theorem kmem_not_sound : ¬ ∀ s₀ s : Machine, s₀.Booted → s₀.initPageAllocator = .ok s →
    ∀ c, Reachable s (fun _ _ => True) c → Sound c := by
  intro h
  obtain ⟨s, c, hs, hrun, -, hP⟩ := smallBoot_run
    (l := [.alloc .k4, .alloc .k4, .alloc .k16] ++ List.replicate 15 (.alloc .k32) ++
      [.alloc .k8, .free .k4 0xC012A000, .alloc .k8] ++ List.replicate 15 (.alloc .k32) ++
      [.alloc .k16, .alloc .k8])
    (P := fun k => (k.links .k4).next none = some 0 ∧ (k.bits .k4 0).firstWord = none)
    (by decide +kernel)
  obtain ⟨hhead, hword⟩ := of_decide_eq_true hP
  refine (h _ _ smallBoot_booted hs _ hrun).searches .k4 .k4 ?_
  rw [Machine.kmemAlloc, Machine.kmemAllocFuel, Machine.buddyAlloc, hhead]
  dsimp only
  rw [Kmem.alloc, Kmem.findFree, hword]
  rfl

/-! ## Paired lists -/

/-- A buddy is only created when all four lists are empty. -/
def Lonely (s : Machine) : Call → Prop
  | .alloc n => (s.kmem.links n).next none = none → ∀ m, (s.kmem.links m).next none = none
  | .free _ _ => True

/-- Each list is exact, and holds every buddy with an aligned free block of its size; a buddy
is only created when there is none. -/
structure Listed (c : Client) : Prop where
  lists : ∀ n, ∃ l, c.machine.kmem.Paired n l ∧
    ∀ b < c.machine.kmem.buddyArrayPos, ∀ i < n.count,
      (∀ p, p >>> n.order = i → c.machine.kmem.bit .k4 b p = true) → b ∈ l
  creates : ∀ n p s', c.machine.kmemAlloc n = .ok (p, s') →
    c.machine.kmem.buddyArrayPos < s'.kmem.buddyArrayPos →
    ∀ b < c.machine.kmem.buddyArrayPos, ∀ i < n.count,
      ∃ p, p >>> n.order = i ∧ c.machine.kmem.bit .k4 b p = false

theorem Good.step_paired {c c' : Client} {U K : List Block} {a : Call} (h : Good c U K)
    (hp : c.machine.kmem.AllPaired) (hs : Step c a c') (hl : Lonely c.machine a) :
    (∃ U' K', Good c' U' K') ∧ c'.machine.kmem.AllPaired := by
  have hset : Settled c.machine a := by
    cases a with
    | alloc n =>
      intro b i hb _ _ m hm
      exact hp.settled (h.inv.acc.head hb).1 hm.1
    | free n ptr => trivial
  refine ⟨h.step hs hset, ?_⟩
  obtain ⟨hinv, hheld, -⟩ := h
  cases hs with
  | @alloc s s' n p held hs =>
    obtain ⟨x, T, -, hp'⟩ := (hinv.kmemAlloc_paired hp hl).of_ok hs
    exact hp'
  | @free s s' n p u v hs =>
    dsimp only at hheld hinv
    obtain ⟨U₁, V, rfl, rfl, hV⟩ := List.map_eq_append_iff.1 hheld.symm
    obtain ⟨x, U₂, rfl, hx, rfl⟩ := List.map_eq_cons_iff.1 hV
    obtain ⟨rfl, rfl⟩ := Prod.mk.inj hx
    have hval := hinv.acc.valid x (by simp)
    rw [hinv.toLayout.kmemFree_blockAddr hval.1 hval.2] at hs
    obtain rfl := Except.ok.inj hs
    exact hp.free hinv.acc hval.1 hval.2

theorem Good.listed {c : Client} {U K : List Block} (h : Good c U K)
    (hp : c.machine.kmem.AllPaired) : Listed c := by
  constructor
  · intro n
    obtain ⟨l, hl⟩ := hp n
    exact ⟨l, hl, fun b hb i _ hfree => (hl.mem b).2
      ⟨hb, i, ((h.inv.acc.coalesced b hb).bit_iff).2 hfree⟩⟩
  · intro n p s' hs hlt b hb i _
    by_contra hall
    push Not at hall
    have hbit := ((h.inv.acc.coalesced b hb).bit_iff (n := n) (i := i)).2 fun p hpi => by
      simpa using hall p hpi
    cases hhead : (c.machine.kmem.links n).next none with
    | none => exact h.inv.acc.not_hasFree hhead hb ⟨i, hbit⟩
    | some b' =>
      obtain ⟨j, hpos, hj, hs', -⟩ := h.inv.kmemAlloc_of_head hhead
      obtain ⟨rfl, rfl⟩ := Prod.mk.inj (Except.ok.inj (hs'.symm.trans hs))
      rw [Machine.take_kmem, (c.machine.kmem.allocAt_clears b'
        (Kmem.bit_lt (Kmem.findFree_eq_ok hj).1)).pos] at hlt
      exact Nat.lt_irrefl _ hlt

/-- Runs in which a buddy is only created with all lists empty keep the lists exact. -/
theorem kmem_listed {s₀ s : Machine} (hb : s₀.Booted) (hs : s₀.initPageAllocator = .ok s)
    {c : Client} (hc : Reachable s Lonely c) : Listed c := by
  obtain ⟨K, hK⟩ := hb.initPageAllocator.of_ok hs
  have hrun : (∃ U K, Good c U K) ∧ c.machine.kmem.AllPaired := by
    induction hc with
    | refl => exact ⟨⟨[], K, hK.inv, rfl, hK.size⟩, hK.paired⟩
    | tail _ hstep ih =>
      obtain ⟨a, hs, hl⟩ := hstep
      obtain ⟨⟨U, K, hg⟩, hp⟩ := ih
      exact hg.step_paired hp hs hl
  obtain ⟨⟨U, K, hg⟩, hp⟩ := hrun
  exact hg.listed hp

/-- A buddy is created with all lists empty only. -/
def lonelyTrace (k : Kmem) : Call → Bool
  | .alloc n => ((k.links n).next none).isSome ||
      [BlockSize.k4, .k8, .k16, .k32].all fun m => ((k.links m).next none).isNone
  | .free _ _ => true

theorem lonely_of_trace {s : Machine} {k : Kmem} (hk : s.kmem = k) {a : Call}
    (h : lonelyTrace k a = true) : Lonely s a := by
  cases a with
  | free n ptr => trivial
  | alloc n =>
    subst hk
    intro hnone m
    dsimp only [lonelyTrace] at h
    rw [hnone, Option.isSome_none, Bool.false_or, List.all_eq_true] at h
    exact Option.isNone_iff_eq_none.1 (h m (by cases m <;> decide))

set_option maxRecDepth 10000 in
/-- Buddy 0 leaves all lists and enters some again, leaves them, and buddy 1 is created. -/
theorem kmem_listed_small : ∃ s c, smallBoot.initPageAllocator = .ok s ∧ Reachable s Lonely c ∧
    (c.machine.kmem.buddyArrayPos = 2 ∧ (c.machine.kmem.links .k4).next none = some 0 ∧
      (c.machine.kmem.links .k4).next (some 0) = some 1) ∧ Listed c := by
  obtain ⟨s, c, hs, hrun, -, hlists⟩ :=
    smallBoot_trace (l := [.alloc .k4, .alloc .k8, .alloc .k16] ++
      List.replicate 15 (.alloc .k32) ++ [.free .k4 0xC0129000, .alloc .k4, .free .k16 0xC012C000,
      .alloc .k8, .alloc .k8, .alloc .k4, .free .k8 0xC012A000])
    (R := fun k _ => k.buddyArrayPos = 2 ∧ (k.links .k4).next none = some 0 ∧
      (k.links .k4).next (some 0) = some 1)
    (P := Lonely) (Q := lonelyTrace) (fun _ _ _ ht => lonely_of_trace ht.kmem) (by decide +kernel)
  exact ⟨s, c, hs, hrun, of_decide_eq_true hlists, kmem_listed smallBoot_booted hs hrun⟩

set_option maxRecDepth 10000 in
/-- When buddy 1 is created for 32 KiB, buddy 0 still has free pages. -/
theorem kmem_not_listed : ¬ ∀ s₀ s : Machine, s₀.Booted → s₀.initPageAllocator = .ok s →
    ∀ c, Reachable s (fun _ _ => True) c → Listed c := by
  intro h
  obtain ⟨s, c, hs, hrun, -, hP⟩ := smallBoot_run (l := List.replicate 16 (.alloc .k32))
    (P := fun k => ((k.links .k4).next none = some 1 ∧ (k.links .k4).next (some 1) = some 0 ∧
      (k.links .k4).next (some 0) = none) ∧ (k.links .k4).prev 0 = some none)
    (by decide +kernel)
  obtain ⟨hnext, hprev⟩ := of_decide_eq_true hP
  have hseg : (c.machine.kmem.links .k4).Seg none [1, 0] none := hnext
  obtain ⟨l, hl, -⟩ := (h _ _ smallBoot_booted hs _ hrun).lists .k4
  obtain rfl := hl.list.seg.unique hseg
  obtain ⟨-, hback, -⟩ := hl.backs
  rw [hprev] at hback
  simp at hback

end Client

end TinyLittleOs.Memory
