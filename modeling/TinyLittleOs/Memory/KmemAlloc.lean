import TinyLittleOs.Memory.MapPage

/-!
# Allocation and growth

What `kmem_alloc_N` does to the structures: with a buddy at the head of the list it takes
the lowest block there; with none it creates a buddy, maps its 128 pages and takes a block of
the new one. Mapping can need at most two page tables, and their pages come from the new
buddy, which is first in every list and far from empty.
-/

namespace TinyLittleOs.Memory

open Lib

namespace Kmem

section Fresh

variable {s : Kmem} {b : Nat} (hc : s.Coalesced b)
  (hlow : ∀ p, 2 ≤ p → p < 128 → s.bit .k4 b p = true) {n : BlockSize}
include hc hlow

/-- In a buddy that is free from page 2 on, every block from index 2 on is free. -/
theorem bit_of_low {j : Nat} (hj : 2 ≤ j) (hj' : j < n.count) : s.bit n b j = true := by
  rw [hc.bit_iff]
  rintro p rfl
  refine hlow p ?_ (BlockSize.lt_count_iff.1 hj')
  exact hj.trans (Nat.shiftRight_le p n.order)

theorem findFree_of_low {i : Nat} (hi : s.findFree n b = .ok i) : i ≤ 2 := by
  by_contra hlt
  have h2 : s.bit n b 2 = true := bit_of_low hc hlow (Nat.le_refl 2) (by cases n <;> decide)
  have := (findFree_eq_ok hi).2 2 (by omega)
  simp [h2] at this

/-- Taking the first free block from such a buddy empties no bitmap. -/
theorem not_empties_of_low {i : Nat} (hi : s.findFree n b = .ok i) (m : BlockSize) :
    ¬ s.Empties n b i m := by
  intro he
  have hlast : s.bit m b (127 >>> m.order) = true :=
    bit_of_low hc hlow (by cases m <;> decide) (BlockSize.lt_count_iff.2 (by decide))
  obtain ⟨p, hpn, hpm⟩ := BlockSize.meets_iff.1 (he.2 _ hlast)
  have hle := findFree_of_low hc hlow hi
  simp only [Nat.shiftRight_eq_div_pow] at hpn hpm
  cases n <;> cases m <;> simp only [BlockSize.order] at hpn hpm <;> omega

end Fresh

/-- If no bitmap is emptied the lists do not change. -/
theorem Accounts.allocAt_links {s : Kmem} {L : List Block} (h : s.Accounts L) {n : BlockSize}
    {b i : Nat} (hb : b < s.buddyArrayPos) (hi : i < n.count)
    (he : ∀ m, ¬ s.Empties n b i m) : (s.allocAt n b i).links = s.links := by
  funext m
  rw [(s.allocAt_clears b hi).links (h.cleared hb) m, if_neg]
  exact fun hs => he m ((empties_iff (h.coalesced b hb) hi m).2 hs)

end Kmem

namespace Machine

/-- Block `i` of size `n` is taken from buddy `b` and filled. -/
def take (s : Machine) (n : BlockSize) (b i : Nat) : Machine :=
  { s with kmem := s.kmem.allocAt n b i }.memset (s.kmem.blockAddr n b i) 0x41 n.bytes

theorem take_kmem (s : Machine) (n : BlockSize) (b i : Nat) :
    (s.take n b i).kmem = s.kmem.allocAt n b i := by
  rw [take, memset_kmem]

theorem buddyAlloc_of_head {s : Machine} {n : BlockSize} {b i : Nat}
    (hb : (s.kmem.links n).next none = some b) (hi : s.kmem.findFree n b = .ok i) :
    s.buddyAlloc n = .ok (some (s.kmem.blockAddr n b i), s.take n b i) := by
  have ha : s.kmem.alloc n b = .ok (s.kmem.blockAddr n b i, s.kmem.allocAt n b i) := by
    rw [Kmem.alloc, hi]
    rfl
  rw [buddyAlloc, hb]
  dsimp only
  rw [ha]
  rfl

theorem buddyAlloc_of_null {s : Machine} {n : BlockSize} (hb : (s.kmem.links n).next none = none) :
    s.buddyAlloc n = .ok (none, s) := by
  rw [buddyAlloc, hb]
  rfl

/-- With a buddy in the list no fuel is needed. -/
theorem kmemAllocFuel_of_head {s : Machine} {n : BlockSize} {b i : Nat} (fuel : Nat)
    (hb : (s.kmem.links n).next none = some b) (hi : s.kmem.findFree n b = .ok i) :
    kmemAllocFuel (fuel + 1) n s = .ok (s.kmem.blockAddr n b i, s.take n b i) := by
  rw [kmemAllocFuel, buddyAlloc_of_head hb hi]
  rfl

section Take

variable {s : Machine} (h : s.Layout) {n : BlockSize} {b i : Nat} (hb : b < s.kmem.buddyArrayPos)
  (hi : i < n.count)
include h hb hi

theorem Layout.blockAddr_bounds : s.kmem.base ≤ s.kmem.blockAddr n b i ∧
    s.kmem.blockAddr n b i + n.bytes ≤ s.kmem.base + (b + 1) * 2 ^ 19 ∧
    s.kmem.blockAddr n b i % n.bytes = 0 := by
  have halign := h.aligned
  rw [h.toPlaced.blockAddr hb hi]
  cases n <;> simp only [BlockSize.count, BlockSize.bytes, BlockSize.shift] at * <;> omega

omit hb in
theorem Layout.take : (s.take n b i).Layout := by
  have hs := s.kmem.allocAt_clears b hi
  refine h.congr ?_ ?_ ?_
  · rw [take_kmem]
    exact hs.toSameBut.placed h.toPlaced
  · rw [take_kmem, hs.toSameBut.base]
  · rw [Machine.take, memset_dir]

theorem Layout.take_hasTable {d : Nat} (hd : d < 1024) :
    (s.take n b i).HasTable d ↔ s.HasTable d := by
  obtain ⟨hlo, hhi, -⟩ := h.blockAddr_bounds hb hi
  have hs := s.kmem.allocAt_clears b hi
  have htop := h.top
  have hl : Layout { s with kmem := s.kmem.allocAt n b i } :=
    h.congr (hs.toSameBut.placed h.toPlaced) hs.toSameBut.base rfl
  have hpos : 0 < n.bytes := Nat.two_pow_pos _
  exact hl.memset_hasTable (hs.toSameBut.base ▸ hlo) (by omega) _ _ hd

theorem Layout.take_keeps : Keeps s (s.take n b i) :=
  ⟨by rw [Machine.take, Machine.memset], fun _ hd => (h.take_hasTable hb hi hd).2⟩

end Take

/-! ## Mapping the pages of a buddy -/

/-- How many of the directory entries `d` and `d + 1` are present. -/
def tables (s : Machine) (d : Nat) : Nat :=
  (if s.HasTable d then 1 else 0) + (if s.HasTable (d + 1) then 1 else 0)

theorem tables_le (s : Machine) (d : Nat) : s.tables d ≤ 2 := by
  unfold tables
  split_ifs <;> omega

theorem Keeps.tables_le {s s' : Machine} (h : Keeps s s') {d : Nat} (hd : d + 1 < 1024) :
    s.tables d ≤ s'.tables d := by
  have h₀ := h.tables d (by omega)
  have h₁ := h.tables (d + 1) hd
  unfold Machine.tables
  split_ifs <;> first | omega | tauto

theorem Keeps.tables_lt {s s' : Machine} (h : Keeps s s') {d e : Nat} (hd : d + 1 < 1024)
    (he : e = d ∨ e = d + 1) (hs : ¬ s.HasTable e) (hs' : s'.HasTable e) :
    s.tables d < s'.tables d := by
  have h₀ := h.tables d (by omega)
  have h₁ := h.tables (d + 1) hd
  unfold Machine.tables
  rcases he with rfl | rfl <;> rw [if_neg hs, if_pos hs'] <;> split_ifs <;> first | omega | tauto

/-- While the pages of directory entries `d` and `d + 1` are mapped: the blocks `T` taken from
buddy `b` so far are at most as many as these entries have tables, and they are its first
pages. -/
structure Growing (s₀ : Machine) (b d : Nat) (L : List Block) (s : Machine) (T : List Block) :
    Prop where
  keeps : Keeps s₀ s
  layout : s.Layout
  acc : s.kmem.Accounts (T ++ L)
  same : s₀.kmem.SameBut b s.kmem
  links : s.kmem.links = s₀.kmem.links
  size : ∀ x ∈ T, x.size = .k4
  low : ∀ p, T.length ≤ p → p < 128 → s.kmem.bit .k4 b p = true
  len : T.length ≤ s.tables d

section Growing

variable {s₀ s : Machine} {b d : Nat} {L T : List Block} (h : Growing s₀ b d L s T)
include h

theorem Growing.head (hhead : ∀ n, (s₀.kmem.links n).next none = some b) (n : BlockSize) :
    (s.kmem.links n).next none = some b := by
  rw [h.links]
  exact hhead n

theorem Growing.low_two {p : Nat} (hp : 2 ≤ p) (hp' : p < 128) : s.kmem.bit .k4 b p = true :=
  h.low p ((h.len.trans (s.tables_le d)).trans hp) hp'

/-- A block can be taken from `b`, and no bitmap of `b` becomes empty. -/
theorem Growing.findFree (hhead : ∀ n, (s₀.kmem.links n).next none = some b) (n : BlockSize) :
    ∃ i, s.kmem.findFree n b = .ok i ∧ i < n.count ∧ b < s.kmem.buddyArrayPos ∧
      ∀ m, ¬ s.kmem.Empties n b i m := by
  obtain ⟨hb, i, hi⟩ := h.acc.head (h.head hhead n)
  exact ⟨i, hi, Kmem.bit_lt (Kmem.findFree_eq_ok hi).1, hb,
    Kmem.not_empties_of_low (h.acc.coalesced b hb) (fun p hp hp' => h.low_two hp hp') hi⟩

/-- One page is mapped. -/
theorem Growing.round (hd : d + 1 < 1024) (hhead : ∀ n, (s₀.kmem.links n).next none = some b)
    (fuel : Nat) {addr pte : Nat} (ha : addr % 4096 = 0) (hlt : addr < 2 ^ 32)
    (had : addr >>> 22 = d ∨ addr >>> 22 = d + 1) (hpte : pte % 2 = 1) :
    ∃ s' T', s.mapPage (kmemAllocFuel (fuel + 1) .k4) addr prwr pte s.firstPageDirectory = .ok s' ∧
      Growing s₀ b d L s' T' := by
  by_cases ht : s.HasTable (addr >>> 22)
  · obtain ⟨s', hs', hkmem, hk⟩ := mapPage_of_hasTable (kmemAllocFuel (fuel + 1) .k4) prwr
      h.layout ha hpte ht
    refine ⟨s', T, hs', h.keeps.trans hk, h.layout.congr ?_ ?_ hk.dir, ?_, ?_, ?_, h.size, ?_,
      h.len.trans (hk.tables_le hd)⟩ <;> rw [hkmem]
    exacts [h.layout.toPlaced, h.acc, h.same, h.links, h.low]
  · obtain ⟨i, hi, hlt', hb, he⟩ := h.findFree hhead .k4
    have hbit := (Kmem.findFree_eq_ok hi).1
    have hl₁ := h.layout.take (b := b) hlt'
    have hk₁ := h.layout.take_keeps hb hlt'
    have ht₁ := (h.layout.take_hasTable hb hlt' (d := addr >>> 22) (by omega)).not.2 ht
    have hbase : (s.take .k4 b i).kmem.base = s.kmem.base := by
      rw [take_kmem, (s.kmem.allocAt_clears b hlt').base]
    obtain ⟨hlo, hhi, halign⟩ := h.layout.blockAddr_bounds hb hlt'
    have htop := h.layout.top
    have hbytes : BlockSize.bytes .k4 = 4096 := rfl
    obtain ⟨s', hs', hkmem, hk, ht'⟩ := mapPage_of_not_hasTable prwr ha hpte hlt ht
      (kmemAllocFuel_of_head fuel (h.head hhead .k4) hi) hk₁ hl₁ ht₁ (hbase ▸ hlo) (by omega)
      halign rfl
    refine ⟨s', ⟨.k4, b, i⟩ :: T, hs', h.keeps.trans hk, h.layout.congr ?_ ?_ hk.dir, ?_, ?_, ?_,
      List.forall_mem_cons.2 ⟨rfl, h.size⟩, ?_,
      Nat.lt_of_le_of_lt h.len (hk.tables_lt hd had ht ht')⟩ <;> rw [hkmem]
    · exact hl₁.toPlaced
    · exact hbase
    · rw [take_kmem]
      exact h.acc.allocAt hb hbit fun m hm => absurd hm (he m)
    · rw [take_kmem]
      exact h.same.trans (s.kmem.allocAt_clears b hlt').toSameBut
    · rw [take_kmem, h.acc.allocAt_links hb hlt' he, h.links]
    · intro p hp hp'
      have hpi : i ≠ p := by
        rintro rfl
        have hfree := h.low T.length (Nat.le_refl _) (by have := h.len.trans (s.tables_le d); omega)
        have := (Kmem.findFree_eq_ok hi).2 T.length hp
        simp [hfree] at this
      rw [take_kmem, Kmem.allocAt_bit (h.acc.coalesced b hb) _ _ _ hlt']
      refine ⟨h.low p (Nat.le_of_succ_le hp) hp', fun hm => hpi ?_⟩
      simpa [BlockSize.order, eq_comm] using hm.2

/-- All pages of a list of addresses are mapped. -/
theorem Growing.loop (hd : d + 1 < 1024) (hhead : ∀ n, (s₀.kmem.links n).next none = some b)
    (fuel : Nat) {l : List Nat} {pte : Nat → Nat}
    (hl : ∀ a ∈ l, a % 4096 = 0 ∧ a < 2 ^ 32 ∧ (a >>> 22 = d ∨ a >>> 22 = d + 1) ∧ pte a % 2 = 1) :
    ∃ s' T', l.foldlM (fun s a => s.mapPage (kmemAllocFuel (fuel + 1) .k4) a prwr (pte a)
      s.firstPageDirectory) s = .ok s' ∧ Growing s₀ b d L s' T' := by
  have hloop := Outcome.foldlM (Q := fun s => ∃ T, Growing s₀ b d L s T) (E := fun _ => False)
    (f := fun s a => s.mapPage (kmemAllocFuel (fuel + 1) .k4) a prwr (pte a) s.firstPageDirectory)
    (l := l) (a := s) ?_ ⟨T, h⟩
  · cases hr : l.foldlM (fun s a => s.mapPage (kmemAllocFuel (fuel + 1) .k4) a prwr (pte a)
      s.firstPageDirectory) s with
    | ok s' =>
      obtain ⟨T', hT'⟩ := hloop.of_ok hr
      exact ⟨s', T', rfl, hT'⟩
    | error e => exact absurd (hloop.of_error hr) id
  · rintro s a ha ⟨T, hT⟩
    obtain ⟨h₁, h₂, h₃, h₄⟩ := hl a ha
    obtain ⟨s', T', hs', hT'⟩ := hT.round hd hhead fuel h₁ h₂ h₃ h₄
    rw [hs']
    exact ⟨T', hT'⟩

end Growing

/-! ## The invariant -/

/-- Between calls: the blocks of `L` are handed out, and `kmem_phys_end` is the end of the last
buddy. -/
structure Inv (s : Machine) (L : List Block) : Prop extends s.Layout where
  acc : s.kmem.Accounts L
  physEnd : s.kmemPhysEnd + 0xC0000000 = s.kmem.base + s.kmem.buddyArrayPos * 2 ^ 19
  physLe : s.kmemPhysEnd ≤ 0x38000000
  region : s.kmemRegionEnd ≤ 0x38000000

/-- The pages of a buddy, as `kmem_buddy_new` counts them. -/
theorem mem_addrs_buddy {A a : Nat} (h : a ∈ addrs A (A + 1 <<< 19) 4096) :
    ∃ k < 128, a = A + 4096 * k := by
  rw [addrs, Nat.add_sub_cancel_left] at h
  obtain ⟨k, hk, rfl⟩ := List.mem_range'.1 h
  exact ⟨k, by simpa using hk, rfl⟩

/-- The machine after `kmem_buddy_new_no_alloc`. -/
def withNewBuddy (s : Machine) : Machine := { s with kmem := s.kmem.buddyNewNoAlloc }

theorem Inv.growing {s : Machine} {L : List Block} (h : s.Inv L) (d : Nat) :
    Growing s.withNewBuddy s.kmem.buddyArrayPos d L s.withNewBuddy [] := by
  have hend := h.physEnd
  have hle := h.physLe
  have hbase : s.kmem.buddyNewNoAlloc.base = s.kmem.base := rfl
  have hplaced : s.kmem.buddyNewNoAlloc.Placed := by
    refine ⟨hbase ▸ h.aligned, ?_⟩
    rw [hbase, Kmem.buddyNewNoAlloc_pos]
    omega
  refine ⟨.refl _, h.congr hplaced hbase rfl, h.acc.buddyNewNoAlloc,
    ⟨rfl, rfl, rfl, fun _ _ _ _ => rfl⟩, rfl, by simp, fun p _ hp => ?_, Nat.zero_le _⟩
  rw [withNewBuddy, Kmem.buddyNewNoAlloc_bit, if_pos rfl]
  exact decide_eq_true hp

theorem Inv.withNewBuddy_head {s : Machine} (n : BlockSize) :
    (s.withNewBuddy.kmem.links n).next none = some s.kmem.buddyArrayPos := by
  simp [withNewBuddy, Kmem.buddyNewNoAlloc, Links.pushFrontStale, Links.setNext]

/-- `kmem_buddy_new` once the pages of the new buddy are mapped. -/
theorem kmemBuddyNew_eq {s s₁ : Machine} {alloc4k : Machine → Except Fault (Nat × Machine)}
    (hl : s.withNewBuddy.Layout)
    (hend : s.kmemPhysEnd + 0xC0000000 = s.kmem.base + s.kmem.buddyArrayPos * 2 ^ 19)
    (hle : s.kmemPhysEnd ≤ 0x38000000)
    (hloop : (addrs (s.kmemPhysEnd + 0xC0000000) (s.kmemPhysEnd + 0xC0000000 + 1 <<< 19)
      4096).foldlM
      (fun s a => s.mapPage alloc4k a prwr (prwr ||| fromKmem a) s.firstPageDirectory)
      s.withNewBuddy = .ok s₁)
    (hk : Keeps s.withNewBuddy s₁) :
    s.kmemBuddyNew alloc4k =
      if s.kmem.buddyArrayPos * 64 % 2 ^ 32 < s.kmem.buddyArraySize then
        if s.kmemPhysEnd + 2 ^ 19 < s.kmemRegionEnd then
          .ok { s₁ with kmemPhysEnd := s.kmemPhysEnd + 2 ^ 19 }
        else .error .regionEnd
      else .error .buddyArrayFull := by
  set A := s.kmemPhysEnd + 0xC0000000 with hA
  have hstart : s.withNewBuddy.kmem.myFirstPage (s.withNewBuddy.kmem.buddyArrayPos - 1) = A :=
    (hl.toPlaced.myFirstPage (by simp [withNewBuddy])).trans hend.symm
  have hstop : (A + 1 <<< 19) % 2 ^ 32 = A + 1 <<< 19 := Nat.mod_eq_of_lt (by omega)
  have hphys : s₁.kmemPhysEnd = s.kmemPhysEnd := by rw [hk.globals, withNewBuddy]
  have hregion : s₁.kmemRegionEnd = s.kmemRegionEnd := by rw [hk.globals, withNewBuddy]
  have hvirt : toVirt s.kmemPhysEnd = A := by
    unfold toVirt
    omega
  have hnext : (s.kmemPhysEnd + 1 <<< 19) % 2 ^ 32 = s.kmemPhysEnd + 2 ^ 19 :=
    Nat.mod_eq_of_lt (by omega)
  by_cases hnew : s.kmem.buddyArrayPos * 64 % 2 ^ 32 < s.kmem.buddyArraySize
  · have hok : s.kmemBuddyNewNoAlloc = .ok s.withNewBuddy := by
      rw [kmemBuddyNewNoAlloc, if_pos hnew]
      rfl
    rw [if_pos hnew, Machine.kmemBuddyNew, hok, ok_bind]
    dsimp only
    rw [hstart, hstop, hloop, ok_bind, hphys, if_neg (not_not_intro hvirt), hregion, hnext]
    split
    · rw [← hregion]
      rfl
    · rfl
  · rw [if_neg hnew, Machine.kmemBuddyNew, kmemBuddyNewNoAlloc, if_neg hnew]
    rfl

/-- A new buddy is created and mapped, unless the array of buddies or the region is full. -/
theorem Inv.kmemBuddyNew {s : Machine} {L : List Block} (h : s.Inv L) (fuel : Nat) :
    Outcome (s.kmemBuddyNew (kmemAllocFuel (fuel + 1) .k4))
      (fun s' => ∃ d s₁ T, Growing s.withNewBuddy s.kmem.buddyArrayPos d L s₁ T ∧
        s' = { s₁ with kmemPhysEnd := s.kmemPhysEnd + 2 ^ 19 } ∧
        s.kmemPhysEnd + 2 ^ 19 < s.kmemRegionEnd)
      (fun e => e = .buddyArrayFull ∨ e = .regionEnd) := by
  have hend := h.physEnd
  have hle := h.physLe
  have halign := h.aligned
  set A := s.kmemPhysEnd + 0xC0000000 with hA
  have hg := h.growing (A >>> 22)
  have hpages : ∀ a ∈ addrs A (A + 1 <<< 19) 4096, a % 4096 = 0 ∧ a < 2 ^ 32 ∧
      (a >>> 22 = A >>> 22 ∨ a >>> 22 = A >>> 22 + 1) ∧ (prwr ||| fromKmem a) % 2 = 1 := by
    intro a ha
    obtain ⟨k, hk, rfl⟩ := mem_addrs_buddy ha
    refine ⟨by omega, by omega, ?_, Nat.or_mod_two_eq_one.2 (.inl rfl)⟩
    simp only [Nat.shiftRight_eq_div_pow]
    omega
  obtain ⟨s₁, T, hloop, hs₁⟩ := hg.loop (by rw [Nat.shiftRight_eq_div_pow]; omega)
    Inv.withNewBuddy_head fuel hpages
  rw [kmemBuddyNew_eq hg.layout hend hle hloop hs₁.keeps]
  split_ifs with hnew hlt
  · exact ⟨_, s₁, T, hs₁, rfl, hlt⟩
  · exact .inr rfl
  · exact .inl rfl

/-- The invariant after growth, once a block of size `n` is taken as well. -/
theorem Growing.inv {s s₁ : Machine} {L T : List Block} {d : Nat} (h : s.Inv L)
    (hg : Growing s.withNewBuddy s.kmem.buddyArrayPos d L s₁ T)
    (hlt : s.kmemPhysEnd + 2 ^ 19 < s.kmemRegionEnd) :
    Inv { s₁ with kmemPhysEnd := s.kmemPhysEnd + 2 ^ 19 } (T ++ L) := by
  have hend := h.physEnd
  have hregion : s₁.kmemRegionEnd = s.kmemRegionEnd := by
    rw [hg.keeps.globals, withNewBuddy]
  have hbase : s₁.kmem.base = s.kmem.base := hg.same.base
  have hpos : s₁.kmem.buddyArrayPos = s.kmem.buddyArrayPos + 1 := hg.same.pos
  refine ⟨hg.layout.congr hg.layout.toPlaced rfl rfl, hg.acc, ?_, ?_, ?_⟩
  · dsimp only
    rw [hbase, hpos]
    omega
  · have := h.region
    dsimp only
    omega
  · dsimp only
    rw [hregion]
    exact h.region

/-- The invariant after a block is taken from a buddy that is settled wherever it leaves. -/
theorem Inv.take {s : Machine} {L : List Block} (h : s.Inv L) {n : BlockSize} {b i : Nat}
    (hb : b < s.kmem.buddyArrayPos) (hi : s.kmem.findFree n b = .ok i)
    (hset : ∀ m, s.kmem.Empties n b i m → (s.kmem.links m).Settled b) :
    (s.take n b i).Inv (⟨n, b, i⟩ :: L) := by
  have hbit := (Kmem.findFree_eq_ok hi).1
  have hs := s.kmem.allocAt_clears b (Kmem.bit_lt hbit)
  have hend := h.physEnd
  have hglob : (s.take n b i) = { s with
      kmem := (s.take n b i).kmem
      mem := (s.take n b i).mem } := (h.toLayout.take_keeps hb (Kmem.bit_lt hbit)).globals
  refine ⟨h.toLayout.take (Kmem.bit_lt hbit), ?_, ?_, ?_, ?_⟩
  · rw [take_kmem]
    exact h.acc.allocAt hb hbit hset
  · rw [take_kmem, hs.base, hs.pos, hglob]
    exact hend
  · rw [hglob]
    exact h.physLe
  · rw [hglob]
    exact h.region

/-- A successful allocation: the new block, with the page tables that it needed. -/
structure Allocated (s : Machine) (L : List Block) (n : BlockSize) (p : Nat) (s' : Machine)
    (x : Block) (T : List Block) : Prop where
  inv : s'.Inv (x :: (T ++ L))
  size : x.size = n
  tables : T.length + 2 * s.kmem.buddyArrayPos ≤ 2 * s'.kmem.buddyArrayPos ∧
    ∀ y ∈ T, y.size = .k4
  addr : p = s'.kmem.blockAddr n x.buddy x.index
  base : s'.kmem.base = s.kmem.base
  pos : s'.kmem.buddyArrayPos =
    s.kmem.buddyArrayPos + (if (s.kmem.links n).next none = none then 1 else 0)
  globals : s' = { s with kmem := s'.kmem, mem := s'.mem, kmemPhysEnd := s'.kmemPhysEnd }

/-- `kmem_alloc_N` with a buddy in the list. -/
theorem Inv.kmemAlloc_of_head {s : Machine} {L : List Block} (h : s.Inv L) {n : BlockSize} {b : Nat}
    (hb : (s.kmem.links n).next none = some b) :
    ∃ i, b < s.kmem.buddyArrayPos ∧ s.kmem.findFree n b = .ok i ∧
      s.kmemAlloc n = .ok (s.kmem.blockAddr n b i, s.take n b i) ∧
      ((∀ m, s.kmem.Empties n b i m → (s.kmem.links m).Settled b) →
        Allocated s L n (s.kmem.blockAddr n b i) (s.take n b i) ⟨n, b, i⟩ []) := by
  obtain ⟨hpos, i, hi⟩ := h.acc.head hb
  have hlt := Kmem.bit_lt (Kmem.findFree_eq_ok hi).1
  have hs := s.kmem.allocAt_clears b hlt
  refine ⟨i, hpos, hi, kmemAllocFuel_of_head 1 hb hi, fun hset =>
    ⟨h.take hpos hi hset, rfl, ⟨?_, by simp⟩, ?_, ?_, ?_, ?_⟩⟩
  · rw [take_kmem, hs.pos, List.length_nil, Nat.zero_add]
  · rw [take_kmem, hs.toSameBut.blockAddr]
  · rw [take_kmem, hs.base]
  · rw [take_kmem, hs.pos, hb]
    rfl
  · rw [Machine.take, Machine.memset]

/-- `kmem_alloc_N` with an empty list creates a buddy and takes a block of it. -/
theorem Inv.kmemAlloc_of_null {s : Machine} {L : List Block} (h : s.Inv L) {n : BlockSize}
    (hn : (s.kmem.links n).next none = none) :
    Outcome (s.kmemAlloc n)
      (fun r => ∃ x T, Allocated s L n r.1 r.2 x T ∧
        r.2.kmem.links = s.kmem.buddyNewNoAlloc.links)
      (fun e => e = .buddyArrayFull ∨ e = .regionEnd) := by
  rw [kmemAlloc, kmemAllocFuel, buddyAlloc_of_null hn, ok_bind]
  dsimp only
  refine (h.kmemBuddyNew 0).bind ?_
  rintro s' ⟨d, s₁, T, hg, rfl, hlt⟩
  have hinv := hg.inv h hlt
  obtain ⟨i, hi, hilt, hb, he⟩ := hg.findFree Inv.withNewBuddy_head n
  have hs := s₁.kmem.allocAt_clears s.kmem.buddyArrayPos hilt
  set s₂ := { s₁ with kmemPhysEnd := s.kmemPhysEnd + 2 ^ 19 } with hs₂
  rw [buddyAlloc_of_head (s := s₂) (hg.head Inv.withNewBuddy_head n) hi, ok_bind]
  have hglob : s₂.take n s.kmem.buddyArrayPos i = { s₂ with
      kmem := (s₂.take n s.kmem.buddyArrayPos i).kmem
      mem := (s₂.take n s.kmem.buddyArrayPos i).mem } :=
    (hinv.toLayout.take_keeps hb hilt).globals
  refine ⟨⟨n, s.kmem.buddyArrayPos, i⟩, T, ⟨hinv.take hb hi fun m hm => absurd hm (he m), rfl,
    ⟨?_, hg.size⟩, ?_, ?_, ?_, ?_⟩, ?_⟩
  · have hlen := hg.len.trans (s₁.tables_le d)
    rw [take_kmem, show (s₁.kmem.allocAt n _ i).buddyArrayPos = s.kmem.buddyArrayPos + 1 from
      hs.pos.trans hg.same.pos]
    omega
  · rw [take_kmem, hs.toSameBut.blockAddr]
  · rw [take_kmem]
    exact hs.base.trans hg.same.base
  · rw [take_kmem, if_pos hn]
    exact hs.pos.trans hg.same.pos
  · rw [hglob, hs₂, hg.keeps.globals, withNewBuddy]
  · rw [take_kmem]
    exact (hg.acc.allocAt_links hb hilt he).trans hg.links

/-- The invariant does not depend on memory, nor on the other globals. -/
theorem Inv.congr {s s' : Machine} {L : List Block} (h : s.Inv L) (hk : s'.kmem = s.kmem)
    (hend : s'.kmemPhysEnd = s.kmemPhysEnd) (hregion : s'.kmemRegionEnd = s.kmemRegionEnd)
    (hd : s'.firstPageDirectory = s.firstPageDirectory) : s'.Inv L :=
  ⟨h.toLayout.congr (hk ▸ h.toPlaced) (hk ▸ rfl) hd, hk ▸ h.acc, hk ▸ hend ▸ h.physEnd,
    hend ▸ h.physLe, hregion ▸ h.region⟩

theorem Inv.perm {s : Machine} {L L' : List Block} (h : s.Inv L) (hp : L.Perm L') : s.Inv L' :=
  ⟨h.toLayout, h.acc.perm hp, h.physEnd, h.physLe, h.region⟩

/-- Blocks that share no page share no byte. -/
theorem Layout.blockAddr_apart {s : Machine} (h : s.Layout) {x y : Block}
    (hx : x.buddy < s.kmem.buddyArrayPos ∧ x.index < x.size.count)
    (hy : y.buddy < s.kmem.buddyArrayPos ∧ y.index < y.size.count) (ha : x.Apart y) :
    s.kmem.blockAddr x.size x.buddy x.index + x.size.bytes ≤
        s.kmem.blockAddr y.size y.buddy y.index ∨
      s.kmem.blockAddr y.size y.buddy y.index + y.size.bytes ≤
        s.kmem.blockAddr x.size x.buddy x.index := by
  obtain ⟨n, b, i⟩ := x
  obtain ⟨m, b', j⟩ := y
  rw [Block.apart_iff] at ha
  dsimp only at *
  rw [h.toPlaced.blockAddr hx.1 hx.2, h.toPlaced.blockAddr hy.1 hy.2]
  by_cases hb : b = b'
  · have hm : ¬ n.Meets i m j := fun hm => ha ⟨hb, hm⟩
    subst hb
    cases n <;> cases m <;> simp only [BlockSize.Meets, BlockSize.order, BlockSize.bytes,
      BlockSize.shift, Nat.shiftRight_eq_div_pow] at * <;> simp at hm <;> omega
  · have hx := hx.2
    have hy := hy.2
    cases n <;> cases m <;> simp only [BlockSize.count, BlockSize.bytes, BlockSize.shift] at * <;>
      omega

/-! ## Freeing -/

/-- `kmem_free_N` of the address of a block finds that block. -/
theorem Layout.kmemFree_blockAddr {s : Machine} (h : s.Layout) {n : BlockSize} {b i : Nat}
    (hb : b < s.kmem.buddyArrayPos) (hi : i < n.count) :
    s.kmemFree n (s.kmem.blockAddr n b i) = .ok { s with kmem := s.kmem.free n b i } := by
  have htop := h.top
  have haddr := h.toPlaced.blockAddr hb hi
  have hoff : i * n.bytes < 2 ^ 19 := by
    cases n <;> simp only [BlockSize.count, BlockSize.bytes, BlockSize.shift] at * <;> omega
  have hrel : (s.kmem.blockAddr n b i + (2 ^ 32 - s.kmem.buddyArray) +
      (2 ^ 32 - s.kmem.buddyArraySize)) % 2 ^ 32 = b * 2 ^ 19 + i * n.bytes := by
    unfold Kmem.base at *
    omega
  have hmask : (b * 2 ^ 19 + i * n.bytes) &&& (n.bytes - 1) = 0 := by
    rw [BlockSize.bytes, Nat.and_two_pow_sub_one_eq_mod]
    cases n <;> simp only [BlockSize.shift] <;> omega
  have hbuddy : (b * 2 ^ 19 + i * n.bytes) >>> 19 = b := by
    rw [Nat.shiftRight_eq_div_pow]
    omega
  have hindex : ((b * 2 ^ 19 + i * n.bytes) &&& 0x7FFFF) >>> n.shift = i := by
    rw [Nat.and_two_pow_sub_one_eq_mod _ 19, Nat.shiftRight_eq_div_pow]
    cases n <;> simp only [BlockSize.bytes, BlockSize.shift] at * <;> omega
  rw [kmemFree]
  dsimp only
  rw [hrel, if_neg (not_not_intro hmask), hbuddy, hindex]
  rfl

/-- Freeing a block that is handed out. -/
theorem Inv.kmemFree {s : Machine} {u v : List Block} {x : Block} (h : s.Inv (u ++ x :: v)) :
    Inv { s with kmem := s.kmem.free x.size x.buddy x.index } (u ++ v) := by
  obtain ⟨hb, hi⟩ := h.acc.valid x (by simp)
  have hs := s.kmem.free_sets x.buddy hi
  refine ⟨h.toLayout.congr (hs.placed h.toPlaced) hs.base rfl, h.acc.free', ?_, h.physLe, h.region⟩
  have := h.physEnd
  dsimp only
  rwa [hs.base, hs.pos]

end Machine

end TinyLittleOs.Memory
