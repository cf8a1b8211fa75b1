import TinyLittleOs.Memory.KmemAlloc

/-!
# The bitmaps of kmem, whatever its lists are

An unlinking through a stale back pointer spoils a list, but not the bitmaps: in every run they
mark what is handed out, and the lists lead to created buddies. This is enough to know that an
allocation returns pages that nobody has. `lag` counts the buddies that `kmem_buddy_new` has created
and not yet added to `kmem_phys_end`.
-/

namespace TinyLittleOs.Memory

open Lib

namespace Kmem

/-- The blocks of `L` are handed out and everything else is marked free. -/
structure Marked (s : Kmem) (L : List Block) : Prop where
  valid : ∀ x ∈ L, x.buddy < s.buddyArrayPos ∧ x.index < x.size.count
  apart : L.Pairwise Block.Apart
  marks : ∀ b < s.buddyArrayPos, s.Marks b L
  leads : s.Leads

variable {s : Kmem} {L : List Block}

theorem Linked.inside {n : BlockSize} {l : List Nat} (h : s.Linked n l) :
    (s.links n).Inside s.created := by
  intro c hc y hy
  by_cases hcell : c = none ∨ ∃ x ∈ l, c = some x
  · rcases h.list.seg.next_mem hcell with hnone | ⟨z, hz, hnext⟩
    · rw [hnone] at hy
      cases hy
    · rw [hnext] at hy
      obtain rfl := Option.some.inj hy
      exact h.list.sub z hz
  · obtain ⟨hne, hout⟩ := not_or.1 hcell
    obtain ⟨x, rfl⟩ := Option.ne_none_iff_exists'.1 hne
    have hx : x ∉ l := fun hx => hout ⟨x, hx, rfl⟩
    rw [h.list.out_next x (hc x rfl) hx] at hy
    cases hy

theorem Accounts.marked (h : s.Accounts L) : s.Marked L where
  valid := h.valid
  apart := h.apart
  marks b hb := h.marks hb
  leads n := by
    obtain ⟨l, hl⟩ := h.linked n
    exact hl.inside

theorem Marked.perm (h : s.Marked L) {L' : List Block} (hp : L.Perm L') : s.Marked L' where
  valid x hx := h.valid x (hp.mem_iff.2 hx)
  apart := h.apart.perm hp Block.Apart.symm
  marks b hb := ⟨fun p hpg => ((h.marks b hb).free p hpg).trans (by simp only [hp.mem_iff]),
    (h.marks b hb).coalesced⟩
  leads := h.leads

theorem Marked.allocAt (h : s.Marked L) {n : BlockSize} {b i : Nat} (hb : b < s.buddyArrayPos)
    (hi : s.bit n b i = true) : (s.allocAt n b i).Marked (⟨n, b, i⟩ :: L) := by
  have hlt := bit_lt hi
  have hc := (h.marks b hb).coalesced
  have hcl := s.allocAt_clears b hlt
  refine ⟨fun x hx => ?_, ?_, fun b' hb' => ?_, hcl.leads hb h.leads⟩
  · rw [hcl.pos]
    rcases List.mem_cons.1 hx with rfl | hx
    · exact ⟨hb, hlt⟩
    · exact h.valid x hx
  · exact List.pairwise_cons.2 ⟨((h.marks b hb).bit_iff hlt).1 hi, h.apart⟩
  · rw [hcl.pos] at hb'
    exact (h.marks b' hb').allocAt hc hlt

theorem Marked.free {u v : List Block} {x : Block} (h : s.Marked (u ++ x :: v)) :
    (s.free x.size x.buddy x.index).Marked (u ++ v) := by
  obtain ⟨hb, hi⟩ := h.valid x (by simp)
  have hs := s.free_sets x.buddy hi
  refine ⟨fun y hy => ?_, h.apart.sublist (by simp), fun b' hb' => ?_, hs.leads hb h.leads⟩
  · rw [hs.pos]
    exact h.valid y (by grind)
  · rw [hs.pos] at hb'
    exact (h.marks b' hb').free' hi (apart_of_pairwise h.apart)

/-- A block may be seen as its two halves. -/
theorem Marked.split {b i : Nat} (h : s.Marked (⟨.k8, b, i⟩ :: L)) :
    s.Marked (⟨.k4, b, 2 * i⟩ :: ⟨.k4, b, 2 * i + 1⟩ :: L) := by
  have hcov (c p : Nat) : Block.Covers ⟨.k8, b, i⟩ c p ↔
      Block.Covers ⟨.k4, b, 2 * i⟩ c p ∨ Block.Covers ⟨.k4, b, 2 * i + 1⟩ c p := by
    simp only [Block.Covers, BlockSize.order, Nat.shiftRight_eq_div_pow]
    omega
  have hrest := List.pairwise_cons.1 h.apart
  have hval := h.valid ⟨.k8, b, i⟩ List.mem_cons_self
  simp only [BlockSize.count] at hval
  refine ⟨?_, ?_, fun c hc => ⟨fun p hp => ?_, (h.marks c hc).coalesced⟩, h.leads⟩
  · simp only [List.forall_mem_cons, BlockSize.count]
    exact ⟨⟨hval.1, by omega⟩, ⟨hval.1, by omega⟩, fun x hx =>
      h.valid x (List.mem_cons_of_mem _ hx)⟩
  · refine List.pairwise_cons.2 ⟨?_, List.pairwise_cons.2 ⟨fun y hy c p hx => ?_, hrest.2⟩⟩
    · rintro y hy c p hx hy'
      rcases List.mem_cons.1 hy with rfl | hy
      · simp only [Block.Covers, BlockSize.order, Nat.shiftRight_eq_div_pow] at hx hy'
        omega
      · exact hrest.1 y hy c p ((hcov c p).2 (Or.inl hx)) hy'
    · exact hrest.1 y hy c p ((hcov c p).2 (Or.inr hx))
  · rw [(h.marks c hc).free p hp]
    simp only [List.forall_mem_cons, hcov, not_or, and_assoc]

theorem Marked.buddyNewNoAlloc (h : s.Marked L) : s.buddyNewNoAlloc.Marked L := by
  refine ⟨fun x hx => ?_, h.apart, fun b hb => ?_, h.leads.buddyNewNoAlloc⟩
  · obtain ⟨hb, hi⟩ := h.valid x hx
    exact ⟨Nat.lt_succ_of_lt hb, hi⟩
  · exact marks_buddyNewNoAlloc (fun x hx => (h.valid x hx).1) h.marks hb

end Kmem

namespace Machine

/-- The blocks of `L` are handed out, and `kmem_phys_end` is `lag` buddies behind. -/
structure Tracked (s : Machine) (L : List Block) (lag : Nat) : Prop extends s.Layout where
  marked : s.kmem.Marked L
  physEnd : s.kmemPhysEnd + 0xC0000000 + lag * 2 ^ 19 = s.kmem.base + s.kmem.buddyArrayPos * 2 ^ 19
  physLe : s.kmemPhysEnd ≤ 0x38000000
  region : s.kmemRegionEnd ≤ 0x38000000

/-- Only kmem's structures and memory differ, and no buddy was created. -/
structure Alike (s s' : Machine) : Prop where
  globals : s' = { s with kmem := s'.kmem, mem := s'.mem }
  base : s'.kmem.base = s.kmem.base
  pos : s'.kmem.buddyArrayPos = s.kmem.buddyArrayPos

section Tracked

variable {s s' : Machine} {L : List Block} {lag : Nat} (h : s.Tracked L lag)
include h

theorem Tracked.alike {L' : List Block} (ha : Alike s s') (hm : s'.kmem.Marked L') :
    s'.Tracked L' lag := by
  have hdir : s'.firstPageDirectory = s.firstPageDirectory := by rw [ha.globals]
  have hend : s'.kmemPhysEnd = s.kmemPhysEnd := by rw [ha.globals]
  have hregion : s'.kmemRegionEnd = s.kmemRegionEnd := by rw [ha.globals]
  have hplaced : s'.kmem.Placed := by
    refine ⟨ha.base ▸ h.aligned, ?_⟩
    rw [ha.base, ha.pos]
    exact h.top
  refine ⟨h.toLayout.congr hplaced ha.base hdir, hm, ?_, hend ▸ h.physLe, hregion ▸ h.region⟩
  rw [hend, ha.base, ha.pos]
  exact h.physEnd

theorem Tracked.perm {L' : List Block} (hp : L.Perm L') : s.Tracked L' lag :=
  h.alike ⟨rfl, rfl, rfl⟩ (h.marked.perm hp)

/-- Memory and the registers do not matter. -/
theorem Tracked.congr (hk : s'.kmem = s.kmem) (hdir : s'.firstPageDirectory = s.firstPageDirectory)
    (hend : s'.kmemPhysEnd = s.kmemPhysEnd) (hregion : s'.kmemRegionEnd = s.kmemRegionEnd) :
    s'.Tracked L lag := by
  refine ⟨h.toLayout.congr (hk ▸ h.toPlaced) (by rw [hk]) hdir, hk ▸ h.marked, ?_, hend ▸ h.physLe,
    hregion ▸ h.region⟩
  rw [hk, hend]
  exact h.physEnd

/-- A write to memory. -/
theorem Tracked.writes {m : ByteMem} (hs : s' = { s with mem := m }) : s'.Tracked L lag := by
  apply h.congr <;> rw [hs]

omit h in
theorem take_alike {n : BlockSize} {b i : Nat} (hi : i < n.count) : Alike s (s.take n b i) := by
  have hs := s.kmem.allocAt_clears b hi
  refine ⟨by rw [Machine.take, Machine.memset], ?_, ?_⟩
  · rw [take_kmem, hs.base]
  · rw [take_kmem, hs.pos]

theorem Tracked.take {n : BlockSize} {b i : Nat} (hb : b < s.kmem.buddyArrayPos)
    (hi : s.kmem.bit n b i = true) : (s.take n b i).Tracked (⟨n, b, i⟩ :: L) lag := by
  apply h.alike (take_alike (Kmem.bit_lt hi))
  rw [take_kmem]
  exact h.marked.allocAt hb hi

theorem Tracked.withNewBuddy (hlag : lag ≤ 1) : s.withNewBuddy.Tracked L (lag + 1) := by
  have hend := h.physEnd
  have hle := h.physLe
  have hbase : s.withNewBuddy.kmem.base = s.kmem.base := rfl
  have hpos : s.withNewBuddy.kmem.buddyArrayPos = s.kmem.buddyArrayPos + 1 := rfl
  have hphys : s.withNewBuddy.kmemPhysEnd = s.kmemPhysEnd := rfl
  have hplaced : s.withNewBuddy.kmem.Placed := ⟨hbase ▸ h.aligned, by omega⟩
  have hlayout : s.withNewBuddy.Layout := h.toLayout.congr hplaced hbase rfl
  exact ⟨hlayout, h.marked.buddyNewNoAlloc, by omega, by omega, h.region⟩

/-- What `buddy_alloc` finds is free. -/
theorem Tracked.buddyAlloc (n : BlockSize) :
    Outcome (s.buddyAlloc n) (fun r => r = (none, s) ∨ ∃ b i, b < s.kmem.buddyArrayPos ∧
      s.kmem.bit n b i = true ∧ r = (some (s.kmem.blockAddr n b i), s.take n b i))
      fun _ => True := by
  cases hb : (s.kmem.links n).next none with
  | none =>
    rw [buddyAlloc_of_null hb]
    exact Or.inl rfl
  | some b =>
    have hpos : b < s.kmem.buddyArrayPos := h.marked.leads n none (fun x hx => by cases hx) b hb
    cases hi : s.kmem.findFree n b with
    | error e =>
      rw [Machine.buddyAlloc, hb]
      dsimp only
      rw [Kmem.alloc, hi]
      trivial
    | ok i =>
      rw [buddyAlloc_of_head hb hi]
      exact Or.inr ⟨b, i, hpos, (Kmem.findFree_eq_ok hi).1, rfl⟩

end Tracked

theorem free_alike (s : Machine) {n : BlockSize} (b : Nat) {i : Nat} (hi : i < n.count) :
    Alike s { s with kmem := s.kmem.free n b i } := by
  have hs := s.kmem.free_sets b hi
  exact ⟨rfl, hs.base, hs.pos⟩

/-- Giving a block back changes kmem's structures only. -/
theorem kmemFree_alike {s s' : Machine} {n : BlockSize} {p : Nat} (h : s.kmemFree n p = .ok s') :
    Alike s s' ∧ s'.mem = s.mem := by
  rw [Machine.kmemFree] at h
  dsimp only at h
  split_ifs at h
  generalize (p + (2 ^ 32 - s.kmem.buddyArray) + (2 ^ 32 - s.kmem.buddyArraySize)) %
    2 ^ 32 = rel at h
  have hi : (rel &&& 0x7FFFF) >>> n.shift < n.count := by
    rw [Nat.and_two_pow_sub_one_eq_mod _ 19, Nat.shiftRight_eq_div_pow]
    cases n <;> simp only [BlockSize.shift, BlockSize.count] <;> omega
  rw [← Except.ok.inj h]
  exact ⟨s.free_alike (rel >>> 19) hi, rfl⟩

theorem Tracked.kmemFree {s : Machine} {u v : List Block} {x : Block} {lag : Nat}
    (h : s.Tracked (u ++ x :: v) lag) :
    s.kmemFree x.size (s.kmem.blockAddr x.size x.buddy x.index) =
        .ok { s with kmem := s.kmem.free x.size x.buddy x.index } ∧
      Tracked { s with kmem := s.kmem.free x.size x.buddy x.index } (u ++ v) lag := by
  obtain ⟨hb, hi⟩ := h.marked.valid x (by simp)
  exact ⟨h.toLayout.kmemFree_blockAddr hb hi, h.alike (s.free_alike _ hi) h.marked.free⟩

end Machine

end TinyLittleOs.Memory
