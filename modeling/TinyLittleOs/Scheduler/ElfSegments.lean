import TinyLittleOs.Scheduler.ElfMemory

/-!
# The plan by segments

When the loader succeeds, the pages of its plan are those of the `PT_LOAD` segments, segment after
segment, and all of their bytes are in the file.
-/

namespace TinyLittleOs.Scheduler

open Lib Memory

/-- The program headers of a file, as the loader reads them. -/
def phdrs (content : List (BitVec 8)) : List Phdr :=
  let hdr := Ehdr.parse (chunk content 0 sizeofEhdr)
  (List.range hdr.phnum).map fun i =>
    Phdr.parse (chunk content ((hdr.phoff + i * sizeofPhdr) % 2 ^ 32) sizeofPhdr)

/-- The pages of a segment, in the order of the page loop. -/
def Phdr.pages (p : Phdr) : List Page :=
  if p.type = 1 then p.loopPages.map (Page.mk p) else []

section Plan

variable {content : List (BitVec 8)} {l : List Page}

/-- Behind the last page of the address space the page loop begins again. -/
theorem loopPlan_wraps {p : Phdr} {stop fuel virt : Nat} (hstop : 0xFFFFF000 < stop)
    (hv : virt % 4096 = 0) (hlt : virt < 2 ^ 32) :
    loopPlan content p stop fuel virt ≠ some (l, true) := by
  induction fuel generalizing virt l with
  | zero =>
    intro h
    cases h
  | succ fuel ih =>
    intro h
    rw [loopPlan, if_pos (by omega)] at h
    split_ifs at h
    · obtain ⟨⟨l', b⟩, hrest, hpair⟩ := Option.map_eq_some_iff.1 h
      cases hpair
      exact ih (by omega) (by omega) hrest
    · cases h

/-- A page loop that comes to its end takes one page after another. -/
theorem loopPlan_true {p : Phdr} {stop fuel virt : Nat} (hv : virt % 4096 = 0) (hlt : virt < 2 ^ 32)
    (h : loopPlan content p stop fuel virt = some (l, true)) :
    l = (List.range' virt ((stop - virt + 4095) / 4096) 4096).map (Page.mk p) ∧
      ∀ g ∈ l, g.Full content := by
  have hstop : stop ≤ 0xFFFFF000 := by
    by_contra hwraps
    exact loopPlan_wraps (Nat.lt_of_not_le hwraps) hv hlt h
  induction fuel generalizing virt l with
  | zero => cases h
  | succ fuel ih =>
    rw [loopPlan] at h
    split_ifs at h with hless hfull
    · obtain ⟨⟨l', b⟩, hrest, hpair⟩ := Option.map_eq_some_iff.1 h
      cases hpair
      rw [Nat.mod_eq_of_lt (by omega)] at hrest
      obtain ⟨rfl, hall⟩ := ih (by omega) (by omega) hrest
      have hcount : (stop - virt + 4095) / 4096 = (stop - (virt + 0x1000) + 4095) / 4096 + 1 := by
        omega
      constructor
      · rw [hcount, List.range'_succ, List.map_cons]
      · intro g hg
        rcases List.mem_cons.1 hg with rfl | hg
        · exact hfull
        · exact hall g hg
    · cases h
    · cases h
      have hzero : (stop - virt + 4095) / 4096 = 0 := by omega
      rw [hzero]
      refine ⟨rfl, fun g hg => ?_⟩
      cases hg

theorem segmentPlan_true {fuel : Nat} {buf : List (BitVec 8)}
    (h : segmentPlan content fuel (Phdr.parse buf) = some (l, true)) :
    l = (Phdr.parse buf).pages ∧ ∀ g ∈ l, g.Full content := by
  have hv : (Phdr.parse buf).vaddr < 2 ^ 32 := word_lt buf 8
  rw [segmentPlan] at h
  rw [Phdr.pages]
  split_ifs at h ⊢ with hload
  · refine loopPlan_true ?_ ?_ h
    · rw [Phdr.addrStart, and_page_mask hv]
      omega
    · exact lt_of_le_of_lt Nat.and_le_left hv
  · cases h
    refine ⟨rfl, fun g hg => ?_⟩
    cases hg

theorem phdrPlan_true {fuel phoff : Nat} {is : List Nat}
    (h : phdrPlan content fuel phoff is = some (l, true)) :
    l = (is.map fun i =>
      Phdr.parse (chunk content ((phoff + i * sizeofPhdr) % 2 ^ 32) sizeofPhdr)).flatMap
        Phdr.pages ∧ ∀ g ∈ l, g.Full content := by
  induction is generalizing l with
  | nil =>
    cases h
    refine ⟨rfl, fun g hg => ?_⟩
    cases hg
  | cons i is ih =>
    rw [phdrPlan] at h
    split_ifs at h with henough
    · obtain ⟨⟨l₁, b₁⟩, hsegment, hrest⟩ := Option.bind_eq_some_iff.1 h
      cases b₁ with
      | false => cases hrest
      | true =>
        obtain ⟨⟨l₂, b₂⟩, htail, hpair⟩ := Option.map_eq_some_iff.1 hrest
        cases hpair
        obtain ⟨rfl, hfirst⟩ := segmentPlan_true hsegment
        obtain ⟨rfl, hall⟩ := ih htail
        refine ⟨rfl, fun g hg => ?_⟩
        rcases List.mem_append.1 hg with hg | hg
        · exact hfirst g hg
        · exact hall g hg
    · cases h

/-- The plan of a file that is loaded to its end. -/
theorem elfPlan_true {fuel : Nat} (h : elfPlan content fuel = some (l, true)) :
    l = (phdrs content).flatMap Phdr.pages ∧ ∀ g ∈ l, g.Full content := by
  rw [elfPlan] at h
  split_ifs at h with henough
  · rw [headerPlan] at h
    split_ifs at h
    · exact phdrPlan_true h
    · cases h
  · cases h

end Plan

/-! ## A byte of a segment -/

/-- What the loader puts `k` bytes behind `addr_start`: a byte of the file, except where more than a
page of the file is left. -/
def Phdr.byte (content : List (BitVec 8)) (p : Phdr) (k : Nat) : BitVec 8 :=
  if k < p.filesz ∧ p.filesz - k / 4096 * 4096 ≤ 4096 then
    content.getD ((p.offset + k / 4096 * 4096) % 2 ^ 32 + k % 4096) 0
  else 0

theorem Page.byte_eq {content : List (BitVec 8)} {p : Phdr} {k : Nat}
    (hk : p.addrStart + k < 2 ^ 32) :
    (Page.mk p (p.addrStart + k / 4096 * 4096)).byte content (k % 4096) = p.byte content k := by
  have hidx : (Page.mk p (p.addrStart + k / 4096 * 4096)).idx = k / 4096 * 4096 := by
    rw [Page.idx]
    dsimp only
    omega
  rw [Page.byte, Phdr.byte, Page.memsetAt, Page.readPos, hidx, Nat.add_comm p.offset]
  dsimp only
  congr 1
  split <;> apply propext <;> omega

end TinyLittleOs.Scheduler
