import TinyLittleOs.Scheduler.ElfReads

/-!
# The pages of a segment

The page loop counts in 32 bits from the rounded address to that address plus the size of the
segment. Beside it stands the list of the pages that have a byte of the segment.
-/

namespace TinyLittleOs.Scheduler

open Memory

section Pages

variable {ρ : Type} {f : FileDesc ρ} {p : Phdr} {w w' : World ρ}

/-- Go on with `k` where `x` was successful. -/
def onward (x : Except Halt (Except Errno Unit × World ρ))
    (k : World ρ → Except Halt (Except Errno Unit × World ρ)) :
    Except Halt (Except Errno Unit × World ρ) :=
  match x with
  | .error h => .error h
  | .ok (.error e, w) => .ok (.error e, w)
  | .ok (.ok (), w) => k w

/-- Load the pages of a list, until one of them fails. -/
def forPages (f : FileDesc ρ) (p : Phdr) :
    List Nat → World ρ → Except Halt (Except Errno Unit × World ρ)
  | [], w => .ok (.ok (), w)
  | virt :: l, w => onward (loadPage f p p.addrStart virt w) (forPages f p l)

theorem pageLoop_succ (start stop fuel virt : Nat) (w : World ρ) :
    pageLoop f p start stop (fuel + 1) virt w = if virt < stop then
      onward (loadPage f p start virt w) (pageLoop f p start stop fuel ((virt + 0x1000) % 2 ^ 32))
    else .ok (.ok (), w) := by
  rw [pageLoop]
  rfl

theorem fillPage_mapped {start virt : Nat} {e : Except Errno Unit}
    (h : fillPage f p start virt w = .ok (e, w')) : w'.mapped = w.mapped := by
  dsimp only [fillPage] at h
  split at h
  · split at h
    · cases h
    · cases h
      rfl
    · split at h
      · cases h
      · cases h
        rfl
  · split at h
    · cases h
    · cases h
      rfl

/-- A page is mapped, whatever becomes of its contents. -/
theorem loadPage_mapped {start virt : Nat} {e : Except Errno Unit}
    (h : loadPage f p start virt w = .ok (e, w')) : w'.mapped = w.mapped ++ [virt] := by
  rw [loadPage] at h
  split at h
  · cases h
  · split at h
    · cases h
    · exact fillPage_mapped h

end Pages

/-! ## The pages of a program header -/

theorem word_lt (buf : List (BitVec 8)) (i : Nat) : word buf i < 2 ^ 32 := by
  have h : ∀ i, byteAt buf i < 2 ^ 8 := fun i => (buf.getD i 0).isLt
  have h₀ := h i
  have h₁ := h (i + 1)
  have h₂ := h (i + 2)
  have h₃ := h (i + 2 + 1)
  rw [word, half, half]
  omega

theorem and_page_mask {v : Nat} (hv : v < 2 ^ 32) : v &&& 0xFFFFF000 = v / 4096 * 4096 := by
  have hmask : (0xFFFFF000 : Nat) = 2 ^ 12 * (2 ^ 20 - 1) := by decide
  have hpage : v / 4096 * 4096 = 2 ^ 12 * (v / 2 ^ 12) := Nat.mul_comm _ _
  rw [hmask, hpage]
  apply Nat.eq_of_testBit_eq
  intro i
  rw [Nat.testBit_and, Nat.testBit_two_pow_mul, Nat.testBit_two_pow_mul, Nat.testBit_div_two_pow,
    Nat.testBit_two_pow_sub_one]
  by_cases hi : 12 ≤ i
  · by_cases hi' : i < 32
    · have hsmall : i - 12 < 20 := by omega
      simp [hi, hsmall]
    · have hbig : v.testBit i = false :=
        Nat.testBit_lt_two_pow (lt_of_lt_of_le hv (Nat.pow_le_pow_right (by decide) (by omega)))
      have hsum : i - 12 + 12 = i := by omega
      simp [hi, hsum, hbig]
  · simp [hi]

/-- The page at `a` has a byte of the segment. -/
def Phdr.Touches (p : Phdr) (a : Nat) : Prop :=
  a % 4096 = 0 ∧ ∃ x, a ≤ x ∧ x < a + 4096 ∧ p.vaddr ≤ x ∧ x < p.vaddr + p.memsz

/-- The number of the pages from `addr_start` that have a byte of the segment. -/
def Phdr.pageCount (p : Phdr) : Nat :=
  if p.memsz = 0 then 0 else (p.vaddr % 4096 + p.memsz + 4095) / 4096

/-- The number of the pages from `addr_start` to `addr_end`. -/
def Phdr.loopCount (p : Phdr) : Nat := (p.addrEnd - p.addrStart + 4095) / 4096

/-- The pages that the loop loads before `virt` wraps or reaches `addr_end`. -/
def Phdr.loopPages (p : Phdr) : List Nat := List.range' p.addrStart p.loopCount 4096

section Header

variable {p : Phdr}

theorem Phdr.touches_iff (hv : p.vaddr < 2 ^ 32) (a : Nat) :
    a ∈ List.range' p.addrStart p.pageCount 4096 ↔ p.Touches a := by
  rw [List.mem_range', Phdr.Touches, Phdr.addrStart, and_page_mask hv, Phdr.pageCount]
  constructor
  · rintro ⟨i, hi, rfl⟩
    split at hi
    · exact absurd hi (Nat.not_lt_zero _)
    · refine ⟨by omega, max (p.vaddr / 4096 * 4096 + 4096 * i) p.vaddr, ?_⟩
      omega
  · rintro ⟨halign, x, hle, hlt, hx, hx'⟩
    refine ⟨a / 4096 - p.vaddr / 4096, ?_, by omega⟩
    rw [if_neg (by omega)]
    omega

/-- The list of the pages is determined by its members and its order. -/
theorem pages_unique {l l' : List Nat} (hl : l.Pairwise (· < ·)) (hl' : l'.Pairwise (· < ·))
    (h : ∀ a, a ∈ l ↔ a ∈ l') : l = l' := by
  apply List.Perm.eq_of_pairwise
    (fun _ _ _ _ h₁ h₂ => absurd (Nat.lt_trans h₁ h₂) (Nat.lt_irrefl _))
    hl hl'
  exact (List.perm_ext_iff_of_nodup (hl.imp Nat.ne_of_lt) (hl'.imp Nat.ne_of_lt)).2 h

end Header

/-! ## The law of the page loop -/

section Law

variable {ρ : Type} {f : FileDesc ρ} {p : Phdr} {w w' : World ρ}

/-- The loop over a segment that fits below `2 ^ 32` is the loop over the pages that have a byte of
the segment, each of them once, and with another segment there is an error and nothing is mapped. -/
structure MapsItsPages (f : FileDesc ρ) (p : Phdr) (w : World ρ) : Prop where
  pages : p.vaddr + p.memsz ≤ 2 ^ 32 → ∃ l, l.Pairwise (· < ·) ∧ (∀ a, a ∈ l ↔ p.Touches a) ∧
    (∀ fuel > l.length, loadSegment f fuel p w = forPages f p l w) ∧
    ∀ w', forPages f p l w = .ok (.ok (), w') → w'.mapped = w.mapped ++ l
  error : 2 ^ 32 < p.vaddr + p.memsz → ∃ e w',
    (∀ fuel > 0, loadSegment f fuel p w = .ok (.error e, w')) ∧
    w'.machine = w.machine ∧ w'.mapped = w.mapped

/-- The loop visits no page of kmem, where it may put one over the page tables themselves, and none
of the last page table, where `scoped_hmem_mapping` works. -/
def Phdr.Beside (p : Phdr) (s : Machine) : Prop :=
  ∀ virt, p.addrStart ≤ virt → virt < p.addrEnd → virt < 0xC0000000 ∨
    0xC0000000 + max s.kmemPhysEnd s.kmemRegionEnd ≤ virt ∧ virt < 0xFFC00000

/-- One of the pages that the loop loads cannot be loaded, so that it stops there. -/
def Fails (f : FileDesc ρ) (p : Phdr) (w : World ρ) : Prop :=
  ∀ w', forPages f p p.loopPages w ≠ .ok (.ok (), w')

theorem Fails.onward (h : Fails f p w)
    (k : World ρ → Except Halt (Except Errno Unit × World ρ)) :
    onward (forPages f p p.loopPages w) k = forPages f p p.loopPages w := by
  rw [Fails] at h
  revert h
  rcases forPages f p p.loopPages w with h | ⟨e | _, w₁⟩
  · exact fun _ => rfl
  · exact fun _ => rfl
  · exact fun h => absurd rfl (h w₁)

variable (hv : p.vaddr < 2 ^ 32) (hload : p.type = 1)
include hv hload

theorem MapsItsPages.loop (h : MapsItsPages f p w) (hfits : p.vaddr + p.memsz ≤ 2 ^ 32) {fuel : Nat}
    (hfuel : p.pageCount < fuel) : pageLoop f p p.addrStart p.addrEnd fuel p.addrStart w =
      forPages f p (List.range' p.addrStart p.pageCount 4096) w := by
  obtain ⟨l, hsorted, hmem, hloop, -⟩ := h.pages hfits
  have hl : l = List.range' p.addrStart p.pageCount 4096 := by
    apply pages_unique hsorted (List.pairwise_lt_range' _ (by decide))
    exact fun a => (hmem a).trans (p.touches_iff hv a).symm
  have hfuel' : fuel > l.length := by
    rw [hl, List.length_range']
    exact hfuel
  have := hloop fuel hfuel'
  rw [loadSegment, if_pos hload, hl] at this
  exact this

omit hv in
/-- A segment that does not fit is no error before its first page is mapped. -/
theorem MapsItsPages.fits (h : MapsItsPages f p w) : p.vaddr + p.memsz ≤ 2 ^ 32 := by
  apply Nat.le_of_not_lt
  intro hlt
  obtain ⟨e, w', herror, -, hmapped⟩ := h.error hlt
  have hfirst := herror 1 Nat.one_pos
  rw [loadSegment, if_pos hload, pageLoop_succ] at hfirst
  split at hfirst
  · cases hpage : loadPage f p p.addrStart p.addrStart w with
    | error h =>
      rw [hpage] at hfirst
      cases hfirst
    | ok q =>
      obtain ⟨e', w₁⟩ := q
      rw [hpage] at hfirst
      cases e' with
      | error e' =>
        cases hfirst
        rw [loadPage_mapped hpage] at hmapped
        exact absurd (congrArg List.length hmapped) (by simp)
      | ok _ => cases hfirst
  · cases hfirst

end Law

end TinyLittleOs.Scheduler
