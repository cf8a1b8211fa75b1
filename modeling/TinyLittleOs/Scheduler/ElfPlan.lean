import TinyLittleOs.Scheduler.ElfPages

/-!
# The pages that a file asks for

The headers of a file alone decide which pages the loader loads, in which order, and where it stops.
What the loader does to the machine is to load them in turn.
-/

namespace TinyLittleOs.Scheduler

open Lib Memory

/-! ## A page -/

/-- A page to be loaded, with the program header of its segment. -/
structure Page where
  phdr : Phdr
  virt : Nat

namespace Page

/-- `idx`, before `p_offset` is added. -/
def idx (g : Page) : Nat := (g.virt + (2 ^ 32 - g.phdr.addrStart)) % 2 ^ 32

/-- `read_cnt`, zero where nothing is read. -/
def readCnt (g : Page) : Nat := min 0x1000 (g.phdr.filesz - g.idx)

/-- Where in the file the page is read. -/
def readPos (g : Page) : Nat := (g.idx + g.phdr.offset) % 2 ^ 32

/-- `memset_at` -/
def memsetAt (g : Page) : Nat := if g.phdr.filesz - g.idx > 0x1000 then 0 else g.phdr.filesz - g.idx

/-- The file has the bytes of the page. -/
def Full (content : List (BitVec 8)) (g : Page) : Prop :=
  g.readPos + g.readCnt ≤ content.length ∨ g.readCnt ≤ 0

instance (content : List (BitVec 8)) (g : Page) : Decidable (g.Full content) :=
  inferInstanceAs (Decidable (_ ∨ _))

/-- What is written to a page that is mapped. -/
def fill (content : List (BitVec 8)) (g : Page) (s : Machine) : Except Halt Machine := do
  let s ← putBytes g.virt (chunk content g.readPos g.readCnt) s
  if g.Full content then putBytes (g.virt + g.memsetAt) (List.replicate (0x1000 - g.memsetAt) 0) s
  else .ok s

/-- A page of hmem is allocated and mapped. -/
def map (g : Page) (s : Machine) : Except Halt (Nat × Machine) := do
  let (newPage, s) ← s.hmemAllocPage.mapError .memory
  let s ← mapUserPage g.virt newPage (g.phdr.flags &&& 2 ≠ 0) s
  return (newPage, s)

def load (content : List (BitVec 8)) (g : Page) (s : Machine) : Except Halt Machine := do
  let (_, s) ← g.map s
  g.fill content s

end Page

def loadPages (content : List (BitVec 8)) (l : List Page) (s : Machine) : Except Halt Machine :=
  l.foldlM (fun s g => g.load content s) s

/-- The pages are allocated and mapped, and not filled. -/
def mapPages : List Page → Machine → Except Halt Machine
  | [], s => .ok s
  | g :: l, s => do
    let (_, s) ← g.map s
    mapPages l s

/-- While the pages are mapped kmem stays below hmem. -/
def Clear : List Page → Machine → Prop
  | [], _ => True
  | g :: l, s => ∀ q s', g.map s = .ok (q, s') → s'.kmemPhysEnd ≤ s'.hmemPhysEnd ∧ Clear l s'

/-! ## The plan of a file -/

section Plan

variable (content : List (BitVec 8))

/-- The pages of the page loop, and whether it comes to its end. -/
def loopPlan (p : Phdr) (stop : Nat) : Nat → Nat → Option (List Page × Bool)
  | 0, _ => none
  | fuel + 1, virt =>
    if virt < stop then
      if (Page.mk p virt).Full content then
        (loopPlan p stop fuel ((virt + 0x1000) % 2 ^ 32)).map fun r => (⟨p, virt⟩ :: r.1, r.2)
      else some ([⟨p, virt⟩], false)
    else some ([], true)

def segmentPlan (fuel : Nat) (p : Phdr) : Option (List Page × Bool) :=
  if p.type = 1 then loopPlan content p p.addrEnd fuel p.addrStart else some ([], true)

def phdrPlan (fuel phoff : Nat) : List Nat → Option (List Page × Bool)
  | [] => some ([], true)
  | i :: is =>
    if (phoff + i * sizeofPhdr) % 2 ^ 32 + sizeofPhdr ≤ content.length then
      (segmentPlan content fuel
        (Phdr.parse (chunk content ((phoff + i * sizeofPhdr) % 2 ^ 32) sizeofPhdr))).bind fun r =>
          if r.2 then (phdrPlan fuel phoff is).map fun r' => (r.1 ++ r'.1, r'.2) else some r
    else some ([], false)

def headerPlan (fuel : Nat) (hdr : Ehdr) : Option (List Page × Bool) :=
  if hdr.checkSupported.1 then
    if hdr.phentsize = sizeofPhdr ∧ hdr.phnum < 1000 then
      phdrPlan content fuel hdr.phoff (List.range hdr.phnum)
    else none
  else some ([], false)

/-- The pages that `load_elf` loads, and whether it succeeds; nothing where an assertion on the
header fails or a page loop goes on. -/
def elfPlan (fuel : Nat) : Option (List Page × Bool) :=
  if sizeofEhdr ≤ content.length then headerPlan content fuel
    (Ehdr.parse (chunk content 0 sizeofEhdr))
  else some ([], false)

end Plan

/-- The result of the loader. -/
def planResult (b : Bool) : Except Errno Unit := if b then .ok () else .error .invalid

/-! ## The loader follows the plan -/

section Follows

variable {ρ : Type} {f : FileDesc ρ} {content : List (BitVec 8)}

section

variable (hf : Serves content f)
include hf

theorem fillPage_eq (g : Page) (w : World ρ) : ∃ r,
    fillPage f g.phdr g.phdr.addrStart g.virt w = (g.fill content w.machine).map fun s =>
      (planResult (decide (g.Full content)), { w with machine := s, file := r }) := by
  have hidx : (g.virt + (2 ^ 32 - g.phdr.addrStart)) % 2 ^ 32 = g.idx := rfl
  rw [Page.fill]
  dsimp only [fillPage]
  rw [hidx]
  by_cases hlt : g.idx < g.phdr.filesz
  · have hcnt : (if g.phdr.filesz - g.idx > 0x1000 then 0x1000 else g.phdr.filesz - g.idx) =
        g.readCnt := by
      rw [Page.readCnt]
      split <;> omega
    have hmemset : (if g.phdr.filesz - g.idx > 0x1000 then 0 else g.phdr.filesz - g.idx) =
        g.memsetAt := rfl
    have hpos : (g.idx + g.phdr.offset) % 2 ^ 32 = g.readPos := rfl
    rw [if_pos hlt, hcnt, hmemset, hpos]
    obtain ⟨r, hr⟩ := readLoop_eq hf (splits_putBytes g.virt) g.readPos g.readCnt
      (show g.readCnt - 0 < g.readCnt + 1 by omega) w.machine w.file
    refine ⟨r, ?_⟩
    rw [hr, readSpec, Nat.add_zero, Nat.sub_zero, Nat.add_zero]
    cases putBytes g.virt (chunk content g.readPos g.readCnt) w.machine with
    | error h => rfl
    | ok s =>
      rw [ok_bind, ok_bind]
      have hfull : g.Full content ↔ g.readPos + g.readCnt ≤ content.length ∨ g.readCnt ≤ 0 :=
        Iff.rfl
      by_cases henough : g.readPos + g.readCnt ≤ content.length ∨ g.readCnt ≤ 0
      · rw [if_pos henough, if_pos (hfull.2 henough), decide_eq_true (hfull.2 henough)]
        dsimp only
        cases putBytes (g.virt + g.memsetAt) (List.replicate (0x1000 - g.memsetAt) 0) s with
        | error h => rfl
        | ok s => rfl
      · rw [if_neg henough, if_neg (mt hfull.1 henough), decide_eq_false (mt hfull.1 henough)]
        rfl
  · have hzero : g.phdr.filesz - g.idx = 0 := by omega
    have hcnt : g.readCnt = 0 := by
      rw [Page.readCnt, hzero]
      rfl
    have hmemset : g.memsetAt = 0 := by
      rw [Page.memsetAt, hzero]
      rfl
    have hfull : g.Full content := Or.inr (Nat.le_of_eq hcnt)
    refine ⟨w.file, ?_⟩
    rw [if_neg hlt, hcnt, chunk, List.take_zero, putBytes, ok_bind, if_pos hfull, hmemset,
      decide_eq_true hfull]
    cases putBytes g.virt (List.replicate 0x1000 0) w.machine with
    | error h => rfl
    | ok s => rfl

theorem loadPage_eq (g : Page) (w : World ρ) : ∃ r,
    loadPage f g.phdr g.phdr.addrStart g.virt w = (g.load content w.machine).map fun s =>
      (planResult (decide (g.Full content)), ⟨s, r, w.mapped ++ [g.virt]⟩) := by
  rw [loadPage, Page.load, Page.map]
  cases w.machine.hmemAllocPage with
  | error e => exact ⟨w.file, rfl⟩
  | ok q =>
    obtain ⟨newPage, s⟩ := q
    dsimp only [Except.mapError]
    rw [ok_bind]
    dsimp only
    cases mapUserPage g.virt newPage (g.phdr.flags &&& 2 ≠ 0) s with
    | error h => exact ⟨w.file, rfl⟩
    | ok s => exact fillPage_eq hf g _

end

/-- A part of the loader loads the pages of its part of the plan. -/
def Follows (content : List (BitVec 8)) (x : Except Halt (Except Errno Unit × World ρ))
    (plan : Option (List Page × Bool)) (w : World ρ) : Prop :=
  ∀ e s' m, seen x = .ok (e, s', m) ↔ ∃ l b, plan = some (l, b) ∧
    loadPages content l w.machine = .ok s' ∧ e = planResult b ∧ m = w.mapped ++ l.map Page.virt

theorem seen_eq_ok {x : Except Halt (Except Errno Unit × World ρ)} {e : Except Errno Unit}
    {s : Machine}
    {m : List Nat} :
    seen x = .ok (e, s, m) ↔ ∃ w, x = .ok (e, w) ∧ w.machine = s ∧ w.mapped = m := by
  constructor
  · intro h
    cases x with
    | error _ => cases h
    | ok q =>
      obtain ⟨e', w⟩ := q
      simp only [seen, Except.map, Except.ok.injEq, Prod.mk.injEq] at h
      obtain ⟨rfl, hs, hm⟩ := h
      exact ⟨w, rfl, hs, hm⟩
  · rintro ⟨w, rfl, rfl, rfl⟩
    rfl

theorem loadPages_append {content : List (BitVec 8)} (l l' : List Page) (s : Machine) :
    loadPages content (l ++ l') s = loadPages content l s >>= loadPages content l' := by
  rw [loadPages, List.foldlM_append]
  rfl

theorem follows_nil (w : World ρ) : Follows content (.ok (.ok (), w)) (some ([], true)) w := by
  intro e s' m
  rw [seen_eq_ok]
  constructor
  · rintro ⟨w', h, rfl, rfl⟩
    cases h
    exact ⟨[], true, rfl, rfl, rfl, (List.append_nil _).symm⟩
  · rintro ⟨l, b, h, hs, rfl, rfl⟩
    cases h
    cases hs
    exact ⟨w, rfl, rfl, (List.append_nil _).symm⟩

/-- One part after another. -/
theorem Follows.onward {x : Except Halt (Except Errno Unit × World ρ)}
    {k : World ρ → Except Halt (Except Errno Unit × World ρ)} {P Q : Option (List Page × Bool)}
    {w : World ρ} (hx : Follows content x P w) (hk : ∀ w₁, Follows content (k w₁) Q w₁) :
    Follows content (onward x k)
      (P.bind fun r => if r.2 then Q.map fun r' => (r.1 ++ r'.1, r'.2) else some r) w := by
  intro e s' m
  constructor
  · intro h
    rcases x with halt | ⟨e₁ | _, w₁⟩
    · cases h
    · obtain ⟨l, b, rfl, hs, hb, hm⟩ := (hx _ _ _).1 h
      cases b with
      | false => exact ⟨l, false, rfl, hs, hb, hm⟩
      | true =>
        obtain ⟨w', hw', -, -⟩ := seen_eq_ok.1 h
        rw [hb] at hw'
        cases hw'
    · have h' : seen (k w₁) = .ok (e, s', m) := h
      obtain ⟨l, b, rfl, hs, hb, hm⟩ := (hx _ _ _).1 (seen_eq_ok.2 ⟨w₁, rfl, rfl, rfl⟩)
      cases b with
      | false => cases hb
      | true =>
        obtain ⟨l', b', rfl, hs', rfl, hm'⟩ := (hk w₁ _ _ _).1 h'
        refine ⟨l ++ l', b', rfl, ?_, rfl, ?_⟩
        · rw [loadPages_append, hs]
          exact hs'
        · rw [hm', hm, List.map_append, List.append_assoc]
  · rintro ⟨l, b, hplan, hs, rfl, rfl⟩
    obtain ⟨⟨l₁, b₁⟩, rfl, hrest⟩ := Option.bind_eq_some_iff.1 hplan
    cases b₁ with
    | false =>
      cases hrest
      obtain ⟨w₁, rfl, rfl, hm⟩ := seen_eq_ok.1 ((hx _ _ _).2 ⟨l, false, rfl, hs, rfl, rfl⟩)
      exact seen_eq_ok.2 ⟨w₁, rfl, rfl, hm⟩
    | true =>
      obtain ⟨⟨l₂, b₂⟩, rfl, hr⟩ := Option.map_eq_some_iff.1 hrest
      cases hr
      rw [loadPages_append] at hs
      obtain ⟨s₁, hs₁, hs⟩ := bind_eq_ok.1 hs
      obtain ⟨w₁, rfl, rfl, hm⟩ := seen_eq_ok.1 ((hx _ _ _).2 ⟨l₁, true, rfl, hs₁, rfl, rfl⟩)
      obtain ⟨w₂, hw₂, rfl, hm₂⟩ := seen_eq_ok.1 ((hk w₁ _ _ _).2 ⟨l₂, b₂, rfl, hs, rfl, rfl⟩)
      refine seen_eq_ok.2 ⟨w₂, hw₂, rfl, ?_⟩
      rw [hm₂, hm, List.map_append, List.append_assoc]

section Loops

variable (hf : Serves content f)
include hf

theorem loadPage_follows (g : Page) (w : World ρ) : Follows content
    (loadPage f g.phdr g.phdr.addrStart g.virt w) (some ([g], decide (g.Full content))) w := by
  obtain ⟨r, hr⟩ := loadPage_eq hf g w
  have hload : loadPages content [g] w.machine = g.load content w.machine := by
    rw [loadPages, List.foldlM_cons]
    cases g.load content w.machine with
    | error h => rfl
    | ok s => rfl
  intro e s' m
  rw [hr, seen_eq_ok]
  constructor
  · rintro ⟨w', h, rfl, rfl⟩
    cases hs : g.load content w.machine with
    | error halt =>
      rw [hs] at h
      cases h
    | ok s =>
      rw [hs] at h
      cases h
      exact ⟨[g], _, rfl, hload.trans hs, rfl, rfl⟩
  · rintro ⟨l, b, h, hs, rfl, rfl⟩
    cases h
    rw [hload] at hs
    rw [hs]
    exact ⟨_, rfl, rfl, rfl⟩

theorem pageLoop_follows (p : Phdr) (stop fuel virt : Nat) (w : World ρ) : Follows content
    (pageLoop f p p.addrStart stop fuel virt w) (loopPlan content p stop fuel virt) w := by
  induction fuel generalizing virt w with
  | zero =>
    intro e s' m
    simp [pageLoop, loopPlan, seen, Except.map]
  | succ fuel ih =>
    rw [pageLoop_succ, loopPlan]
    by_cases hlt : virt < stop
    · rw [if_pos hlt, if_pos hlt]
      have hpage := (loadPage_follows hf ⟨p, virt⟩ w).onward (ih ((virt + 0x1000) % 2 ^ 32))
      by_cases hfull : (Page.mk p virt).Full content
      · rw [decide_eq_true hfull] at hpage
        rw [if_pos hfull]
        exact hpage
      · rw [decide_eq_false hfull] at hpage
        rw [if_neg hfull]
        exact hpage
    · rw [if_neg hlt, if_neg hlt]
      exact follows_nil w

theorem loadSegment_follows (fuel : Nat) (p : Phdr) (w : World ρ) : Follows content
    (loadSegment f fuel p w) (segmentPlan content fuel p) w := by
  rw [loadSegment, segmentPlan]
  split
  · exact pageLoop_follows hf p _ fuel _ w
  · exact follows_nil w

omit hf in
theorem follows_error (w : World ρ) :
    Follows content (.ok (.error .invalid, w)) (some ([], false)) w := by
  intro e s' m
  rw [seen_eq_ok]
  constructor
  · rintro ⟨w', h, rfl, rfl⟩
    cases h
    exact ⟨[], false, rfl, rfl, rfl, (List.append_nil _).symm⟩
  · rintro ⟨l, b, h, hs, rfl, rfl⟩
    cases h
    cases hs
    exact ⟨w, rfl, rfl, (List.append_nil _).symm⟩

theorem phdrLoop_follows (fuel phoff : Nat) (is : List Nat) (w : World ρ) : Follows content
    (phdrLoop f fuel phoff is w) (phdrPlan content fuel phoff is) w := by
  induction is generalizing w with
  | nil => exact follows_nil w
  | cons i is ih =>
    obtain ⟨r, hr⟩ := readHeader_eq hf ((phoff + i * sizeofPhdr) % 2 ^ 32)
      (show 0 < sizeofPhdr by decide) w.file
    rw [phdrLoop, phdrPlan, hr]
    by_cases henough : (phoff + i * sizeofPhdr) % 2 ^ 32 + sizeofPhdr ≤ content.length
    · rw [if_pos henough, if_pos henough]
      exact (loadSegment_follows hf fuel _ { w with file := r }).onward ih
    · rw [if_neg henough, if_neg henough]
      exact follows_error { w with file := r }

theorem loadHeader_follows (fuel : Nat) (hdr : Ehdr) (w : World ρ) : Follows content
    (loadHeader f fuel hdr w) (headerPlan content fuel hdr) w := by
  have hhalt (halt : Halt) :
      Follows content (.error halt : Except Halt (Except Errno Unit × World ρ)) none w := by
    intro e s' m
    simp [seen, Except.map]
  rw [loadHeader, headerPlan]
  dsimp only
  by_cases hsupported : hdr.checkSupported.1 = true
  · rw [if_pos hsupported, if_pos hsupported]
    have hsame : hdr.checkSupported.2.phentsize = hdr.phentsize ∧
        hdr.checkSupported.2.phnum = hdr.phnum ∧
        hdr.checkSupported.2.phoff = hdr.phoff := ⟨rfl, rfl, rfl⟩
    rw [hsame.1, hsame.2.1, hsame.2.2]
    by_cases hsize : hdr.phentsize = sizeofPhdr
    · by_cases hnum : hdr.phnum < 1000
      · rw [if_neg (not_not.2 hsize), if_neg (not_not.2 hnum), if_pos ⟨hsize, hnum⟩]
        exact phdrLoop_follows hf fuel _ _ w
      · rw [if_neg (not_not.2 hsize), if_pos hnum, if_neg fun h => hnum h.2]
        exact hhalt .phnum
    · rw [if_pos hsize, if_neg fun h => hsize h.1]
      exact hhalt .phentsize
  · rw [if_neg hsupported, if_neg hsupported]
    exact follows_error w

/-- `load_elf` loads the pages of the plan. -/
theorem loadElf_eq_ok (fuel : Nat) (s : Machine) (r : ρ) (e : Except Errno Unit) (s' : Machine) :
    (∃ entry w, loadElf f fuel ⟨s, r, []⟩ = .ok (e, entry, w) ∧ w.machine = s') ↔
      ∃ l b, elfPlan content fuel = some (l, b) ∧ loadPages content l s = .ok s' ∧
      e = planResult b := by
  obtain ⟨r₁, hr⟩ := readHeader_eq hf 0 (show 0 < sizeofEhdr by decide) r
  rw [Nat.zero_add] at hr
  rw [elfPlan, loadElf, hr]
  by_cases hlength : sizeofEhdr ≤ content.length
  · rw [if_pos hlength, if_pos hlength]
    dsimp only
    have hfollows :=
      loadHeader_follows hf fuel (Ehdr.parse (chunk content 0 sizeofEhdr)) ⟨s, r₁, []⟩
    constructor
    · rintro ⟨entry, w, h, rfl⟩
      cases hload : loadHeader f fuel (Ehdr.parse (chunk content 0 sizeofEhdr)) ⟨s, r₁, []⟩ with
      | error halt =>
        rw [hload] at h
        cases h
      | ok q =>
        obtain ⟨e', w'⟩ := q
        rw [hload] at h
        cases h
        obtain ⟨l, b, hplan, hs, he, -⟩ := (hfollows _ _ _).1 (seen_eq_ok.2 ⟨_, hload, rfl, rfl⟩)
        exact ⟨l, b, hplan, hs, he⟩
    · rintro ⟨l, b, hplan, hs, he⟩
      obtain ⟨w', hw', hs', -⟩ := seen_eq_ok.1 ((hfollows e s' _).2 ⟨l, b, hplan, hs, he, rfl⟩)
      rw [hw']
      exact ⟨_, w', rfl, hs'⟩
  · rw [if_neg hlength, if_neg hlength]
    constructor
    · rintro ⟨entry, w, h, rfl⟩
      cases h
      exact ⟨[], false, rfl, rfl, rfl⟩
    · rintro ⟨l, b, hplan, hs, rfl⟩
      cases hplan
      cases hs
      exact ⟨none, _, rfl, rfl⟩

end Loops

end Follows

end TinyLittleOs.Scheduler
