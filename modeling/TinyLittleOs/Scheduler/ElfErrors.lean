import TinyLittleOs.Scheduler.ElfPages

/-!
# The errors of the loader

`load_elf`, with a list of its calls of `hmem_alloc_page` and `hmem_free_page`. It does what the
loader does, and the list says which pages an error leaves behind.
-/

namespace TinyLittleOs.Scheduler

open Memory

/-- The pages that `hmem_alloc_page` returned, and those that `hmem_free_page` was given. -/
structure HmemCalls where
  allocated : List Nat
  freed : List Nat

/-- The world and the calls so far. -/
abbrev Traced (ρ : Type) := Except Halt (Except Errno Unit × World ρ × HmemCalls)

section Trace

variable {ρ : Type} (f : FileDesc ρ)

def tracedPage (p : Phdr) (addrStart virt : Nat) (w : World ρ) (t : HmemCalls) : Traced ρ :=
  match w.machine.hmemAllocPage with
  | .error e => .error (.memory e)
  | .ok (newPage, s) =>
    match mapUserPage virt newPage (p.flags &&& 2 ≠ 0) s with
    | .error h => .error h
    | .ok s =>
      match fillPage f p addrStart virt { w with machine := s, mapped := w.mapped ++ [virt] } with
      | .error h => .error h
      | .ok (e, w) => .ok (e, w, { t with allocated := t.allocated ++ [newPage] })

def tracedPageLoop (p : Phdr) (addrStart addrEnd : Nat) :
    Nat → Nat → World ρ → HmemCalls → Traced ρ
  | 0, _, _, _ => .error .fuel
  | fuel + 1, virt, w, t =>
    if virt < addrEnd then
      match tracedPage f p addrStart virt w t with
      | .error h => .error h
      | .ok (.error e, w, t) => .ok (.error e, w, t)
      | .ok (.ok (), w, t) =>
        tracedPageLoop p addrStart addrEnd fuel ((virt + 0x1000) % 2 ^ 32) w t
    else .ok (.ok (), w, t)

def tracedSegment (fuel : Nat) (p : Phdr) (w : World ρ) (t : HmemCalls) : Traced ρ :=
  if p.type = 1 then tracedPageLoop f p p.addrStart p.addrEnd fuel p.addrStart w t
  else .ok (.ok (), w, t)

def tracedPhdrLoop (fuel phoff : Nat) : List Nat → World ρ → HmemCalls → Traced ρ
  | [], w, t => .ok (.ok (), w, t)
  | i :: is, w, t =>
    match readHeader f ((phoff + i * sizeofPhdr) % 2 ^ 32) sizeofPhdr w.file with
    | .error h => .error h
    | .ok (.error e, _, r) => .ok (.error e, { w with file := r }, t)
    | .ok (.ok (), buf, r) =>
      match tracedSegment f fuel (Phdr.parse buf) { w with file := r } t with
      | .error h => .error h
      | .ok (.error e, w, t) => .ok (.error e, w, t)
      | .ok (.ok (), w, t) => tracedPhdrLoop fuel phoff is w t

def tracedHeader (fuel : Nat) (hdr : Ehdr) (w : World ρ) (t : HmemCalls) : Traced ρ :=
  let (supported, hdr) := hdr.checkSupported
  if supported then
    if hdr.phentsize ≠ sizeofPhdr then .error .phentsize
    else if ¬ hdr.phnum < 1000 then .error .phnum
    else tracedPhdrLoop f fuel hdr.phoff (List.range hdr.phnum) w t
  else .ok (.error .invalid, w, t)

/-- `load_elf` -/
def tracedElf (fuel : Nat) (w : World ρ) :
    Except Halt (Except Errno Unit × Option Nat × World ρ × HmemCalls) :=
  match readHeader f 0 sizeofEhdr w.file with
  | .error h => .error h
  | .ok (.error e, _, r) => .ok (.error e, none, { w with file := r }, ⟨[], []⟩)
  | .ok (.ok (), buf, r) =>
    match tracedHeader f fuel (Ehdr.parse buf) { w with file := r } ⟨[], []⟩ with
    | .error h => .error h
    | .ok (e, w, t) => .ok (e, some (Ehdr.parse buf).entry, w, t)

end Trace

/-! ## The list changes nothing -/

section Untraced

variable {ρ : Type} (f : FileDesc ρ)

/-- Without the calls. -/
def untraced (x : Traced ρ) : Except Halt (Except Errno Unit × World ρ) :=
  x.map fun y => (y.1, y.2.1)

theorem tracedPage_untraced (p : Phdr) (addrStart virt : Nat) (w : World ρ) (t : HmemCalls) :
    untraced (tracedPage f p addrStart virt w t) = loadPage f p addrStart virt w := by
  rw [tracedPage, loadPage]
  rcases w.machine.hmemAllocPage with e | ⟨newPage, s⟩
  · rfl
  · dsimp only
    rcases mapUserPage virt newPage (p.flags &&& 2 ≠ 0) s with h | s
    · rfl
    · dsimp only
      rcases fillPage f p addrStart virt { w with machine := s, mapped := w.mapped ++ [virt] } with
        h | ⟨e, w⟩
      · rfl
      · rfl

theorem tracedPageLoop_untraced (p : Phdr) (addrStart addrEnd fuel virt : Nat) (w : World ρ)
    (t : HmemCalls) : untraced (tracedPageLoop f p addrStart addrEnd fuel virt w t) =
      pageLoop f p addrStart addrEnd fuel virt w := by
  induction fuel generalizing virt w t with
  | zero => rfl
  | succ fuel ih =>
    rw [tracedPageLoop, pageLoop, ← tracedPage_untraced f p addrStart virt w t]
    split_ifs
    · rcases tracedPage f p addrStart virt w t with h | ⟨e | _, w, t⟩
      · rfl
      · rfl
      · exact ih _ w t
    · rfl

theorem tracedSegment_untraced (fuel : Nat) (p : Phdr) (w : World ρ) (t : HmemCalls) :
    untraced (tracedSegment f fuel p w t) = loadSegment f fuel p w := by
  rw [tracedSegment, loadSegment]
  split_ifs
  · exact tracedPageLoop_untraced f p _ _ fuel _ w t
  · rfl

theorem tracedPhdrLoop_untraced (fuel phoff : Nat) (is : List Nat) (w : World ρ) (t : HmemCalls) :
    untraced (tracedPhdrLoop f fuel phoff is w t) = phdrLoop f fuel phoff is w := by
  induction is generalizing w t with
  | nil => rfl
  | cons i is ih =>
    rw [tracedPhdrLoop, phdrLoop]
    rcases readHeader f ((phoff + i * sizeofPhdr) % 2 ^ 32) sizeofPhdr w.file with
      h | ⟨e | _, buf, r⟩
    · rfl
    · rfl
    · dsimp only
      rw [← tracedSegment_untraced f fuel (Phdr.parse buf) { w with file := r } t]
      rcases tracedSegment f fuel (Phdr.parse buf) { w with file := r } t with h | ⟨e | _, w, t⟩
      · rfl
      · rfl
      · exact ih w t

/-- The loader with the list of its calls is the loader. -/
theorem tracedElf_untraced (fuel : Nat) (w : World ρ) :
    (tracedElf f fuel w).map (fun x => (x.1, x.2.1, x.2.2.1)) = loadElf f fuel w := by
  rw [tracedElf, loadElf]
  rcases readHeader f 0 sizeofEhdr w.file with h | ⟨e | _, buf, r⟩
  · rfl
  · rfl
  · have hheader : untraced (tracedHeader f fuel (Ehdr.parse buf) { w with file := r } ⟨[], []⟩) =
        loadHeader f fuel (Ehdr.parse buf) { w with file := r } := by
      dsimp only [tracedHeader, loadHeader]
      split_ifs
      · rfl
      · exact tracedPhdrLoop_untraced f fuel _ _ _ _
      · rfl
      · rfl
    dsimp only
    rw [← hheader]
    rcases tracedHeader f fuel (Ehdr.parse buf) { w with file := r } ⟨[], []⟩ with h | ⟨e, w, t⟩
    · rfl
    · rfl

end Untraced

/-! ## What an error leaves behind -/

/-- Every page that was allocated has been given back, and the user half is mapped as before. -/
structure Undone {ρ : Type} (w w' : World ρ) (t : HmemCalls) : Prop where
  pages : ∀ page ∈ t.allocated, page ∈ t.freed
  user : ∀ virt < 0xC0000000, w'.machine.translate virt = w.machine.translate virt

/-- Of the program headers that are in the file, one is of a segment with pages. -/
def HasPages {ρ : Type} (f : FileDesc ρ) (phoff : Nat) : List Nat → ρ → Prop
  | [], _ => False
  | i :: is, r => ∃ buf r',
    readHeader f ((phoff + i * sizeofPhdr) % 2 ^ 32) sizeofPhdr r = .ok (.ok (), buf, r') ∧
    ((Phdr.parse buf).type = 1 ∧ (Phdr.parse buf).addrStart < (Phdr.parse buf).addrEnd ∨
      HasPages f phoff is r')

/-- The header is accepted, and a segment with pages comes before the headers end. -/
def ReachesPages {ρ : Type} (f : FileDesc ρ) (r : ρ) : Prop := ∃ buf r',
  readHeader f 0 sizeofEhdr r = .ok (.ok (), buf, r') ∧ (Ehdr.parse buf).checkSupported.1 = true ∧
    HasPages f (Ehdr.parse buf).phoff (List.range (Ehdr.parse buf).phnum) r'

/-- Pages were allocated, and none given back. -/
def HmemCalls.Grows (t t' : HmemCalls) : Prop :=
  t'.freed = t.freed ∧ t.allocated.length < t'.allocated.length

theorem HmemCalls.Grows.trans {t t' t'' : HmemCalls} (h : t.Grows t')
    (h' : t' = t'' ∨ t'.Grows t'') :
    t.Grows t'' := by
  rcases h' with rfl | h'
  · exact h
  · exact ⟨h'.1.trans h.1, Nat.lt_trans h.2 h'.2⟩

section Errors

variable {ρ : Type} {f : FileDesc ρ} {p : Phdr} {w w' : World ρ} {t t' : HmemCalls}
  {e : Except Errno Unit} {fuel : Nat}

theorem tracedPage_grows {addrStart virt : Nat}
    (h : tracedPage f p addrStart virt w t = .ok (e, w', t')) : t.Grows t' := by
  rw [tracedPage] at h
  split at h
  · cases h
  · split at h
    · cases h
    · split at h
      · cases h
      · cases h
        exact ⟨rfl, by simp⟩

theorem tracedPageLoop_grows {addrStart addrEnd virt : Nat}
    (h : tracedPageLoop f p addrStart addrEnd fuel virt w t = .ok (e, w', t')) :
    if virt < addrEnd then t.Grows t' else w' = w ∧ t' = t ∧ e = .ok () := by
  induction fuel generalizing virt w t with
  | zero => cases h
  | succ fuel ih =>
    rw [tracedPageLoop] at h
    split_ifs at h ⊢ with hvirt
    · split at h
      · cases h
      · cases h
        exact tracedPage_grows ‹_›
      · refine (tracedPage_grows ‹_›).trans ?_
        have hrest := ih h
        split_ifs at hrest
        · exact .inr hrest
        · exact .inl hrest.2.1.symm
    · cases h
      exact ⟨rfl, rfl, rfl⟩

theorem tracedSegment_grows (h : tracedSegment f fuel p w t = .ok (e, w', t')) :
    if p.type = 1 ∧ p.addrStart < p.addrEnd then t.Grows t' else w' = w ∧ t' = t ∧ e = .ok () := by
  rw [tracedSegment] at h
  by_cases htype : p.type = 1
  · rw [if_pos htype] at h
    have hloop := tracedPageLoop_grows h
    simpa [htype] using hloop
  · rw [if_neg htype] at h
    cases h
    rw [if_neg fun hboth => htype hboth.1]
    exact ⟨rfl, rfl, rfl⟩

theorem tracedPhdrLoop_grows {phoff : Nat} {is : List Nat}
    (h : tracedPhdrLoop f fuel phoff is w t = .ok (e, w', t')) :
    HasPages f phoff is w.file ∧ t.Grows t' ∨
      ¬ HasPages f phoff is w.file ∧ w'.machine = w.machine ∧ t' = t := by
  induction is generalizing w t with
  | nil =>
    cases h
    exact .inr ⟨fun hpages => hpages, rfl, rfl⟩
  | cons i is ih =>
    rw [tracedPhdrLoop] at h
    cases hread : readHeader f ((phoff + i * sizeofPhdr) % 2 ^ 32) sizeofPhdr w.file with
    | error halt =>
      rw [hread] at h
      cases h
    | ok x =>
      obtain ⟨e' | _, buf, r⟩ := x
      · rw [hread] at h
        cases h
        refine .inr ⟨?_, rfl, rfl⟩
        rintro ⟨buf', r', hread', -⟩
        rw [hread] at hread'
        cases hread'
      · have hiff : HasPages f phoff (i :: is) w.file ↔
            ((Phdr.parse buf).type = 1 ∧ (Phdr.parse buf).addrStart < (Phdr.parse buf).addrEnd ∨
              HasPages f phoff is r) := by
          constructor
          · rintro ⟨buf', r', hread', hpages⟩
            rw [hread] at hread'
            cases hread'
            exact hpages
          · exact fun hpages => ⟨buf, r, hread, hpages⟩
        rw [hread] at h
        dsimp only at h
        rw [hiff]
        cases hsegment : tracedSegment f fuel (Phdr.parse buf) { w with file := r } t with
        | error halt =>
          rw [hsegment] at h
          cases h
        | ok y =>
          obtain ⟨e₁, w₁, t₁⟩ := y
          rw [hsegment] at h
          have hgrows := tracedSegment_grows hsegment
          split_ifs at hgrows with hpages
          · refine .inl ⟨.inl hpages, ?_⟩
            cases e₁ with
            | error e' =>
              cases h
              exact hgrows
            | ok _ =>
              apply hgrows.trans
              rcases ih h with ⟨-, hrest⟩ | ⟨-, -, hrest⟩
              · exact .inr hrest
              · exact .inl hrest.symm
          · obtain ⟨rfl, rfl, rfl⟩ := hgrows
            rcases ih h with ⟨hrest, hgrows⟩ | ⟨hrest, hmachine, ht⟩
            · exact .inl ⟨.inr hrest, hgrows⟩
            · exact .inr ⟨fun hor => hor.elim hpages hrest, hmachine, ht⟩

/-- The calls of a run of the loader. -/
theorem tracedElf_grows {entry : Option Nat} (h : tracedElf f fuel w = .ok (e, entry, w', t)) :
    ReachesPages f w.file ∧ HmemCalls.Grows ⟨[], []⟩ t ∨
      ¬ ReachesPages f w.file ∧ w'.machine = w.machine ∧ t = ⟨[], []⟩ := by
  rw [tracedElf] at h
  cases hread : readHeader f 0 sizeofEhdr w.file with
  | error halt =>
    rw [hread] at h
    cases h
  | ok x =>
    obtain ⟨e' | _, buf, r⟩ := x
    · rw [hread] at h
      cases h
      refine .inr ⟨?_, rfl, rfl⟩
      rintro ⟨buf', r', hread', -⟩
      rw [hread] at hread'
      cases hread'
    · have hiff : ReachesPages f w.file ↔ (Ehdr.parse buf).checkSupported.1 = true ∧
          HasPages f (Ehdr.parse buf).phoff (List.range (Ehdr.parse buf).phnum) r := by
        constructor
        · rintro ⟨buf', r', hread', hpages⟩
          rw [hread] at hread'
          cases hread'
          exact hpages
        · exact fun hpages => ⟨buf, r, hread, hpages⟩
      rw [hread] at h
      dsimp only at h
      rw [hiff]
      cases hheader : tracedHeader f fuel (Ehdr.parse buf) { w with file := r } ⟨[], []⟩ with
      | error halt =>
        rw [hheader] at h
        cases h
      | ok y =>
        obtain ⟨e₁, w₁, t₁⟩ := y
        rw [hheader] at h
        cases h
        dsimp only [tracedHeader] at hheader
        split_ifs at hheader with hsupported
        · rcases tracedPhdrLoop_grows hheader with ⟨hpages, hgrows⟩ | ⟨hpages, hmachine, ht⟩
          · exact .inl ⟨⟨hsupported, hpages⟩, hgrows⟩
          · exact .inr ⟨fun hboth => hpages hboth.2, hmachine, ht⟩
        · cases hheader
          exact .inr ⟨fun hboth => hsupported hboth.1, rfl, rfl⟩

/-- An error is undone exactly when it comes before the first page. -/
theorem loadElf_undone_iff {err : Errno} {entry : Option Nat}
    (h : loadElf f fuel w = .ok (.error err, entry, w')) :
    ∃ t, tracedElf f fuel w = .ok (.error err, entry, w', t) ∧
      (Undone w w' t ↔ ¬ ReachesPages f w.file) := by
  rw [← tracedElf_untraced] at h
  cases htrace : tracedElf f fuel w with
  | error halt =>
    rw [htrace] at h
    cases h
  | ok x =>
    obtain ⟨e, entry, w₁, t⟩ := x
    rw [htrace] at h
    cases h
    refine ⟨t, rfl, ?_⟩
    rcases tracedElf_grows htrace with ⟨hreaches, hfreed, hlength⟩ | ⟨hreaches, hmachine, rfl⟩
    · refine iff_of_false (fun hundone => ?_) (not_not_intro hreaches)
      obtain ⟨page, hpage⟩ :=
        List.exists_mem_of_length_pos (Nat.lt_of_le_of_lt (Nat.zero_le _) hlength)
      have hback := hundone.pages page hpage
      rw [hfreed] at hback
      cases hback
    · refine iff_of_true ⟨?_, ?_⟩ hreaches
      · intro page hpage
        cases hpage
      · intro virt _
        rw [hmachine]

end Errors

/-- The program header is missing. -/
theorem loadElf_undone_truncated : ∃ entry w' t,
    tracedElf (limited (oneHeader []) 100) 4 ⟨Client.smallBoot, (), []⟩ =
      .ok (.error .invalid, entry, w', t) ∧ Undone ⟨Client.smallBoot, (), []⟩ w' t := by
  have hrun : ∃ entry w', loadElf (limited (oneHeader []) 100) 4 ⟨Client.smallBoot, (), []⟩ =
      .ok (.error .invalid, entry, w') := ⟨_, _, rfl⟩
  obtain ⟨entry, w', hrun⟩ := hrun
  obtain ⟨t, htrace, hiff⟩ := loadElf_undone_iff hrun
  refine ⟨entry, w', t, htrace, hiff.2 ?_⟩
  rintro ⟨buf, r, hread, -, hpages⟩
  cases hread
  obtain ⟨buf, r, hread, -⟩ := hpages
  cases hread

/-- A segment at `0x08048000` of 16 bytes, which are behind the end of the file. -/
def missingBytes : List (BitVec 8) :=
  [1, 0, 0, 0, 84, 0, 0, 0, 0x00, 0x80, 0x04, 0x08, 0, 0, 0, 0, 16, 0, 0, 0, 16, 0, 0, 0,
    0, 0, 0, 0, 0, 0, 0, 0]

/-- The page of a truncated segment stays allocated and mapped. -/
theorem truncated_segment_leaks : ∃ entry w' t,
    tracedElf (limited (oneHeader missingBytes) 100) 4 ⟨userTable, (), []⟩ =
      .ok (.error .invalid, entry, w', t) ∧
    t.allocated = [0x20F000] ∧ t.freed = [] ∧ userTable.translate 0x08048000 = none ∧
    w'.machine.translate 0x08048000 = some 0x20F000 ∧ ¬ Undone ⟨userTable, (), []⟩ w' t := by
  have hrun : (tracedElf (limited (oneHeader missingBytes) 100) 4 ⟨userTable, (), []⟩).map
      (fun x => (x.1, x.2.2.2.allocated, x.2.2.2.freed, x.2.2.1.machine.translate 0x08048000)) =
        .ok (.error .invalid, [0x20F000], [], some 0x20F000) := by decide +kernel
  cases htrace : tracedElf (limited (oneHeader missingBytes) 100) 4 ⟨userTable, (), []⟩ with
  | error halt =>
    rw [htrace] at hrun
    cases hrun
  | ok x =>
    obtain ⟨e, entry, w', t⟩ := x
    rw [htrace] at hrun
    simp only [Except.map, Except.ok.injEq, Prod.mk.injEq] at hrun
    obtain ⟨rfl, halloc, hfreed, hmapped⟩ := hrun
    refine ⟨entry, w', t, rfl, halloc, hfreed, by decide +kernel, hmapped, fun hundone => ?_⟩
    have hback := hundone.pages 0x20F000 (by rw [halloc]; exact List.mem_singleton_self _)
    rw [hfreed] at hback
    cases hback

end TinyLittleOs.Scheduler
