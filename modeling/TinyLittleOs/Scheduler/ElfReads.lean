import TinyLittleOs.Memory.KmemRuns
import TinyLittleOs.Scheduler.Elf

/-!
# The loader and the bytes of the file

However the reads are split, a read loop gives the next bytes of the file, as many as are asked for
or as are there. So the loader sees the bytes only, and its header check decides on them.
-/

namespace TinyLittleOs.Scheduler

open Lib Memory

/-- `f_read` returns some of the bytes at the position, at least one of them where there is one. -/
def Serves {ρ : Type} (content : List (BitVec 8)) (f : FileDesc ρ) : Prop :=
  ∀ count pos r, 0 < count →
    (pos < content.length → ∃ l, (f.pread count pos r).1 = .bytes l ∧ l ≠ [] ∧ l.length ≤ count ∧
      l <+: content.drop pos) ∧
    (content.length ≤ pos → (f.pread count pos r).1 = .bytes [])

/-- What is read of `size` bytes at `pos`. -/
def chunk (content : List (BitVec 8)) (pos size : Nat) : List (BitVec 8) :=
  (content.drop pos).take size

theorem chunk_length (content : List (BitVec 8)) (pos size : Nat) :
    (chunk content pos size).length = min size (content.length - pos) := by
  rw [chunk, List.length_take, List.length_drop]

/-- A read of a chunk in two parts. -/
theorem chunk_eq_append {content l : List (BitVec 8)} {pos size : Nat} (hl : l <+: content.drop pos)
    (hsize : l.length ≤ size) :
    chunk content pos size = l ++ chunk content (pos + l.length) (size - l.length) := by
  obtain ⟨rest, hrest⟩ := hl
  have hdrop : content.drop (pos + l.length) = rest := by
    rw [← List.drop_drop, ← hrest, List.drop_left]
  rw [chunk, chunk, hdrop, ← hrest, List.take_append, List.take_of_length_le hsize]

/-- The buffer takes the bytes in parts. -/
structure Splits {τ : Type} (put : Nat → List (BitVec 8) → τ → Except Halt τ) : Prop where
  nil : ∀ pos t, put pos [] t = .ok t
  append : ∀ pos l l' t, put pos (l ++ l') t = put pos l t >>= put (pos + l.length) l'

/-- The loop stores the bytes that are there, and succeeds when they are enough. -/
def readSpec {τ ρ : Type} (put : Nat → List (BitVec 8) → τ → Except Halt τ)
    (content : List (BitVec 8)) (base size pos : Nat) (t : τ) (r : ρ) :
    Except Halt (Except Errno Unit × τ × ρ) := do
  let t ← put pos (chunk content (base + pos) (size - pos)) t
  .ok (if base + size ≤ content.length ∨ size ≤ pos then .ok () else .error .invalid, t, r)

theorem readLoop_eq {τ ρ : Type} {f : FileDesc ρ} {content : List (BitVec 8)}
    (hf : Serves content f)
    {put : Nat → List (BitVec 8) → τ → Except Halt τ} (hput : Splits put) (base size : Nat)
    {fuel pos : Nat} (hfuel : size - pos < fuel) (t : τ) (r : ρ) :
    ∃ r', readLoop f put base size fuel pos t r = readSpec put content base size pos t r' := by
  induction fuel generalizing pos t r with
  | zero => exact absurd hfuel (Nat.not_lt_zero _)
  | succ fuel ih =>
    rw [readLoop]
    by_cases hpos : pos < size
    · rw [if_pos hpos]
      have hstep : ∀ k, size - (pos + (k + 1)) < fuel := by
        intro k
        omega
      obtain ⟨hin, hout⟩ := hf (size - pos) (base + pos) r (by omega)
      by_cases hend : base + pos < content.length
      · obtain ⟨l, hl, hne, hlen, hprefix⟩ := hin hend
        obtain ⟨b, l, rfl⟩ := List.exists_cons_of_ne_nil hne
        have hsplit := chunk_eq_append hprefix hlen
        cases hread : f.pread (size - pos) (base + pos) r with
        | mk res r₁ =>
          rw [hread] at hl
          obtain rfl : res = .bytes (b :: l) := hl
          dsimp only
          cases hfirst : put pos (b :: l) t with
          | error h =>
            refine ⟨r, ?_⟩
            rw [readSpec, hsplit, hput.append, hfirst]
            rfl
          | ok t₁ =>
            obtain ⟨r', hr'⟩ := ih (hstep l.length) t₁ r₁
            refine ⟨r', ?_⟩
            dsimp only
            rw [hr', readSpec, readSpec, hsplit, hput.append, hfirst, ok_bind]
            have hnext : base + pos + (b :: l).length = base + (pos + (l.length + 1)) := by
              rw [List.length_cons, Nat.add_assoc]
            have hrest : size - pos - (b :: l).length = size - (pos + (l.length + 1)) := by
              rw [List.length_cons, Nat.sub_sub]
            have hiff : (base + size ≤ content.length ∨ size ≤ pos + (l.length + 1)) ↔
                (base + size ≤ content.length ∨ size ≤ pos) := by
              have hbound := hprefix.length_le
              rw [List.length_drop, List.length_cons] at hbound
              rw [List.length_cons] at hlen
              omega
            rw [hnext, hrest, List.length_cons]
            simp only [hiff]
      · have hl := hout (by omega)
        refine ⟨(f.pread (size - pos) (base + pos) r).2, ?_⟩
        have hnil : chunk content (base + pos) (size - pos) = [] := by
          rw [← List.length_eq_zero_iff, chunk_length]
          omega
        cases hread : f.pread (size - pos) (base + pos) r with
        | mk res r₁ =>
          rw [hread] at hl
          obtain rfl : res = .bytes [] := hl
          rw [readSpec, hnil, hput.nil, ok_bind, if_neg (by omega)]
    · refine ⟨r, ?_⟩
      have hzero : size - pos = 0 := by omega
      rw [if_neg hpos, readSpec, hzero, chunk, List.take_zero, hput.nil, ok_bind,
        if_pos (Or.inr (by omega))]

theorem splits_putBytes (virt : Nat) : Splits fun pos l s => putBytes (virt + pos) l s := by
  refine ⟨fun pos s => rfl, fun pos l l' s => ?_⟩
  rw [← Nat.add_assoc]
  generalize virt + pos = a
  induction l generalizing a s with
  | nil => rfl
  | cons b l ih =>
    rw [List.cons_append, putBytes, putBytes]
    cases s.translate a with
    | none => rfl
    | some phys =>
      dsimp only
      rw [ih, List.length_cons, Nat.add_assoc, Nat.add_comm 1]

theorem splits_append : Splits fun _ l (buf : List (BitVec 8)) => .ok (buf ++ l) := by
  refine ⟨fun pos t => ?_, fun pos l l' t => ?_⟩
  · rw [List.append_nil]
  · rw [ok_bind, List.append_assoc]

/-- A header is read when the file has its bytes. -/
theorem readHeader_eq {ρ : Type} {f : FileDesc ρ} {content : List (BitVec 8)}
    (hf : Serves content f)
    (base : Nat) {size : Nat} (hsize : 0 < size) (r : ρ) :
    ∃ r', readHeader f base size r = .ok (if base + size ≤ content.length then .ok () else
      .error .invalid, chunk content base size, r') := by
  obtain ⟨r', hr'⟩ :=
    readLoop_eq hf splits_append base size (show size - 0 < size + 1 by omega) [] r
  refine ⟨r', ?_⟩
  rw [readHeader, hr', readSpec, ok_bind]
  have hiff : (base + size ≤ content.length ∨ size ≤ 0) ↔ base + size ≤ content.length := by omega
  simp only [hiff, Nat.add_zero, Nat.sub_zero, List.nil_append]

/-- A descriptor that returns at most `k` bytes at once. -/
def limited (content : List (BitVec 8)) (k : Nat) : FileDesc Unit where
  pread count pos _ := (.bytes (chunk content pos (min k count)), ())

theorem serves_limited (content : List (BitVec 8)) {k : Nat} (hk : 0 < k) :
    Serves content (limited content k) := by
  intro count pos r hcount
  refine ⟨fun hpos => ⟨chunk content pos (min k count), rfl, ?_, ?_, List.take_prefix _ _⟩,
    fun hpos => ?_⟩
  · rw [← List.length_pos_iff, chunk_length]
    omega
  · rw [chunk_length]
    omega
  · have hnil : chunk content pos (min k count) = [] := by
      rw [← List.length_eq_zero_iff, chunk_length]
      omega
    simp only [limited, hnil]

/-! ## Two descriptors of one file -/

section Agree

variable {ρ σ : Type} {w : World ρ} {v : World σ}

/-- What is to be seen of a result, apart from the descriptor. -/
def seen {ρ : Type} (x : Except Halt (Except Errno Unit × World ρ)) :
    Except Halt (Except Errno Unit × Machine × List Nat) :=
  x.map fun p => (p.1, p.2.machine, p.2.mapped)

theorem seen_cases {x : Except Halt (Except Errno Unit × World ρ)}
    {y : Except Halt (Except Errno Unit × World σ)} (h : seen x = seen y) :
    (∃ e, x = .error e ∧ y = .error e) ∨
    ∃ e w v, x = .ok (e, w) ∧ y = .ok (e, v) ∧ w.machine = v.machine ∧ w.mapped = v.mapped := by
  cases x with
  | error e =>
    cases y with
    | error e' =>
      cases h
      exact Or.inl ⟨_, rfl, rfl⟩
    | ok q => cases h
  | ok p =>
    cases y with
    | error e' => cases h
    | ok q =>
      obtain ⟨e, w⟩ := p
      obtain ⟨e', v⟩ := q
      simp only [seen, Except.map, Except.ok.injEq, Prod.mk.injEq] at h
      obtain ⟨rfl, hmachine, hmapped⟩ := h
      exact Or.inr ⟨e, w, v, rfl, rfl, hmachine, hmapped⟩

variable {f : FileDesc ρ} {g : FileDesc σ} {content : List (BitVec 8)} {p : Phdr}

section

variable (hf : Serves content f) (hg : Serves content g)
include hf hg

theorem fillPage_seen (addrStart virt : Nat) (hmachine : w.machine = v.machine)
    (hmapped : w.mapped = v.mapped) :
    seen (fillPage f p addrStart virt w) = seen (fillPage g p addrStart virt v) := by
  dsimp only [fillPage]
  split
  · generalize (if p.filesz - (virt + (2 ^ 32 - addrStart)) % 2 ^ 32 > 0x1000 then 0x1000 else
      p.filesz - (virt + (2 ^ 32 - addrStart)) % 2 ^ 32) = readCnt
    generalize ((virt + (2 ^ 32 - addrStart)) % 2 ^ 32 + p.offset) % 2 ^ 32 = idx
    obtain ⟨r, hr⟩ := readLoop_eq hf (splits_putBytes virt) idx readCnt
      (show readCnt - 0 < readCnt + 1 by omega) w.machine w.file
    obtain ⟨r', hr'⟩ := readLoop_eq hg (splits_putBytes virt) idx readCnt
      (show readCnt - 0 < readCnt + 1 by omega) v.machine v.file
    rw [hr, hr', readSpec, readSpec, hmachine]
    cases putBytes (virt + 0) (chunk content (idx + 0) (readCnt - 0)) v.machine with
    | error h => rfl
    | ok s =>
      rw [ok_bind, ok_bind]
      by_cases henough : idx + readCnt ≤ content.length ∨ readCnt ≤ 0
      · rw [if_pos henough]
        dsimp only
        cases putBytes _ _ s with
        | error h => rfl
        | ok s => exact congrArg (fun l => Except.ok (Except.ok (), s, l)) hmapped
      · rw [if_neg henough]
        exact congrArg (fun l => Except.ok (Except.error Errno.invalid, s, l)) hmapped
  · rw [hmachine]
    cases putBytes virt (List.replicate 0x1000 0) v.machine with
    | error h => rfl
    | ok s => exact congrArg (fun l => Except.ok (Except.ok (), s, l)) hmapped

theorem loadPage_seen (addrStart virt : Nat) (hmachine : w.machine = v.machine)
    (hmapped : w.mapped = v.mapped) :
    seen (loadPage f p addrStart virt w) = seen (loadPage g p addrStart virt v) := by
  rw [loadPage, loadPage, hmachine]
  cases v.machine.hmemAllocPage with
  | error e => rfl
  | ok q =>
    dsimp only
    cases mapUserPage virt q.1 (p.flags &&& 2 ≠ 0) q.2 with
    | error h => rfl
    | ok s =>
      apply fillPage_seen hf hg
      · rfl
      · exact congrArg (· ++ [virt]) hmapped

theorem pageLoop_seen (addrStart addrEnd fuel virt : Nat) (hmachine : w.machine = v.machine)
    (hmapped : w.mapped = v.mapped) :
    seen (pageLoop f p addrStart addrEnd fuel virt w) =
      seen (pageLoop g p addrStart addrEnd fuel virt v) := by
  induction fuel generalizing virt w v with
  | zero => rfl
  | succ fuel ih =>
    rw [pageLoop, pageLoop]
    split
    · rcases seen_cases (loadPage_seen hf hg (p := p) addrStart virt hmachine hmapped) with
        ⟨h, hx, hy⟩ | ⟨e, w₁, v₁, hx, hy, hmachine₁, hmapped₁⟩
      · rw [hx, hy]
        rfl
      · rw [hx, hy]
        cases e with
        | error e =>
          simp only [seen, Except.map, hmachine₁, hmapped₁]
        | ok _ => exact ih _ hmachine₁ hmapped₁
    · simp only [seen, Except.map, hmachine, hmapped]

theorem loadSegment_seen (fuel : Nat) (hmachine : w.machine = v.machine)
    (hmapped : w.mapped = v.mapped) :
    seen (loadSegment f fuel p w) = seen (loadSegment g fuel p v) := by
  rw [loadSegment, loadSegment]
  split
  · exact pageLoop_seen hf hg _ _ _ _ hmachine hmapped
  · simp only [seen, Except.map, hmachine, hmapped]

theorem phdrLoop_seen (fuel phoff : Nat) (is : List Nat) (hmachine : w.machine = v.machine)
    (hmapped : w.mapped = v.mapped) :
    seen (phdrLoop f fuel phoff is w) = seen (phdrLoop g fuel phoff is v) := by
  induction is generalizing w v with
  | nil => simp only [phdrLoop, seen, Except.map, hmachine, hmapped]
  | cons i is ih =>
    obtain ⟨r, hr⟩ := readHeader_eq hf ((phoff + i * sizeofPhdr) % 2 ^ 32)
      (show 0 < sizeofPhdr by decide) w.file
    obtain ⟨r', hr'⟩ := readHeader_eq hg ((phoff + i * sizeofPhdr) % 2 ^ 32)
      (show 0 < sizeofPhdr by decide) v.file
    rw [phdrLoop, phdrLoop, hr, hr']
    by_cases henough : (phoff + i * sizeofPhdr) % 2 ^ 32 + sizeofPhdr ≤ content.length
    · rw [if_pos henough]
      dsimp only
      rcases seen_cases (loadSegment_seen hf hg
          (p := Phdr.parse (chunk content ((phoff + i * sizeofPhdr) % 2 ^ 32) sizeofPhdr))
          (w := { w with file := r }) (v := { v with file := r' }) fuel hmachine hmapped) with
        ⟨h, hx, hy⟩ | ⟨e, w₁, v₁, hx, hy, hmachine₁, hmapped₁⟩
      · rw [hx, hy]
        rfl
      · rw [hx, hy]
        cases e with
        | error e => simp only [seen, Except.map, hmachine₁, hmapped₁]
        | ok _ => exact ih hmachine₁ hmapped₁
    · rw [if_neg henough]
      simp only [seen, Except.map, hmachine, hmapped]

theorem loadHeader_seen (fuel : Nat) (hdr : Ehdr) (hmachine : w.machine = v.machine)
    (hmapped : w.mapped = v.mapped) :
    seen (loadHeader f fuel hdr w) = seen (loadHeader g fuel hdr v) := by
  dsimp only [loadHeader]
  split
  · split
    · rfl
    · split
      · rfl
      · exact phdrLoop_seen hf hg fuel _ _ hmachine hmapped
  · simp only [seen, Except.map, hmachine, hmapped]

end

/-- What `load_elf` does does not depend on how the reads are split: it stops the kernel or not,
and the result, the entry, the mapped pages and the machine with all its memory are the same. -/
theorem loadElf_reads (hf : Serves content f) (hg : Serves content g) (fuel : Nat) (s : Machine)
    (l : List Nat) (r : ρ) (r' : σ) :
    (loadElf f fuel ⟨s, r, l⟩).map (fun x => (x.1, x.2.1, x.2.2.machine, x.2.2.mapped)) =
      (loadElf g fuel ⟨s, r', l⟩).map fun x => (x.1, x.2.1, x.2.2.machine, x.2.2.mapped) := by
  obtain ⟨r₁, hr⟩ := readHeader_eq hf 0 (show 0 < sizeofEhdr by decide) r
  obtain ⟨r₁', hr'⟩ := readHeader_eq hg 0 (show 0 < sizeofEhdr by decide) r'
  rw [loadElf, loadElf, hr, hr']
  by_cases henough : 0 + sizeofEhdr ≤ content.length
  · rw [if_pos henough]
    dsimp only
    rcases seen_cases (loadHeader_seen hf hg (w := ⟨s, r₁, l⟩) (v := ⟨s, r₁', l⟩) fuel
        (Ehdr.parse (chunk content 0 sizeofEhdr)) rfl rfl) with
      ⟨h, hx, hy⟩ | ⟨e, w₁, v₁, hx, hy, hmachine, hmapped⟩
    · rw [hx, hy]
      rfl
    · rw [hx, hy]
      simp only [Except.map, hmachine, hmapped]
  · rw [if_neg henough]
    rfl

/-- The header of an executable without segments. -/
def emptyExec (first phentsize : BitVec 8) : List (BitVec 8) :=
  [first, 0x45, 0x4C, 0x46, 1, 1, 1, 0, 0, 0, 0, 0, 0, 0, 0, 0,
    2, 0, 3, 0, 1, 0, 0, 0, 0, 0, 0x10, 0, 52, 0, 0, 0, 0, 0, 0, 0, 0, 0, 0, 0,
    52, 0, phentsize, 0, 0, 0, 0, 0, 0, 0, 0, 0]

/-- An executable with one program header, which follows the header of the file. -/
def oneHeader (phdr : List (BitVec 8)) : List (BitVec 8) := (emptyExec 0x7F 32).set 44 1 ++ phdr

/-- A file with one segment at `0x08048000`: the byte at position 1 and a zero. -/
def twoBytes : List (BitVec 8) :=
  oneHeader [1, 0, 0, 0, 1, 0, 0, 0, 0, 0x80, 4, 8, 0, 0, 0, 0, 1, 0, 0, 0, 2, 0, 0, 0,
    0, 0, 0, 0, 0, 0, 0, 0]

/-- A machine whose directory at 64 KiB names a page table at 68 KiB for the segment. -/
def userTable : Machine :=
  { Client.smallBoot with
    kmemPhysEnd := 0x1A8000
    hmemPhysEnd := 0x210000
    cr3 := 0x10000
    mem := Lib.ByteMem.store32 (fun _ => 0) (0x10000 + 4 * 0x20) (0x11000 ||| prwr ||| user) }

theorem loadElf_reads_twoBytes :
    (loadElf (limited twoBytes 1) 4 ⟨userTable, (), []⟩).map
        (fun x => (x.1, x.2.1, x.2.2.machine, x.2.2.mapped)) =
      (loadElf (limited twoBytes 7) 4 ⟨userTable, (), []⟩).map
        fun x => (x.1, x.2.1, x.2.2.machine, x.2.2.mapped) :=
  loadElf_reads (serves_limited _ (by decide)) (serves_limited _ (by decide)) 4 userTable [] () ()

end Agree

/-! ## The header -/

/-- The header is one of a supported executable. -/
structure Supported (content : List (BitVec 8)) : Prop where
  length : sizeofEhdr ≤ content.length
  magic : content.take 4 = [0x7F, 0x45, 0x4C, 0x46]
  class32 : byteAt content 4 = 1
  order : byteAt content 5 = 1
  version : byteAt content 6 = 1
  machine : half content 18 = 3
  type : half content 16 = 2

/-- What is checked of the header: all but the first byte. -/
structure Passes (content : List (BitVec 8)) : Prop where
  length : sizeofEhdr ≤ content.length
  magic : byteAt content 1 = 0x45 ∧ byteAt content 2 = 0x4C ∧ byteAt content 3 = 0x46
  class32 : byteAt content 4 = 1
  order : byteAt content 5 = 1
  version : byteAt content 6 = 1
  machine : half content 18 = 3
  type : half content 16 = 2

theorem byteAt_chunk (content : List (BitVec 8)) {size i : Nat} (hi : i < size) :
    byteAt (chunk content 0 size) i = byteAt content i := by
  rw [byteAt, byteAt, chunk, List.drop_zero, List.getD_eq_getElem?_getD,
    List.getD_eq_getElem?_getD, List.getElem?_take, if_pos hi]

theorem half_chunk (content : List (BitVec 8)) {size i : Nat} (hi : i + 1 < size) :
    half (chunk content 0 size) i = half content i := by
  rw [half, half, byteAt_chunk content (Nat.lt_of_succ_lt hi), byteAt_chunk content hi]

theorem checkSupported_iff {content : List (BitVec 8)} (hlength : sizeofEhdr ≤ content.length) :
    (Ehdr.parse (chunk content 0 sizeofEhdr)).checkSupported.1 = true ↔ Passes content := by
  have hbyte : ∀ i < 52, byteAt (chunk content 0 sizeofEhdr) i = byteAt content i := by
    intro i hi
    exact byteAt_chunk content hi
  have htype := half_chunk content (show 16 + 1 < sizeofEhdr by decide)
  have hmachine := half_chunk content (show 18 + 1 < sizeofEhdr by decide)
  simp only [Ehdr.checkSupported, Ehdr.checkMagic, Ehdr.parse, Function.update_apply,
    htype, hmachine,
    OfNat.ofNat_ne_zero, if_false, hbyte 1 (by decide), hbyte 2 (by decide),
    hbyte 3 (by decide), hbyte 4 (by decide), hbyte 5 (by decide), hbyte 6 (by decide),
    Bool.and_eq_true, decide_eq_true_eq]
  constructor
  · rintro ⟨⟨⟨⟨⟨⟨⟨⟨-, h₁⟩, h₂⟩, h₃⟩, h₄⟩, h₅⟩, hm⟩, h₆⟩, ht⟩
    exact ⟨hlength, ⟨h₁, h₂, h₃⟩, h₄, h₅, h₆, hm, ht⟩
  · intro h
    obtain ⟨h₁, h₂, h₃⟩ := h.magic
    exact ⟨⟨⟨⟨⟨⟨⟨⟨by decide, h₁⟩, h₂⟩, h₃⟩, h.class32⟩, h.order⟩, h.machine⟩, h.version⟩, h.type⟩

theorem supported_iff {content : List (BitVec 8)} :
    Supported content ↔ byteAt content 0 = 0x7F ∧ Passes content := by
  constructor
  · intro h
    have hmagic : ∀ i < 4, byteAt content i = byteAt [0x7F, 0x45, 0x4C, 0x46] i := by
      intro i hi
      rw [← h.magic, ← List.drop_zero (l := content), ← chunk, byteAt_chunk content hi,
        List.drop_zero]
    exact ⟨hmagic 0 (by decide), h.length, ⟨hmagic 1 (by decide), hmagic 2 (by decide),
      hmagic 3 (by decide)⟩, h.class32, h.order, h.version, h.machine, h.type⟩
  · rintro ⟨h₀, h⟩
    refine ⟨h.length, ?_, h.class32, h.order, h.version, h.machine, h.type⟩
    obtain ⟨h₁, h₂, h₃⟩ := h.magic
    have hlength := h.length
    rcases content with _ | ⟨b₀, _ | ⟨b₁, _ | ⟨b₂, _ | ⟨b₃, l⟩⟩⟩⟩
    · exact absurd hlength (by simp [sizeofEhdr])
    · exact absurd hlength (by simp [sizeofEhdr])
    · exact absurd hlength (by simp [sizeofEhdr])
    · exact absurd hlength (by simp [sizeofEhdr])
    · simp only [List.take_succ_cons, List.take_zero, List.cons.injEq, and_true]
      exact ⟨BitVec.eq_of_toNat_eq h₀, BitVec.eq_of_toNat_eq h₁, BitVec.eq_of_toNat_eq h₂,
        BitVec.eq_of_toNat_eq h₃⟩

/-- `load_elf` goes on to the program headers. -/
def GoesOn {ρ : Type} (f : FileDesc ρ) (w : World ρ) : Prop :=
  ∃ buf r, readHeader f 0 sizeofEhdr w.file = .ok (.ok (), buf, r) ∧
    (Ehdr.parse buf).checkSupported.1 = true

/-- Only a supported header lets `load_elf` go on, and otherwise it returns an error and has
touched neither memory nor the page tables. -/
def ChecksHeader {ρ : Type} (content : List (BitVec 8)) (f : FileDesc ρ) (fuel : Nat)
    (w : World ρ) : Prop :=
  (GoesOn f w → Supported content) ∧
  (¬ Supported content → ∃ e entry w', loadElf f fuel w = .ok (.error e, entry, w') ∧
    w'.machine = w.machine ∧ w'.mapped = w.mapped)

section Header

variable {ρ : Type} {content : List (BitVec 8)} {f : FileDesc ρ} (hf : Serves content f)
include hf

theorem goesOn_iff (w : World ρ) : GoesOn f w ↔ Passes content := by
  obtain ⟨r, hr⟩ := readHeader_eq hf 0 (show 0 < sizeofEhdr by decide) w.file
  rw [Nat.zero_add] at hr
  rw [GoesOn, hr]
  constructor
  · rintro ⟨buf, r', heq, hsupported⟩
    by_cases hlength : sizeofEhdr ≤ content.length
    · rw [if_pos hlength] at heq
      cases heq
      exact (checkSupported_iff hlength).1 hsupported
    · rw [if_neg hlength] at heq
      cases heq
  · intro h
    rw [if_pos h.length]
    exact ⟨_, _, rfl, (checkSupported_iff h.length).2 h⟩

/-- A header that does not pass is an error, and nothing else happens. -/
theorem loadElf_of_not_passes (h : ¬ Passes content) (fuel : Nat) (w : World ρ) :
    ∃ e entry w', loadElf f fuel w = .ok (.error e, entry, w') ∧
      w'.machine = w.machine ∧ w'.mapped = w.mapped := by
  obtain ⟨r, hr⟩ := readHeader_eq hf 0 (show 0 < sizeofEhdr by decide) w.file
  rw [Nat.zero_add] at hr
  rw [loadElf, hr]
  by_cases hlength : sizeofEhdr ≤ content.length
  · have hnot : ¬ (Ehdr.parse (chunk content 0 sizeofEhdr)).checkSupported.1 = true :=
      fun hs => h ((checkSupported_iff hlength).1 hs)
    rw [if_pos hlength]
    dsimp only
    rw [loadHeader]
    dsimp only
    rw [if_neg hnot]
    exact ⟨_, _, _, rfl, rfl, rfl⟩
  · rw [if_neg hlength]
    exact ⟨_, _, _, rfl, rfl, rfl⟩

/-- The header is checked as it should be exactly when its first byte is right or something else
is wrong with it. -/
theorem checksHeader_iff (fuel : Nat) (w : World ρ) :
    ChecksHeader content f fuel w ↔ (byteAt content 0 = 0x7F ∨ ¬ Passes content) := by
  constructor
  · intro h
    by_cases hpasses : Passes content
    · have hsupported := h.1 ((goesOn_iff hf w).2 hpasses)
      exact Or.inl (supported_iff.1 hsupported).1
    · exact Or.inr hpasses
  · intro h
    have hiff : Supported content ↔ Passes content := by
      rw [supported_iff]
      tauto
    refine ⟨fun hgoes => hiff.2 ((goesOn_iff hf w).1 hgoes), fun hnot => ?_⟩
    exact loadElf_of_not_passes hf (fun hpasses => hnot (hiff.2 hpasses)) fuel w

end Header

theorem checksHeader_elf : ChecksHeader (emptyExec 0x7F 32) (limited (emptyExec 0x7F 32) 20) 4
    ⟨Client.smallBoot, (), []⟩ :=
  (checksHeader_iff (serves_limited _ (by decide)) 4 _).2 (Or.inl (by decide))

/-- With `e_ident[0]` zero the file is loaded. -/
theorem loads_without_magic :
    ¬ ChecksHeader (emptyExec 0 32) (limited (emptyExec 0 32) 52) 4 ⟨Client.smallBoot, (), []⟩ ∧
    ∃ w, loadElf (limited (emptyExec 0 32) 52) 4 ⟨Client.smallBoot, (), []⟩ =
      .ok (.ok (), some 0x100000, w) := by
  refine ⟨fun h => ?_, _, rfl⟩
  have hserves := serves_limited (emptyExec 0 32) (show 0 < 52 by decide)
  have hpasses : Passes (emptyExec 0 32) := by
    constructor <;> decide
  have hsupported := h.1 ((goesOn_iff hserves _).2 hpasses)
  exact absurd hsupported.magic (by decide)

end TinyLittleOs.Scheduler
