import TinyLittleOs.Fs.Archive
import TinyLittleOs.Lib.Loops

/-!
# The headers that the scans visit

The loops of `tar_lookup` and `tar_lookup_by_index` over any memory. Pointers have 32 bits: the
memory repeats every 4 GiB, and the address of a pointer is what is left of it.
-/

namespace TinyLittleOs.Fs

open Lib

/-- The memory that pointers of 32 bits see. -/
def flat (mem : BitVec 32 → BitVec 8) : ByteMem := fun x => mem (BitVec.ofNat 32 x)

namespace Tar

/-- The pointer and the number at the start of a round. -/
abbrev Cursor := Nat × BitVec 32

def Cursor.address (x : Cursor) : Nat := x.1 % 2 ^ 32

/-- `tar_lookup` goes past a header. -/
def LookupRound (m : ByteMem) (filename : Str) (x y : Cursor) : Prop :=
  filename.length ≤ 99 ∧ memcmp m (x.1 + 257) ustar = 0 ∧
    ¬ (memcmp m x.1 filename = 0 ∧
      (m (x.1 + filename.length) = 0 ∨ m (x.1 + filename.length) = slash)) ∧
    ∃ fuel i, skipName m fuel x.1 x.2 = some i ∧ y = (nextHeader m x.1, i + 1)

/-- `tar_lookup_by_index` goes past a header. -/
def IndexRound (m : ByteMem) (inode : BitVec 32) (x y : Cursor) : Prop :=
  3 ≤ inode ∧ memcmp m (x.1 + 257) ustar = 0 ∧
    ∃ fuel i, scanName m inode fuel x.1 x.2 = some (.inr i) ∧ y = (nextHeader m x.1, i + 1)

/-- The name field of a header has a null byte. -/
def NulTerminated (m : ByteMem) (x : Cursor) : Prop :=
  memcmp m (x.1 + 257) ustar = 0 → ∃ k < 100, m (x.1 + k) = 0

/-- The blocks of the header at a pointer and of the contents behind it. -/
def blocks (m : ByteMem) (x : Cursor) : Nat := ((filesize m x.1).toNat + 511) / 512 + 1

/-- The header and its contents end below 4 GiB. -/
def Below (m : ByteMem) (x : Cursor) : Prop := x.address + 512 * blocks m x < 2 ^ 32

/-- A call of one of the scans. -/
inductive Scan where
  | lookup (filename : Str)
  | byIndex (inode : BitVec 32)
  deriving DecidableEq

namespace Scan

def Round (m : ByteMem) : Scan → Cursor → Cursor → Prop
  | lookup filename => LookupRound m filename
  | byIndex inode => IndexRound m inode

/-- The call returns. -/
def Returns (m : ByteMem) (archive : Nat) : Scan → Prop
  | lookup filename => Settles (fun fuel _ => tarLookup m archive filename fuel) ()
  | byIndex inode => Settles (fun fuel _ => tarLookupByIndex m archive inode fuel) ()

/-- Every round moves the pointer forward by the header and the rounded contents, without a wrap,
and so to a place where it was not. -/
structure Progress (m : ByteMem) (archive : Nat) (s : Scan) : Prop where
  moves : ∀ x y, Visits (s.Round m) (archive, 3) x → s.Round m x y →
    y.address = x.address + 512 * blocks m x
  once : ∀ x y, Visits (s.Round m) (archive, 3) x → Relation.TransGen (s.Round m) x y →
    x.address < y.address

end Scan

end Tar

open Tar

/-! ## The scan of a name ends -/

section Names

variable {m : ByteMem} {p k fuel : Nat}

theorem skipName_some (hk : m (p + k) = 0) (hf : k < fuel) (i : BitVec 32) :
    ∃ r, skipName m fuel p i = some r := by
  induction k generalizing p fuel i with
  | zero =>
    obtain ⟨fuel, rfl⟩ : ∃ f, fuel = f + 1 := ⟨fuel - 1, by omega⟩
    exact ⟨i, if_pos hk⟩
  | succ k ih =>
    obtain ⟨fuel, rfl⟩ : ∃ f, fuel = f + 1 := ⟨fuel - 1, by omega⟩
    rw [skipName]
    split_ifs
    · exact ⟨_, rfl⟩
    · apply ih _ (by omega)
      rwa [Nat.add_assoc, Nat.add_comm 1 k]
    · apply ih _ (by omega)
      rwa [Nat.add_assoc, Nat.add_comm 1 k]

theorem skipComponent_some (hk : m (p + k) = 0) (hf : k < fuel) :
    ∃ r, skipComponent m fuel p = some r := by
  induction k generalizing p fuel with
  | zero =>
    obtain ⟨fuel, rfl⟩ : ∃ f, fuel = f + 1 := ⟨fuel - 1, by omega⟩
    exact ⟨p, if_neg fun h => h.1 hk⟩
  | succ k ih =>
    obtain ⟨fuel, rfl⟩ : ∃ f, fuel = f + 1 := ⟨fuel - 1, by omega⟩
    rw [skipComponent]
    split_ifs
    · apply ih _ (by omega)
      rwa [Nat.add_assoc, Nat.add_comm 1 k]
    · exact ⟨_, rfl⟩

theorem scanName_some {inode : BitVec 32} (hk : m (p + k) = 0) (hf : k + 1 < fuel) (i : BitVec 32) :
    ∃ r, scanName m inode fuel p i = some r := by
  induction k generalizing p fuel i with
  | zero =>
    obtain ⟨fuel, rfl⟩ : ∃ f, fuel = f + 1 := ⟨fuel - 1, by omega⟩
    exact ⟨_, if_pos hk⟩
  | succ k ih =>
    obtain ⟨fuel, rfl⟩ : ∃ f, fuel = f + 1 := ⟨fuel - 1, by omega⟩
    rw [scanName]
    split_ifs
    · exact ⟨_, rfl⟩
    · obtain ⟨r, hr⟩ := skipComponent_some hk (show k + 1 < fuel by omega)
      rw [hr]
      exact ⟨_, rfl⟩
    · apply ih (by rwa [Nat.add_assoc, Nat.add_comm 1 k]) (by omega)
    · apply ih (by rwa [Nat.add_assoc, Nat.add_comm 1 k]) (by omega)

end Names

/-! ## Fuel -/

section Fuel

variable {m : ByteMem} {inode : BitVec 32} {fuel fuel' : Nat} (hle : fuel ≤ fuel')
include hle

theorem skipComponent_mono {p r : Nat} (h : skipComponent m fuel p = some r) :
    skipComponent m fuel' p = some r := by
  induction fuel generalizing p fuel' with
  | zero => cases h
  | succ fuel ih =>
    obtain ⟨fuel', rfl⟩ : ∃ f, fuel' = f + 1 := ⟨fuel' - 1, by omega⟩
    rw [skipComponent] at h ⊢
    split_ifs at h ⊢
    · exact ih (by omega) h
    · exact h

theorem scanName_mono {p : Nat} {i : BitVec 32} {r : Nat ⊕ BitVec 32}
    (h : scanName m inode fuel p i = some r) : scanName m inode fuel' p i = some r := by
  induction fuel generalizing p i fuel' with
  | zero => cases h
  | succ fuel ih =>
    obtain ⟨fuel', rfl⟩ : ∃ f, fuel' = f + 1 := ⟨fuel' - 1, by omega⟩
    rw [scanName] at h ⊢
    split_ifs at h ⊢
    · exact h
    · obtain ⟨q, hq, rfl⟩ := Option.map_eq_some_iff.1 h
      rw [skipComponent_mono (by omega) hq]
      rfl
    · exact ih (by omega) h
    · exact ih (by omega) h

theorem byIndexLoop_mono {p : Nat} {i : BitVec 32} {r : Except Errno Indexed}
    (h : byIndexLoop m inode fuel p i = some r) : byIndexLoop m inode fuel' p i = some r := by
  induction fuel generalizing p i fuel' with
  | zero => cases h
  | succ fuel ih =>
    obtain ⟨fuel', rfl⟩ : ∃ f, fuel' = f + 1 := ⟨fuel' - 1, by omega⟩
    rw [byIndexLoop] at h ⊢
    by_cases hmagic : memcmp m (p + 257) ustar = 0
    · rw [if_pos hmagic, Option.bind_eq_some_iff] at h ⊢
      obtain ⟨q, hq, hrest⟩ := h
      refine ⟨q, scanName_mono (by omega) hq, ?_⟩
      cases q with
      | inl q => exact hrest
      | inr j => exact ih (by omega) hrest
    · rw [if_neg hmagic] at h ⊢
      exact h

end Fuel

/-! ## Rounds -/

section Rounds

variable {m : ByteMem}

theorem lookupLoop_loops (m : ByteMem) {f : Str} (hf : f.length ≤ 99) :
    Loops (fun fuel (x : Cursor) => lookupLoop m f fuel x.1 x.2) (LookupRound m f) 100
      (NulTerminated m) where
  step fuel x hfuel hnul := by
    rw [lookupLoop]
    dsimp only
    by_cases hmagic : memcmp m (x.1 + 257) ustar = 0
    · rw [if_pos hmagic]
      by_cases hmatch : memcmp m x.1 f = 0 ∧ (m (x.1 + f.length) = 0 ∨ m (x.1 + f.length) = slash)
      · rw [if_pos hmatch]
        exact .inl ⟨_, rfl⟩
      · obtain ⟨k, hk, hzero⟩ := hnul hmagic
        obtain ⟨i, hi⟩ := skipName_some hzero (show k < fuel by omega) x.2
        rw [if_neg hmatch, hi]
        exact .inr ⟨(nextHeader m x.1, i + 1), ⟨hf, hmagic, hmatch, fuel, i, hi, rfl⟩, rfl⟩
    · rw [if_neg hmagic]
      exact .inl ⟨_, rfl⟩
  mono _ _ _ _ hle h := lookupLoop_mono hle h

theorem byIndexLoop_loops (m : ByteMem) {inode : BitVec 32} (hinode : 3 ≤ inode) :
    Loops (fun fuel (x : Cursor) => byIndexLoop m inode fuel x.1 x.2) (IndexRound m inode) 101
      (NulTerminated m) where
  step fuel x hfuel hnul := by
    rw [byIndexLoop]
    by_cases hmagic : memcmp m (x.1 + 257) ustar = 0
    · obtain ⟨k, hk, hzero⟩ := hnul hmagic
      have hsome : ∃ q, scanName m inode fuel x.1 x.2 = some q :=
        scanName_some hzero (by omega) x.2
      obtain ⟨q, hq⟩ := hsome
      rw [if_pos hmagic, hq, Option.bind_some]
      cases q with
      | inl q => exact .inl ⟨_, rfl⟩
      | inr i =>
        exact .inr ⟨(nextHeader m x.1, i + 1), ⟨hinode, hmagic, fuel, i, hq, rfl⟩, rfl⟩
    · rw [if_neg hmagic]
      exact .inl ⟨_, rfl⟩
  mono _ _ _ _ hle h := byIndexLoop_mono hle h

theorem round_next {s : Scan} {x y : Cursor} (h : s.Round m x y) : y.1 = nextHeader m x.1 := by
  cases s with
  | lookup f =>
    obtain ⟨-, -, -, -, i, -, rfl⟩ := h
    rfl
  | byIndex n =>
    obtain ⟨-, -, -, i, -, rfl⟩ := h
    rfl

/-- The step is computed without a wrap. -/
theorem nextHeader_of_below {x : Cursor} (hlt : x.1 < 2 ^ 32) (h : Below m x) :
    Tar.nextHeader m x.1 = x.1 + 512 * blocks m x ∧ x.1 + 512 * blocks m x < 2 ^ 32 := by
  rw [Below, Cursor.address, Nat.mod_eq_of_lt hlt] at h
  refine ⟨?_, h⟩
  rw [Tar.nextHeader, Nat.mul_comm 512]
  rw [blocks] at h ⊢
  congr 1
  have h511 : (511 : BitVec 32).toNat = 511 := rfl
  have h512 : (512 : BitVec 32).toNat = 512 := rfl
  have h1 : (1 : BitVec 32).toNat = 1 := rfl
  rw [BitVec.toNat_mul, BitVec.toNat_add, BitVec.toNat_udiv, BitVec.toNat_add, h511, h512, h1]
  omega

variable {archive : Nat} {s : Scan}

/-- The headers that a scan passes from its start on end below 4 GiB. -/
def AllBelow (m : ByteMem) (archive : Nat) (s : Scan) : Prop :=
  ∀ x y, Visits (s.Round m) (archive, 3) x → s.Round m x y → Below m x

theorem AllBelow.lt (h : AllBelow m archive s) (harchive : archive < 2 ^ 32) {x : Cursor}
    (hx : Visits (s.Round m) (archive, 3) x) : x.1 < 2 ^ 32 := by
  induction hx with
  | refl => exact harchive
  | tail hx hr ih =>
    obtain ⟨hnext, hlt⟩ := nextHeader_of_below ih (h _ _ hx hr)
    rw [round_next hr, hnext]
    exact hlt

/-- What one round does when the header is passed below 4 GiB. -/
theorem AllBelow.moves (h : AllBelow m archive s) (harchive : archive < 2 ^ 32) {x y : Cursor}
    (hx : Visits (s.Round m) (archive, 3) x) (hr : s.Round m x y) :
    y.1 = x.1 + 512 * blocks m x ∧ y.address = x.address + 512 * blocks m x := by
  have hx' := h.lt harchive hx
  obtain ⟨hnext, hlt⟩ := nextHeader_of_below hx' (h _ _ hx hr)
  have hy : y.1 = x.1 + 512 * blocks m x := by rw [round_next hr, hnext]
  refine ⟨hy, ?_⟩
  rw [Cursor.address, Cursor.address, hy, Nat.mod_eq_of_lt hlt, Nat.mod_eq_of_lt hx']

theorem blocks_pos (m : ByteMem) (x : Cursor) : 0 < blocks m x := Nat.succ_pos _

theorem AllBelow.falls (h : AllBelow m archive s) (harchive : archive < 2 ^ 32) :
    Falls (s.Round m) (fun x => 2 ^ 32 - x.1) (archive, 3) := by
  intro x y hx hr
  have hpos := blocks_pos m x
  have hy := (h.moves harchive hx hr).1
  have hlt := h.lt harchive (hx.tail hr)
  dsimp only
  omega

theorem AllBelow.progress (h : AllBelow m archive s) (harchive : archive < 2 ^ 32) :
    s.Progress m archive where
  moves _ _ hx hr := (h.moves harchive hx hr).2
  once x y hx hxy := by
    have hlt := (h.falls harchive).lt hx hxy
    have hx' := h.lt harchive hx
    have hy' := h.lt harchive (hx.trans hxy.to_reflTransGen)
    rw [Cursor.address, Cursor.address, Nat.mod_eq_of_lt hx', Nat.mod_eq_of_lt hy']
    omega

theorem AllBelow.returns (h : AllBelow m archive s) (harchive : archive < 2 ^ 32)
    (hnul : ∀ x, Visits (s.Round m) (archive, 3) x → NulTerminated m x) : s.Returns m archive := by
  cases s with
  | lookup f =>
    by_cases hf : f.length ≤ 99
    · obtain ⟨fuel₀, r, hr⟩ := (lookupLoop_loops m hf).settles hnul (h.falls harchive)
      refine ⟨fuel₀, r, fun fuel hfuel => ?_⟩
      exact (if_neg (by omega)).trans (hr fuel hfuel)
    · exact ⟨0, _, fun fuel _ => if_pos (by omega)⟩
  | byIndex n =>
    by_cases hn : n < 3
    · exact ⟨0, _, fun fuel _ => if_pos hn⟩
    · obtain ⟨fuel₀, r, hr⟩ :=
        (byIndexLoop_loops m (BitVec.not_lt.1 hn)).settles hnul (h.falls harchive)
      refine ⟨fuel₀, r, fun fuel hfuel => ?_⟩
      exact (if_neg hn).trans (hr fuel hfuel)

end Rounds

/-- The scans end, and visit each header once, as long as the sizes stay below 4 GiB. -/
theorem scans_progress_iff (mem : BitVec 32 → BitVec 8) (archive : BitVec 32) (s : Scan)
    (hnul : ∀ x, Visits (s.Round (flat mem)) (archive.toNat, 3) x → NulTerminated (flat mem) x) :
    s.Returns (flat mem) archive.toNat ∧ s.Progress (flat mem) archive.toNat ↔
      AllBelow (flat mem) archive.toNat s := by
  constructor
  · rintro ⟨-, hprogress⟩ x y hx hr
    have hmoves := hprogress.moves x y hx hr
    have hlt : y.address < 2 ^ 32 := Nat.mod_lt _ (by decide)
    rwa [hmoves] at hlt
  · intro h
    exact ⟨h.returns archive.isLt hnul, h.progress archive.isLt⟩

/-- An archive of one file `a`, with any 11 characters as its size. -/
def sized (digits : Str) : BitVec 32 → BitVec 8 := fun p =>
  let x := p.toNat
  if x = 0 then 0x61
  else if 0x7c ≤ x ∧ x < 0x7c + 11 then digits.getD (x - 0x7c) 0
  else if 257 ≤ x then ustar.getD (x - 257) 0
  else 0

theorem scans_progress_sized :
    (Scan.lookup [0x62]).Returns (flat (sized (List.replicate 11 0x30))) 0 ∧
      (Scan.lookup [0x62]).Progress (flat (sized (List.replicate 11 0x30))) 0 := by
  have hvisits : ∀ x, Visits ((Scan.lookup [0x62]).Round (flat (sized (List.replicate 11 0x30))))
      (0, 3) x → x.1 = 0 ∨ x.1 = 512 := by
    intro x hx
    induction hx with
    | refl => exact .inl rfl
    | @tail y z hx hr ih =>
      right
      rcases ih with hy | hy
      · rw [round_next hr, hy]
        decide +kernel
      · obtain ⟨-, hmagic, -⟩ := hr
        rw [hy] at hmagic
        exact absurd hmagic (by decide +kernel)
  refine (scans_progress_iff (sized (List.replicate 11 0x30)) 0 (.lookup [0x62]) ?_).2 ?_
  · intro x hx hmagic
    rcases hvisits x hx with hx | hx
    · exact ⟨1, by decide, by rw [hx]; decide +kernel⟩
    · rw [hx] at hmagic
      exact absurd hmagic (by decide +kernel)
  · intro x y hx hr
    have hzero : x.1 = 0 := by
      rcases hvisits x hx with hx | hx
      · exact hx
      · obtain ⟨-, hmagic, -⟩ := hr
        rw [hx] at hmagic
        exact absurd hmagic (by decide +kernel)
    rw [Below, Cursor.address, blocks, hzero]
    decide +kernel

/-- `37777777000`, which is 2^32 - 512. -/
def hugeSize : Str := [0x33, 0x37, 0x37, 0x37, 0x37, 0x37, 0x37, 0x37, 0x30, 0x30, 0x30]

/-- The step of a header with this size is 0, and the loop does not end. -/
theorem huge_file_loops :
    (∀ x, Visits ((Scan.lookup [0x62]).Round (flat (sized hugeSize))) (0, 3) x →
      NulTerminated (flat (sized hugeSize)) x) ∧
    ∀ fuel, tarLookup (flat (sized hugeSize)) 0 [0x62] fuel = none := by
  have hnext : nextHeader (flat (sized hugeSize)) 0 = 0 := by decide +kernel
  have hloop : ∀ fuel i, lookupLoop (flat (sized hugeSize)) [0x62] fuel 0 i = none := by
    intro fuel
    induction fuel with
    | zero => exact fun _ => rfl
    | succ fuel ih =>
      intro i
      rw [lookupLoop, if_pos (by decide +kernel)]
      dsimp only
      rw [if_neg (by decide +kernel), hnext]
      cases skipName (flat (sized hugeSize)) fuel 0 i with
      | none => rfl
      | some j => exact ih _
  refine ⟨fun x hx => ?_, fun fuel => (if_neg (by decide)).trans (hloop fuel 3)⟩
  have hzero : x.1 = 0 := by
    induction hx with
    | refl => rfl
    | tail hx hr ih => rw [round_next hr, ih, hnext]
  exact fun _ => ⟨1, by decide, by rw [hzero]; decide +kernel⟩

end TinyLittleOs.Fs
