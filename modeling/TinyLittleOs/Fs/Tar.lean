import TinyLittleOs.Lib.ByteMem
import Mathlib.Data.BitVec

/-!
# The tar archive

The scans of `tar.cpp` over the archive in memory. A file name (`string_buf`) is the list of
its bytes. A loop that does not end within the fuel is `none`.
-/

namespace TinyLittleOs.Fs

open Lib

/-- The members of `errno` that the file system returns. -/
inductive Errno where
  | noEntry
  | pathTooLong
  deriving DecidableEq

abbrev Str := List (BitVec 8)

/-- The character `/`. -/
def slash : BitVec 8 := 0x2F

def ustar : Str := [0x75, 0x73, 0x74, 0x61, 0x72]

/-- `memcmp` of the memory at `p` and the bytes of `s`. -/
def memcmp (m : ByteMem) : Nat → Str → Int
  | _, [] => 0
  | p, c :: s => if m p < c then -1 else if c < m p then 1 else memcmp m (p + 1) s

namespace Tar

/-- `parse_oct`, where `n` is the value of the digits before `p`. -/
def parseOct (m : ByteMem) : Nat → Nat → BitVec 32 → BitVec 32
  | _, 0, n => n
  | p, size + 1, n => parseOct m (p + 1) size ((n <<< 3) + ((m p).setWidth 32 - 0x30#32))

/-- The size of the file whose header is at `ptr`. -/
def filesize (m : ByteMem) (ptr : Nat) : BitVec 32 := parseOct m (ptr + 0x7c) 11 0

/-- The header that follows the one at `ptr`. -/
def nextHeader (m : ByteMem) (ptr : Nat) : Nat :=
  ptr + (((filesize m ptr + 511) / 512 + 1) * 512).toNat

/-- What `tar_lookup` stores in its reference parameters. -/
structure Found where
  inode : BitVec 32
  content : Nat
  fileLen : BitVec 32
  deriving DecidableEq

/-- Add 1 to `inode` for each slash up to the null byte. -/
def skipName (m : ByteMem) : Nat → Nat → BitVec 32 → Option (BitVec 32)
  | 0, _, _ => none
  | fuel + 1, slashPtr, inode =>
    if m slashPtr = 0 then some inode
    else skipName m fuel (slashPtr + 1) (if m slashPtr = slash then inode + 1 else inode)

/-- The loop of `tar_lookup`. -/
def lookupLoop (m : ByteMem) (filename : Str) : Nat → Nat → BitVec 32 → Option (Except Errno Found)
  | 0, _, _ => none
  | fuel + 1, ptr, inode =>
    if memcmp m (ptr + 257) ustar = 0 then
      let last := m (ptr + filename.length)
      if memcmp m ptr filename = 0 ∧ (last = 0 ∨ last = slash) then
        some (.ok
          { content := ptr + 512
            fileLen := if last = 0 then filesize m ptr else 0
            inode := filename.foldl (fun i c => if c = slash then i + 1 else i) inode })
      else
        (skipName m fuel ptr inode).bind fun inode =>
          lookupLoop m filename fuel (nextHeader m ptr) (inode + 1)
    else
      some (.error .noEntry)

/-- `tar_lookup` -/
def tarLookup (m : ByteMem) (archive : Nat) (filename : Str) (fuel : Nat) :
    Option (Except Errno Found) :=
  if filename.length > 99 then some (.error .pathTooLong)
  else lookupLoop m filename fuel archive 3

/-- What `tar_lookup_by_index` stores in its reference parameters. -/
structure Indexed where
  filenameLength : Nat
  content : Nat
  fileLen : BitVec 32
  deriving DecidableEq

/-- Keep going until the next slash. -/
def skipComponent (m : ByteMem) : Nat → Nat → Option Nat
  | 0, _ => none
  | fuel + 1, slashPtr =>
    if m slashPtr ≠ 0 ∧ m slashPtr ≠ slash then skipComponent m fuel (slashPtr + 1)
    else some slashPtr

/-- The scan of one name: where the component with number `inode` ends, or the number after
those of the name. -/
def scanName (m : ByteMem) (inode : BitVec 32) :
    Nat → Nat → BitVec 32 → Option (Nat ⊕ BitVec 32)
  | 0, _, _ => none
  | fuel + 1, slashPtr, currInode =>
    if m slashPtr = 0 then some (.inr currInode)
    else if currInode = inode then (skipComponent m fuel slashPtr).map .inl
    else scanName m inode fuel (slashPtr + 1)
    (if m slashPtr = slash then currInode + 1 else currInode)

/-- The loop of `tar_lookup_by_index`. -/
def byIndexLoop (m : ByteMem) (inode : BitVec 32) :
    Nat → Nat → BitVec 32 → Option (Except Errno Indexed)
  | 0, _, _ => none
  | fuel + 1, ptr, currInode =>
    if memcmp m (ptr + 257) ustar = 0 then
      (scanName m inode fuel ptr currInode).bind fun
        | .inl slashPtr => some (.ok
          { filenameLength := slashPtr - ptr
            content := ptr + 512
            fileLen := filesize m ptr })
        | .inr currInode => byIndexLoop m inode fuel (nextHeader m ptr) (currInode + 1)
    else
      some (.error .noEntry)

/-- `tar_lookup_by_index` -/
def tarLookupByIndex (m : ByteMem) (archive : Nat) (inode : BitVec 32) (fuel : Nat) :
    Option (Except Errno Indexed) :=
  if inode < 3 then some (.error .noEntry)
  else byIndexLoop m inode fuel archive 3

end Tar

/-! ## Reading memory -/

/-- The bytes of `s` are at `p`. -/
def HasBytes (m : ByteMem) (p : Nat) (s : Str) : Prop := ∀ i, (h : i < s.length) → m (p + i) = s[i]

instance (m : ByteMem) (p : Nat) (s : Str) : Decidable (HasBytes m p s) :=
  inferInstanceAs (Decidable (∀ i, (h : i < s.length) → m (p + i) = s[i]))

theorem hasBytes_nil (m : ByteMem) (p : Nat) : HasBytes m p [] := fun _ h => by simp at h

theorem hasBytes_cons {m : ByteMem} {p : Nat} {c : BitVec 8} {s : Str} :
    HasBytes m p (c :: s) ↔ m p = c ∧ HasBytes m (p + 1) s := by
  constructor
  · intro h
    refine ⟨h 0 (by simp), fun i hi => ?_⟩
    have hs := h (i + 1) (by simpa using hi)
    rwa [List.getElem_cons_succ, (by omega : p + (i + 1) = p + 1 + i)] at hs
  · rintro ⟨rfl, h⟩ i hi
    cases i with
    | zero => rfl
    | succ i =>
      have hs := h i (by simpa using hi)
      rwa [List.getElem_cons_succ, (by omega : p + (i + 1) = p + 1 + i)]

theorem hasBytes_append {m : ByteMem} {p : Nat} {s t : Str} :
    HasBytes m p (s ++ t) ↔ HasBytes m p s ∧ HasBytes m (p + s.length) t := by
  induction s generalizing p with
  | nil => simp [hasBytes_nil]
  | cons c s ih =>
    rw [List.cons_append, hasBytes_cons, hasBytes_cons, ih, and_assoc, List.length_cons,
      (by omega : p + (s.length + 1) = p + 1 + s.length)]

theorem memcmp_eq_zero {m : ByteMem} {p : Nat} {s : Str} : memcmp m p s = 0 ↔ HasBytes m p s := by
  induction s generalizing p with
  | nil => exact iff_of_true rfl (hasBytes_nil m p)
  | cons c s ih =>
    rw [memcmp, hasBytes_cons, ← ih]
    split_ifs with h h'
    · exact iff_of_false (by decide) fun he => by simp [he.1] at h
    · exact iff_of_false (by decide) fun he => by simp [he.1] at h'
    · have he : m p = c := BitVec.le_antisymm (by simpa using h') (by simpa using h)
      exact (and_iff_right he).symm

/-- Two names at one place, without null bytes, where a null byte ends the second: the first is
the beginning of the second. -/
theorem HasBytes.prefix_of_nul {m : ByteMem} {p : Nat} {s t : Str} (hs : HasBytes m p s)
    (ht : HasBytes m p t) (hend : m (p + t.length) = 0) (h0 : (0 : BitVec 8) ∉ s) : s <+: t := by
  induction s generalizing p t with
  | nil => exact List.nil_prefix
  | cons c s ih =>
    obtain ⟨hc, hs⟩ := hasBytes_cons.1 hs
    cases t with
    | nil =>
      have hzero : c = 0 := hc.symm.trans hend
      simp [hzero] at h0
    | cons d t =>
      obtain ⟨hd, ht⟩ := hasBytes_cons.1 ht
      rw [List.length_cons, (by omega : p + (t.length + 1) = p + 1 + t.length)] at hend
      rw [List.cons_prefix_cons]
      exact ⟨hc.symm.trans hd, ih hs ht hend fun hm => h0 (List.mem_cons_of_mem c hm)⟩

end TinyLittleOs.Fs
