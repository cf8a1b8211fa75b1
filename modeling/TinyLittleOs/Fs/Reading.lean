import TinyLittleOs.Fs.TarFs

/-!
# Reading an open file

`file_desc::read` and `pread` over `tar_read`. A read continues where the last one ended, and a
`pread` leaves the position of the file alone.
-/

namespace TinyLittleOs.Fs

open Lib

namespace Tar

/-- `tar_read`: the result, and the bytes that it puts in the buffer. -/
def tarRead (m : ByteMem) (i : TarInode) (count : BitVec 32) (pos : BitVec 64) : BitVec 32 × Str :=
  let length := i.mContentsLength.setWidth 64
  if length ≤ pos then (0, [])
  else
    let count := if length < pos + count.setWidth 64 then (length - pos).setWidth 32 else count
    (count, bytesAt m (i.mContents + pos.toNat) count.toNat)

/-- The contents of the file. -/
def contents (m : ByteMem) (i : TarInode) : Str := bytesAt m i.mContents i.mContentsLength.toNat

end Tar

namespace FileDesc

/-- `f_read`, from the count and the position to the result and the bytes in the buffer. -/
abbrev FRead := BitVec 32 → BitVec 64 → BitVec 32 × Str

/-- `file_desc::read` -/
def read (fRead : FRead) (f : FileDesc) (count : BitVec 32) : BitVec 32 × Str × FileDesc :=
  let (res, buf) := fRead count f.fPos
  (res, buf, if 0 ≤ res.toInt then { f with fPos := f.fPos + res.signExtend 64 } else f)

/-- `file_desc::pread` -/
def pread (fRead : FRead) (f : FileDesc) (count : BitVec 32) (pos : BitVec 64) :
    BitVec 32 × Str × FileDesc :=
  let (res, buf) := fRead count pos
  (res, buf, f)

end FileDesc

/-- A call to an open file. -/
inductive ReadCall where
  | read (count : BitVec 32)
  | pread (count : BitVec 32) (pos : BitVec 64)
  deriving DecidableEq

/-- An open file, and the bytes that the calls of `read` returned. -/
structure Reader where
  file : FileDesc
  received : Str
  deriving DecidableEq

namespace Reader

open FileDesc

/-- A call returns as many bytes as its result says. -/
def call (fRead : FRead) (y : Reader) : ReadCall → Reader
  | .read count =>
    let (res, buf, file) := y.file.read fRead count
    ⟨file, y.received ++ buf.take res.toNat⟩
  | .pread count pos =>
    let (_, _, file) := y.file.pread fRead count pos
    ⟨file, y.received⟩

/-- The file that `open` makes for an inode, after the calls. -/
def run (fRead : FRead) (owner : Nat) (cs : List ReadCall) : Reader :=
  cs.foldl (call fRead) ⟨{ rc := 1, ownerInode := owner, fPos := 0 }, []⟩

end Reader

/-- The bytes that a call of `read` asks for. -/
def ReadCall.asks : ReadCall → Nat
  | .read count => count.toNat
  | .pread _ _ => 0

/-- What the calls of `read` ask for. -/
def requested (cs : List ReadCall) : Nat := (cs.map ReadCall.asks).sum

section Reading

variable {m : ByteMem} {i : TarInode}

theorem Tar.contents_length : (Tar.contents m i).length = i.mContentsLength.toNat := by
  simp [Tar.contents, Tar.bytesAt]

theorem Tar.bytesAt_drop_take (p n k c : Nat) :
    Tar.bytesAt m (p + k) (min c (n - k)) = ((Tar.bytesAt m p n).drop k).take c := by
  apply List.ext_getElem
  · simp [Tar.bytesAt]
  · intro j hj hj'
    simp [Tar.bytesAt, Nat.add_assoc]

/-- The read is cut at the end of the file. -/
theorem Tar.tarRead_eq (hlen : i.mContentsLength.toNat < 2 ^ 31) (count : BitVec 32)
    (pos : BitVec 64) : ∃ n : BitVec 32,
      Tar.tarRead m i count pos = (n, ((Tar.contents m i).drop pos.toNat).take count.toNat) ∧
      n.toNat = min count.toNat (i.mContentsLength.toNat - pos.toNat) := by
  have hcount := count.isLt
  have hlength : (i.mContentsLength.setWidth 64).toNat = i.mContentsLength.toNat := by
    rw [BitVec.toNat_setWidth]
    omega
  have hread : ∀ n : BitVec 32, n.toNat = min count.toNat (i.mContentsLength.toNat - pos.toNat) →
      ∃ n' : BitVec 32, (n, Tar.bytesAt m (i.mContents + pos.toNat) n.toNat) =
          (n', ((Tar.contents m i).drop pos.toNat).take count.toNat) ∧
        n'.toNat = min count.toNat (i.mContentsLength.toNat - pos.toNat) := by
    intro n hn
    refine ⟨n, ?_, hn⟩
    rw [hn, Tar.bytesAt_drop_take, Tar.contents]
  rw [Tar.tarRead]
  dsimp only
  by_cases hend : i.mContentsLength.setWidth 64 ≤ pos
  · have hle : i.mContentsLength.toNat ≤ pos.toNat := by
      rwa [BitVec.le_def, hlength] at hend
    rw [if_pos hend, List.drop_of_length_le (by rwa [Tar.contents_length]), List.take_nil]
    refine ⟨0, rfl, ?_⟩
    show 0 = _
    omega
  · have hlt : pos.toNat < i.mContentsLength.toNat := by
      rwa [BitVec.le_def, hlength, Nat.not_le] at hend
    rw [if_neg hend]
    apply hread
    by_cases hcut : i.mContentsLength.setWidth 64 < pos + count.setWidth 64
    · rw [if_pos hcut, BitVec.toNat_setWidth, BitVec.toNat_sub, hlength]
      rw [BitVec.lt_def, BitVec.toNat_add, hlength, BitVec.toNat_setWidth] at hcut
      omega
    · rw [if_neg hcut]
      rw [BitVec.lt_def, BitVec.toNat_add, hlength, BitVec.toNat_setWidth] at hcut
      omega

namespace FileDesc

/-- A read returns the bytes at the position and moves it behind them. -/
theorem read_eq (hlen : i.mContentsLength.toNat < 2 ^ 31) {f : FileDesc}
    (hpos : f.fPos.toNat ≤ i.mContentsLength.toNat) (count : BitVec 32) :
    ∃ (n : BitVec 32) (p : BitVec 64),
      f.read (Tar.tarRead m i) count =
        (n, ((Tar.contents m i).drop f.fPos.toNat).take count.toNat, { f with fPos := p }) ∧
      n.toNat = min count.toNat (i.mContentsLength.toNat - f.fPos.toNat) ∧
      p.toNat = f.fPos.toNat + n.toNat := by
  obtain ⟨n, hn, hmin⟩ := Tar.tarRead_eq (m := m) hlen count f.fPos
  have hint : n.toInt = n.toNat := by
    apply BitVec.toInt_eq_toNat_of_lt
    omega
  have hmsb : n.msb = false := by
    rw [BitVec.msb_eq_false_iff_two_mul_lt]
    omega
  refine ⟨n, f.fPos + n.signExtend 64, ?_, hmin, ?_⟩
  · rw [read, hn]
    dsimp only
    rw [if_pos (by omega)]
  · rw [BitVec.signExtend_eq_setWidth_of_msb_false hmsb, BitVec.toNat_add, BitVec.toNat_setWidth]
    omega

end FileDesc

/-- The calls of `read` asked for `k` bytes so far. -/
structure Upto (m : ByteMem) (i : TarInode) (owner k : Nat) (y : Reader) : Prop where
  received : y.received = (Tar.contents m i).take k
  pos : y.file.fPos.toNat = y.received.length
  rc : y.file.rc = 1
  owner : y.file.ownerInode = owner

variable {owner k : Nat} {y : Reader}

theorem Upto.pos_le (h : Upto m i owner k y) : y.file.fPos.toNat ≤ i.mContentsLength.toNat := by
  rw [h.pos, h.received, List.length_take, Tar.contents_length]
  exact Nat.min_le_right _ _

/-- The bytes behind the position are those that were not received. -/
theorem Upto.received_append (h : Upto m i owner k y) (c : Nat) :
    y.received ++ ((Tar.contents m i).drop y.file.fPos.toNat).take c =
      (Tar.contents m i).take (k + c) := by
  rw [h.pos, h.received, List.take_add]
  congr 1
  rw [List.length_take]
  by_cases hk : k ≤ (Tar.contents m i).length
  · rw [Nat.min_eq_left hk]
  · rw [Nat.min_eq_right (by omega), List.drop_length, List.drop_of_length_le (by omega)]

/-- Everything was received when the position is at the end. -/
theorem Upto.received_iff (h : Upto m i owner k y) :
    y.received = Tar.contents m i ↔ i.mContentsLength.toNat ≤ y.file.fPos.toNat := by
  rw [h.pos, ← Tar.contents_length (m := m)]
  constructor
  · intro hall
    rw [hall]
  · intro hle
    have hpre : y.received <+: Tar.contents m i := by
      rw [h.received]
      exact List.take_prefix _ _
    exact hpre.eq_of_length_le hle

theorem Upto.call (hlen : i.mContentsLength.toNat < 2 ^ 31) (h : Upto m i owner k y)
    (c : ReadCall) :
    Upto m i owner (k + c.asks) (y.call (Tar.tarRead m i) c) := by
  cases c with
  | pread count pos => exact ⟨h.received, h.pos, h.rc, h.owner⟩
  | read count =>
    obtain ⟨n, p, hread, hn, hp⟩ := FileDesc.read_eq (m := m) hlen h.pos_le count
    have hbytes := h.received_append count.toNat
    have hres : (((Tar.contents m i).drop y.file.fPos.toNat).take count.toNat).length =
        n.toNat := by
      rw [List.length_take, List.length_drop, Tar.contents_length, hn]
    rw [Reader.call, hread]
    dsimp only [ReadCall.asks]
    rw [List.take_of_length_le (Nat.le_of_eq hres)]
    refine ⟨hbytes, ?_, h.rc, h.owner⟩
    rw [List.length_append, hres, hp, h.pos]

theorem Upto.run (hlen : i.mContentsLength.toNat < 2 ^ 31) (cs : List ReadCall)
    (h : Upto m i owner k y) :
    Upto m i owner (k + requested cs) (cs.foldl (Reader.call (Tar.tarRead m i)) y) := by
  induction cs generalizing k y with
  | nil => exact h
  | cons c cs ih =>
    have hrest := ih (h.call hlen c)
    rwa [Nat.add_assoc] at hrest

/-- The calls of `read` return the file in pieces, and `pread` any part of it. -/
theorem reads_contents (m : ByteMem) (i : TarInode) (hlen : i.mContentsLength.toNat < 2 ^ 31)
    (owner : Nat) (cs : List ReadCall) :
    let y := Reader.run (Tar.tarRead m i) owner cs
    y.received = (Tar.contents m i).take (min (requested cs) i.mContentsLength.toNat) ∧
      y.file.fPos.toNat = y.received.length ∧
      (∀ count, ∃ (res : BitVec 32) (buf : Str) (file : FileDesc),
        y.file.read (Tar.tarRead m i) count = (res, buf, file) ∧ res.toNat = buf.length ∧
          (res = 0 ↔ count = 0 ∨ y.received = Tar.contents m i)) ∧
      ∀ count pos, ∃ res : BitVec 32, y.file.pread (Tar.tarRead m i) count pos =
          (res, ((Tar.contents m i).drop pos.toNat).take count.toNat, y.file) ∧
        res.toNat = min (pos.toNat + count.toNat) i.mContentsLength.toNat - pos.toNat := by
  have hstart : Upto m i owner 0 ⟨{ rc := 1, ownerInode := owner, fPos := 0 }, []⟩ :=
    ⟨rfl, rfl, rfl, rfl⟩
  have h : Upto m i owner (requested cs) (Reader.run (Tar.tarRead m i) owner cs) := by
    have hrun := hstart.run hlen cs
    rwa [Nat.zero_add] at hrun
  refine ⟨?_, h.pos, fun count => ?_, fun count pos => ?_⟩
  · rw [← Tar.contents_length (m := m), ← List.take_eq_take_min]
    exact h.received
  · obtain ⟨n, p, hread, hn, -⟩ := FileDesc.read_eq (m := m) hlen h.pos_le count
    refine ⟨n, _, _, hread, ?_, ?_⟩
    · rw [List.length_take, List.length_drop, Tar.contents_length, hn]
    · rw [h.received_iff, ← BitVec.toNat_inj, ← BitVec.toNat_inj, hn]
      have h0 : (0 : BitVec 32).toNat = 0 := rfl
      omega
  · obtain ⟨n, hread, hn⟩ := Tar.tarRead_eq (m := m) hlen count pos
    refine ⟨n, ?_, by omega⟩
    rw [FileDesc.pread, hread]

/-- A file of three bytes, from the address 512 on. -/
theorem reads_contents_three :
    ((Reader.run (Tar.tarRead (fun x => BitVec.ofNat 8 x) ⟨512, 3, 1⟩) 0
      [.read 2, .pread 1 0, .read 9]).received).length = 3 := by
  obtain ⟨hreceived, -⟩ := reads_contents (fun x => BitVec.ofNat 8 x) ⟨512, 3, 1⟩ (by decide) 0
    [.read 2, .pread 1 0, .read 9]
  rw [hreceived, List.length_take, Tar.contents_length]
  decide

end Reading

/-! ## The length that a read uses -/

/-- The scans report the same length for the entry `e` of the name `f`, that of a file or 0 for a
directory, and a read of a directory returns no bytes. -/
structure SameLength (m : ByteMem) (f : Str) (e : Entry) (r : Tar.Found) (x : Tar.Indexed) :
    Prop where
  lookup : r.fileLen.toNat = if e.name = f then e.size else 0
  byIndex : x.fileLen = r.fileLen
  directory : e.name ≠ f → ∀ count pos,
    Tar.tarRead m ⟨x.content, x.fileLen, x.filenameLength⟩ count pos = (0, [])

/-- `tar_lookup_by_index` has no rule for directories. -/
theorem sameLength_iff {m : ByteMem} {a : Nat} {es : List Entry} (h : Archive m a es) {f : Str}
    (hf : Plain f) {fuel : Nat} {r : Tar.Found} (hr : Tar.tarLookup m a f fuel = some (.ok r)) :
    ∃ u e x, First f es u e ∧
      (∃ fuel₀, ∀ fuel' ≥ fuel₀, Tar.tarLookupByIndex m a r.inode fuel' = some (.ok x) ∧
        ∀ d, (Tar.vfsTar m a fuel').readInodeDisk r.inode d =
          some ⟨x.content, x.fileLen, x.filenameLength⟩) ∧
      (SameLength m f e r x ↔ e.name = f ∨ e.size = 0) := by
  obtain ⟨u, e, hfirst, rfl⟩ := h.first hf.no_nul hr
  obtain ⟨-, -, hindex⟩ := h.byIndex_first hf hfirst
  have hsize : e.size < 2 ^ 32 := by
    obtain ⟨⟨v, rfl⟩, -, -⟩ := hfirst
    have hspace := h.size_lt
    rw [space_append, space_cons, Entry.room] at hspace
    omega
  have hlookup : (foundAt f a 3 u e).fileLen.toNat = if e.name = f then e.size else 0 := by
    show (BitVec.ofNat 32 _).toNat = _
    rw [BitVec.toNat_ofNat, Nat.mod_eq_of_lt]
    split_ifs
    · exact hsize
    · decide
  refine ⟨u, e, _, hfirst, ⟨_, fun fuel' hfuel => ⟨hindex fuel' hfuel, fun d => ?_⟩⟩, ?_⟩
  · simp only [Tar.vfsTar, hindex fuel' hfuel, Option.map_some]
  constructor
  · intro hsame
    by_cases hname : e.name = f
    · exact .inl hname
    · have hlen := hsame.byIndex
      rw [← BitVec.toNat_inj, hlookup, if_neg hname, BitVec.toNat_ofNat,
        Nat.mod_eq_of_lt hsize] at hlen
      exact .inr hlen
  · intro hcond
    refine ⟨hlookup, ?_, fun hname count pos => ?_⟩
    · rw [← BitVec.toNat_inj, hlookup, BitVec.toNat_ofNat, Nat.mod_eq_of_lt hsize]
      split_ifs with hname
      · rfl
      · exact hcond.resolve_left hname
    · rw [hcond.resolve_left hname, Tar.tarRead]
      dsimp only
      rw [if_pos]
      simp [BitVec.le_def]

/-- The directory `a/` before the file `a/b`. -/
def oneDirectory : ByteMem := fun x =>
  if x < 2 then [0x61, 0x2F].getD x 0
  else if 0x7c ≤ x ∧ x < 0x7c + 11 then 0x30
  else if 257 ≤ x ∧ x < 512 then ustar.getD (x - 257) 0
  else if 512 ≤ x then oneFile (x - 512)
  else 0

theorem oneDirectory_archive :
    Archive oneDirectory 0 [⟨[0x61, 0x2F], 0⟩, ⟨[0x61, 0x2F, 0x62], 5⟩] where
  entries :=
    ⟨{ name := by
        unfold HasBytes
        decide
       nul := by decide
       length_le := by decide
       no_nul := by decide
       size := by decide
       size_lt := by decide
       magic := by
        unfold HasBytes
        decide }, by
      unfold ArchiveAt
      exact
       ⟨{ name := by
            unfold HasBytes
            decide
          nul := by decide
          length_le := by decide
          no_nul := by decide
          size := by decide
          size_lt := by decide
          magic := by
            unfold HasBytes
            decide }, by
            unfold ArchiveAt HasBytes
            decide⟩⟩
  size_lt := by decide

theorem First.eq_head {f : Str} {x e : Entry} {es u : List Entry} (h : First f (x :: es) u e)
    (hx : Names f x) : e = x := by
  obtain ⟨v, hsplit⟩ := h.split
  cases u with
  | nil => exact (List.cons.inj hsplit).1.symm
  | cons y u =>
    obtain rfl : x = y := (List.cons.inj hsplit).1
    exact absurd hx (h.others x List.mem_cons_self)

theorem sameLength_oneDirectory : ∃ e r x,
    Tar.tarLookup oneDirectory 0 [0x61] 103 = some (.ok r) ∧ e.name = [0x61, 0x2F] ∧
      SameLength oneDirectory [0x61] e r x := by
  have hplain : Plain [0x61] := ⟨by decide, by decide, by decide⟩
  have hfirst : First [0x61] [⟨[0x61, 0x2F], 0⟩, ⟨[0x61, 0x2F, 0x62], 5⟩] [] ⟨[0x61, 0x2F], 0⟩ :=
    ⟨⟨_, rfl⟩, by decide, by simp⟩
  have hr := tarLookup_first hplain.no_nul oneDirectory_archive (by decide) hfirst (Nat.le_refl _)
  obtain ⟨u, e, x, hfirst', -, hiff⟩ := sameLength_iff oneDirectory_archive hplain hr
  obtain rfl := hfirst'.eq_head hfirst.names
  exact ⟨_, _, x, hr, rfl, hiff.2 (.inr rfl)⟩

/-- The directory `a` of the file `a/b` reads as the file. -/
theorem directory_reads_file : Archive oneFile 0 [⟨[0x61, 0x2F, 0x62], 5⟩] ∧ Plain [0x61] ∧
    ∃ r x, Tar.tarLookup oneFile 0 [0x61] 102 = some (.ok r) ∧ r.fileLen = 0 ∧
      Tar.tarLookupByIndex oneFile 0 r.inode 102 = some (.ok x) ∧ x.fileLen = 5 ∧
      (Tar.tarRead oneFile ⟨x.content, x.fileLen, x.filenameLength⟩ 9 0).1 = 5 := by
  have hplain : Plain [0x61] := ⟨by decide, by decide, by decide⟩
  have hfirst : First [0x61] [⟨[0x61, 0x2F, 0x62], 5⟩] [] ⟨[0x61, 0x2F, 0x62], 5⟩ :=
    ⟨⟨[], rfl⟩, by decide, by simp⟩
  have hr := tarLookup_first hplain.no_nul oneFile_archive (by decide) hfirst (Nat.le_refl _)
  obtain ⟨-, -, hindex⟩ := oneFile_archive.byIndex_first hplain hfirst
  exact ⟨oneFile_archive, hplain, _, _, hr, by decide, hindex _ (Nat.le_refl _), by
    decide, by decide⟩

end TinyLittleOs.Fs
