import TinyLittleOs.Fs.Counts
import TinyLittleOs.Fs.Reading

/-!
# Images of files

What an archiver writes for some files: for each a header and its contents, padded to blocks, and
then an empty block. A path of the mounted image leads to the contents of the first file of its
name.
-/

namespace TinyLittleOs.Fs

open Lib Function Forest

/-- A file that fits in an archive. -/
structure File where
  name : Str
  content : Str
  length_le : name.length ≤ 99
  no_nul : (0 : BitVec 8) ∉ name
  size_lt : content.length < 8 ^ 11

def zeros (n : Nat) : Str := List.replicate n 0

/-- The 11 octal digits of a size. -/
def octal (size : Nat) : Str :=
  (List.range 11).map fun i => BitVec.ofNat 8 (0x30 + size / 8 ^ (10 - i) % 8)

namespace File

def entry (f : File) : Entry := ⟨f.name, f.content.length⟩

def header (f : File) : Str :=
  f.name ++ zeros (0x7c - f.name.length) ++ octal f.content.length ++ zeros 122 ++
    ustar ++ zeros 250

/-- The header, and the contents in blocks of 512 bytes. -/
def blocks (f : File) : Str :=
  f.header ++ f.content ++ zeros ((f.content.length + 511) / 512 * 512 - f.content.length)

end File

def image (files : List File) : Str := files.flatMap File.blocks ++ zeros 512

/-- The memory that holds some bytes, at their positions. -/
def memoryOf (bytes : Str) : ByteMem := fun x => bytes.getD x 0

theorem hasBytes_memoryOf (bytes : Str) : HasBytes (memoryOf bytes) 0 bytes := by
  intro i hi
  rw [memoryOf, Nat.zero_add, List.getD_eq_getElem?_getD, List.getElem?_eq_getElem hi,
    Option.getD_some]

/-! ## What the scans find -/

theorem zeros_length (n : Nat) : (zeros n).length = n := List.length_replicate

theorem HasBytes.zero {m : ByteMem} {p n : Nat} (h : HasBytes m p (zeros n)) {i : Nat}
    (hi : i < n) :
    m (p + i) = 0 := by
  have hlt : i < (zeros n).length := by rwa [zeros_length]
  rw [h i hlt]
  exact List.getElem_replicate _

namespace File

theorem header_length (f : File) : f.header.length = 512 := by
  have hle := f.length_le
  simp only [header, List.length_append, zeros_length, octal, List.length_map,
    List.length_range, ustar,
    List.length_cons, List.length_nil]
  omega

theorem blocks_length (f : File) : f.blocks.length = f.entry.room := by
  simp only [blocks, List.length_append, header_length, zeros_length, Entry.room, entry]
  omega

section Header

variable {m : ByteMem} {p : Nat} {f : File} (h : HasBytes m p f.header)
include h

theorem headerAt : HeaderAt m p f.entry := by
  have hle := f.length_le
  simp only [header, List.append_assoc, hasBytes_append] at h
  obtain ⟨hname, hpad, hsize, -, hmagic, -⟩ := h
  simp only [zeros_length, octal, List.length_map, List.length_range] at hsize hmagic
  have hpos : p + f.name.length + (0x7c - f.name.length) = p + 0x7c := by omega
  rw [hpos] at hsize hmagic
  refine ⟨hname, ?_, hle, f.no_nul, fun i hi => ?_, f.size_lt, ?_⟩
  · exact hpad.zero (i := 0) (by omega)
  · have hlt : i < (List.range 11).length := by rwa [List.length_range]
    have hdigit := hsize i (by rwa [List.length_map])
    rw [List.getElem_map, List.getElem_range] at hdigit
    rw [hdigit, BitVec.toNat_ofNat, Nat.mod_eq_of_lt (by omega)]
    rfl
  · rw [Nat.add_assoc p] at hmagic
    exact hmagic

end Header

end File

/-- The archive has the files: their headers, and their contents behind them. -/
structure Stored (m : ByteMem) (a : Nat) (files : List File) : Prop where
  archive : Archive m a (files.map File.entry)
  content : ∀ u f v, files = u ++ f :: v → HasBytes m (a + space (u.map File.entry) + 512) f.content

section Image

variable {m : ByteMem} {files : List File}

theorem image_cons (f : File) (files : List File) :
    image (f :: files) = f.blocks ++ image files := by
  rw [image, image, List.flatMap_cons, List.append_assoc]

theorem image_length (files : List File) :
    (image files).length = space (files.map File.entry) + 512 := by
  induction files with
  | nil =>
    rw [image, List.flatMap_nil, List.nil_append, zeros_length]
    rfl
  | cons f files ih =>
    rw [image_cons, List.length_append, f.blocks_length, ih, List.map_cons, space_cons,
      Nat.add_assoc]

theorem archiveAt_image {a : Nat} (h : HasBytes m a (image files)) :
    ArchiveAt m a (files.map File.entry) := by
  induction files generalizing a with
  | nil =>
    intro hbad
    have hzero : m (a + 257) = 0 := h.zero (by decide)
    have hu := hbad 0 (by decide)
    rw [Nat.add_zero, hzero] at hu
    cases hu
  | cons f files ih =>
    rw [image_cons, hasBytes_append, f.blocks_length, File.blocks, List.append_assoc,
      hasBytes_append] at h
    exact ⟨File.headerAt h.1.1, ih h.2⟩

theorem content_image {a : Nat} (h : HasBytes m a (image files)) {u v : List File} {f : File}
    (hfiles : files = u ++ f :: v) : HasBytes m (a + space (u.map File.entry) + 512) f.content := by
  induction u generalizing a files with
  | nil =>
    rw [hfiles, List.nil_append, image_cons, hasBytes_append, File.blocks, hasBytes_append,
      hasBytes_append, f.header_length] at h
    exact h.1.1.2
  | cons x u ih =>
    rw [hfiles, List.cons_append, image_cons, hasBytes_append, x.blocks_length] at h
    have hrest := ih h.2 rfl
    rwa [Nat.add_assoc a, ← space_cons] at hrest

theorem stored_image {a : Nat} (h : HasBytes m a (image files))
    (hlt : (image files).length < 2 ^ 32) :
    Stored m a files := by
  rw [image_length] at hlt
  exact ⟨⟨archiveAt_image h, hlt⟩, fun u f v hfiles => content_image h hfiles⟩

end Image

/-! ## Inodes of files -/

/-- The first entry that the name finds is a file of that name. -/
structure Finds (files : List File) (name : Str) (f : File) : Prop where
  eq : f.name = name
  split : ∃ u v, files = u ++ f :: v ∧ ∀ x ∈ u, ¬ Names name x.entry

theorem Finds.first {files : List File} {name : Str} {f : File} (h : Finds files name f) :
    ∃ u v, files = u ++ f :: v ∧ First name (files.map File.entry) (u.map File.entry) f.entry := by
  obtain ⟨hname, u, v, rfl, hothers⟩ := h
  refine ⟨u, v, rfl, ⟨v.map File.entry, by rw [List.map_append, List.map_cons]⟩, Or.inl hname,
    fun x hx => ?_⟩
  obtain ⟨y, hy, rfl⟩ := List.mem_map.1 hx
  exact hothers y hy

section Inode

variable {m : ByteMem} {a fuel : Nat} {files : List File} (h : Stored m a files)
  (hfuel : files.length + 101 ≤ fuel)
include h hfuel

theorem Stored.lookup {name : Str} (h0 : (0 : BitVec 8) ∉ name) {f : File}
    (hf : Finds files name f) :
    ∃ c, Tar.tarLookup m a name fuel = some (.ok c) := by
  obtain ⟨u, v, -, hfirst⟩ := hf.first
  have hle := f.length_le
  rw [hf.eq] at hle
  exact ⟨_, tarLookup_first h0 h.archive hle hfirst (by rwa [List.length_map])⟩

/-- The inode of a file has its contents. -/
theorem NamedBy.contents {cs : List Str} {i : Inode TarInode} (hi : NamedBy m a fuel cs i)
    (hcs : ∀ c ∈ cs, Component c) (hne : cs ≠ []) {d : TarInode}
    (hread : (Tar.vfsTar m a fuel).readInodeDisk i.iNum d = some i.data) {f : File}
    (hf : Finds files (joined cs) f) : Tar.contents m i.data = f.content ∧
      i.data.mContentsLength.toNat = f.content.length := by
  obtain ⟨hplain, -⟩ := joined_plain hne hcs
  obtain ⟨u, v, hfiles, hfirst⟩ := hf.first
  have hfuel' : (files.map File.entry).length + 101 ≤ fuel := by rwa [List.length_map]
  have hle := f.length_le
  rw [hf.eq] at hle
  obtain ⟨r, hr, hnum⟩ := hi.found hne
  have hfound := tarLookup_first hplain.no_nul h.archive hle hfirst hfuel'
  obtain rfl := Except.ok.inj (Option.some.inj (hr.symm.trans hfound))
  obtain ⟨-, -, hindex⟩ := h.archive.byIndex_first hplain hfirst
  rw [← hnum] at hread
  simp only [Tar.vfsTar, hindex fuel hfuel', Option.map_some, Option.some.injEq] at hread
  have hsize : f.entry.size < 2 ^ 32 := Fs.size_lt h.archive hfirst
  have hlength : i.data.mContentsLength.toNat = f.content.length := by
    rw [← hread, BitVec.toNat_ofNat, Nat.mod_eq_of_lt hsize]
    rfl
  refine ⟨?_, hlength⟩
  rw [Tar.contents, hlength, ← hread]
  exact bytesAt_of_hasBytes (h.content u f v hfiles)

end Inode

end TinyLittleOs.Fs
