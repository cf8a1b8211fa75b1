import TinyLittleOs.Memory.PageAllocator

/-!
# Loading an ELF file

`load_elf` of `elf.cpp`, over the machine of the page allocators. A read through a file descriptor
is a function from the position and the count to what `f_read` returns. Addresses of the current
address space go through the page tables, which are those that the loader has just written.
-/

namespace TinyLittleOs.Scheduler

open Memory

/-- `errno`, where it is not `ok`. -/
inductive Errno where
  | notPermitted
  | noEntry
  | noProcess
  | interrupted
  | ioError
  | noMemory
  | noAccess
  | exists'
  | notDir
  | isDir
  | invalid
  | pathTooLong
  deriving DecidableEq

/-- The kernel stops. -/
inductive Halt where
  /-- A `kassert` of the page allocators fails. -/
  | memory (e : Fault)
  /-- `kassert(hdr.e_phentsize == sizeof(Elf32_Phdr))` -/
  | phentsize
  /-- `kassert(hdr.e_phnum < 1000)` -/
  | phnum
  /-- A page that is not mapped is written. -/
  | pageFault
  /-- A loop goes on. -/
  | fuel
  deriving DecidableEq

/-- What `f_read` returns: a negative number, or the number of the bytes that it put in the
buffer, here the bytes. -/
inductive ReadResult where
  | error (e : Errno)
  | bytes (l : List (BitVec 8))

/-- A `file_desc`, with what `f_read` keeps between the calls in `ρ`. -/
structure FileDesc (ρ : Type) where
  pread : (count pos : Nat) → ρ → ReadResult × ρ

/-! ## Writing through the page tables -/

/-- `memcpy` to a virtual address. The kernel may write to pages without the flag `write`. -/
def putBytes : Nat → List (BitVec 8) → Machine → Except Halt Machine
  | _, [], s => .ok s
  | virt, b :: l, s =>
    match s.translate virt with
    | none => .error .pageFault
    | some phys => putBytes (virt + 1) l { s with mem := s.mem.store8 phys b }

def mapUserPage (virt phys : Nat) (writable : Bool) (s : Machine) : Except Halt Machine :=
  let pte := phys ||| present ||| user
  let pte := if writable then pte ||| write else pte
  (s.mapPage Machine.kmemAlloc4k virt (prwr ||| user) pte (toVirt s.cr3)).mapError .memory

/-! ## Headers -/

def byteAt (buf : List (BitVec 8)) (i : Nat) : Nat := (buf.getD i 0).toNat

def half (buf : List (BitVec 8)) (i : Nat) : Nat := byteAt buf i + 2 ^ 8 * byteAt buf (i + 1)

def word (buf : List (BitVec 8)) (i : Nat) : Nat := half buf i + 2 ^ 16 * half buf (i + 2)

/-- `Elf32_Phdr`, without what the loader does not read. -/
structure Phdr where
  type : Nat
  offset : Nat
  vaddr : Nat
  filesz : Nat
  memsz : Nat
  flags : Nat

/-- `sizeof(Elf32_Phdr)` -/
def sizeofPhdr : Nat := 32

def Phdr.parse (buf : List (BitVec 8)) : Phdr where
  type := word buf 0
  offset := word buf 4
  vaddr := word buf 8
  filesz := word buf 16
  memsz := word buf 20
  flags := word buf 24

/-- `Elf_Ehdr`, without what the loader does not read. -/
structure Ehdr where
  ident : Nat → Nat
  type : Nat
  machine : Nat
  entry : Nat
  phoff : Nat
  phentsize : Nat
  phnum : Nat

/-- `sizeof(Elf_Ehdr)` -/
def sizeofEhdr : Nat := 52

def Ehdr.parse (buf : List (BitVec 8)) : Ehdr where
  ident := byteAt buf
  type := half buf 16
  machine := half buf 18
  entry := word buf 24
  phoff := word buf 28
  phentsize := half buf 42
  phnum := half buf 44

namespace Ehdr

/-- `check_magic`, where `e_ident[0]` is assigned the conjunction. -/
def checkMagic (h : Ehdr) : Bool × Ehdr :=
  let e := 0x7F ≠ 0 && h.ident 1 = 0x45 && h.ident 2 = 0x4C && h.ident 3 = 0x46
  (e, { h with ident := Function.update h.ident 0 e.toNat })

def checkSupported (h : Ehdr) : Bool × Ehdr :=
  let (magic, h) := h.checkMagic
  (magic && h.ident 4 = 1 && h.ident 5 = 1 && h.machine = 3 && h.ident 6 = 1 && h.type = 2, h)

end Ehdr

/-! ## The loader -/

/-- The loops that read until `size` bytes are there. `put` is told where in the buffer the bytes
come. -/
def readLoop {τ ρ : Type} (f : FileDesc ρ) (put : Nat → List (BitVec 8) → τ → Except Halt τ)
    (base size : Nat) : Nat → Nat → τ → ρ → Except Halt (Except Errno Unit × τ × ρ)
  | 0, _, _, _ => .error .fuel
  | fuel + 1, pos, buf, r =>
    if pos < size then
      match f.pread (size - pos) (base + pos) r with
      | (.error e, r) => .ok (.error e, buf, r)
      | (.bytes [], r) => .ok (.error .invalid, buf, r)
      | (.bytes (b :: l), r) =>
        match put pos (b :: l) buf with
        | .error h => .error h
        | .ok buf => readLoop f put base size fuel (pos + (l.length + 1)) buf r
    else .ok (.ok (), buf, r)

/-- The loops for the two kinds of headers. -/
def readHeader {ρ : Type} (f : FileDesc ρ) (base size : Nat) (r : ρ) :
    Except Halt (Except Errno Unit × List (BitVec 8) × ρ) :=
  readLoop f (fun _ l buf => .ok (buf ++ l)) base size (size + 1) 0 [] r

/-- The machine and the file, and the pages that were mapped so far. -/
structure World (ρ : Type) where
  machine : Machine
  file : ρ
  mapped : List Nat

section Load

variable {ρ : Type} (f : FileDesc ρ)

/-- The rest of a round of the page loop, where the page at `virt` is mapped. -/
def fillPage (p : Phdr) (addrStart virt : Nat) (w : World ρ) :
    Except Halt (Except Errno Unit × World ρ) :=
  let idx := (virt + (2 ^ 32 - addrStart)) % 2 ^ 32
  if idx < p.filesz then
    let readCnt := p.filesz - idx
    let memsetAt := if readCnt > 0x1000 then 0 else readCnt
    let readCnt := if readCnt > 0x1000 then 0x1000 else readCnt
    let idx := (idx + p.offset) % 2 ^ 32
    match readLoop f (fun pos l s => putBytes (virt + pos) l s) idx readCnt (readCnt + 1) 0
        w.machine w.file with
    | .error h => .error h
    | .ok (.error e, s, r) => .ok (.error e, { w with machine := s, file := r })
    | .ok (.ok (), s, r) =>
      match putBytes (virt + memsetAt) (List.replicate (0x1000 - memsetAt) 0) s with
      | .error h => .error h
      | .ok s => .ok (.ok (), { w with machine := s, file := r })
  else
    match putBytes virt (List.replicate 0x1000 0) w.machine with
    | .error h => .error h
    | .ok s => .ok (.ok (), { w with machine := s })

/-- A round of the page loop. -/
def loadPage (p : Phdr) (addrStart virt : Nat) (w : World ρ) :
    Except Halt (Except Errno Unit × World ρ) :=
  match w.machine.hmemAllocPage with
  | .error e => .error (.memory e)
  | .ok (newPage, s) =>
    match mapUserPage virt newPage (p.flags &&& 2 ≠ 0) s with
    | .error h => .error h
    | .ok s => fillPage f p addrStart virt { w with machine := s, mapped := w.mapped ++ [virt] }

/-- The page loop. -/
def pageLoop (p : Phdr) (addrStart addrEnd : Nat) :
    Nat → Nat → World ρ → Except Halt (Except Errno Unit × World ρ)
  | 0, _, _ => .error .fuel
  | fuel + 1, virt, w =>
    if virt < addrEnd then
      match loadPage f p addrStart virt w with
      | .error h => .error h
      | .ok (.error e, w) => .ok (.error e, w)
      | .ok (.ok (), w) => pageLoop p addrStart addrEnd fuel ((virt + 0x1000) % 2 ^ 32) w
    else .ok (.ok (), w)

/-- `addr_start` -/
def Phdr.addrStart (p : Phdr) : Nat := p.vaddr &&& 0xFFFFF000

/-- `addr_end` -/
def Phdr.addrEnd (p : Phdr) : Nat := (p.addrStart + p.memsz) % 2 ^ 32

def loadSegment (fuel : Nat) (p : Phdr) (w : World ρ) :
    Except Halt (Except Errno Unit × World ρ) :=
  if p.type = 1 then pageLoop f p p.addrStart p.addrEnd fuel p.addrStart w else .ok (.ok (), w)

/-- The loop over the program headers. -/
def phdrLoop (fuel phoff : Nat) : List Nat → World ρ → Except Halt (Except Errno Unit × World ρ)
  | [], w => .ok (.ok (), w)
  | i :: is, w =>
    match readHeader f ((phoff + i * sizeofPhdr) % 2 ^ 32) sizeofPhdr w.file with
    | .error h => .error h
    | .ok (.error e, _, r) => .ok (.error e, { w with file := r })
    | .ok (.ok (), buf, r) =>
      match loadSegment f fuel (Phdr.parse buf) { w with file := r } with
      | .error h => .error h
      | .ok (.error e, w) => .ok (.error e, w)
      | .ok (.ok (), w) => phdrLoop fuel phoff is w

/-- What `load_elf` does with a header that is there. -/
def loadHeader (fuel : Nat) (hdr : Ehdr) (w : World ρ) :
    Except Halt (Except Errno Unit × World ρ) :=
  let (supported, hdr) := hdr.checkSupported
  if supported then
    if hdr.phentsize ≠ sizeofPhdr then .error .phentsize
    else if ¬ hdr.phnum < 1000 then .error .phnum
    else phdrLoop f fuel hdr.phoff (List.range hdr.phnum) w
  else .ok (.error .invalid, w)

/-- `load_elf`, with `entry` where it is set. The fuel is for each of the page loops. -/
def loadElf (fuel : Nat) (w : World ρ) : Except Halt (Except Errno Unit × Option Nat × World ρ) :=
  match readHeader f 0 sizeofEhdr w.file with
  | .error h => .error h
  | .ok (.error e, _, r) => .ok (.error e, none, { w with file := r })
  | .ok (.ok (), buf, r) =>
    match loadHeader f fuel (Ehdr.parse buf) { w with file := r } with
    | .error h => .error h
    | .ok (e, w) => .ok (e, some (Ehdr.parse buf).entry, w)

end Load

end TinyLittleOs.Scheduler
