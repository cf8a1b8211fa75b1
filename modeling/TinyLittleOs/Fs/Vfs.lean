import TinyLittleOs.Fs.Tar
import TinyLittleOs.Lib.RefForest

/-!
# The virtual file system

The inode structs, the inode tables and the open files of `vfs.cpp`, with the mounts and the walk
of `traverse`. The structs are numbered as they are made, and a place in memory that is used
again gets a new number. A failed `kassert`, or the use of a struct that was freed, is `none`.
-/

namespace TinyLittleOs.Fs

open Lib Function

/-- Including the null byte. -/
def pathNameMax : Nat := 400

def rootInode : BitVec 32 := 2

/-- `inode`, where `data` are the fields of the implementor. The count is an `int32_t`, which goes
on with `- 2 ^ 31` behind `2 ^ 31 - 1`. -/
structure Inode (D : Type) where
  iRc : BitVec 32
  ownerFs : Nat
  iParentRef : Option Nat
  iNum : BitVec 32
  data : D
  deriving DecidableEq

instance (D : Type) : Counted (Inode D) where
  rc i := i.iRc
  parent i := i.iParentRef
  setRc n i := { i with iRc := n }
  rc_setRc _ _ := rfl
  parent_setRc _ _ := rfl
  setRc_setRc _ _ _ := rfl
  setRc_rc _ := rfl

/-- The part of `vfs` and `inode` that an implementor defines. -/
structure Vfs (D : Type) where
  /-- The constructor, on what the memory held before. -/
  construct : D → D
  readInodeDisk : BitVec 32 → D → Option D
  lookup : BitVec 32 → D → Str → Option (Except Errno (BitVec 32))

/-- What the slab memory holds at the place of a new inode. -/
structure Slot (D : Type) where
  rc : BitVec 32
  data : D

/-- The file systems, and the memory that the inodes will be made in. -/
structure Env (D : Type) where
  vfs : Nat → Vfs D
  slots : Nat → Slot D

/-- `mount_point` -/
structure MountPoint where
  mPath : Str
  mFs : Nat
  deriving DecidableEq

/-- `file_desc` -/
structure FileDesc where
  rc : BitVec 32
  ownerInode : Nat
  fPos : BitVec 64
  deriving DecidableEq

instance : Counted FileDesc where
  rc d := d.rc
  parent d := some d.ownerInode
  setRc n d := { d with rc := n }
  rc_setRc _ _ := rfl
  parent_setRc _ _ := rfl
  setRc_setRc _ _ _ := rfl
  setRc_rc _ := rfl

structure State (D : Type) where
  inodes : Forest (Inode D)
  nextInode : Nat
  /-- The hash table of each file system. -/
  table : Nat → BitVec 32 → Option Nat
  fileDescs : Forest FileDesc
  nextFile : Nat
  /-- The ring of the mount points, from `first_mount_point` on. -/
  mounts : List MountPoint

namespace State

variable {D : Type}

def empty : State D where
  inodes _ := none
  nextInode := 0
  table _ _ := none
  fileDescs _ := none
  nextFile := 0
  mounts := []

/-- `take_ref_locked` -/
def takeRefLocked (s : State D) (obj : Nat) : Option (State D) := do
  let i ← s.inodes obj
  if 0 < i.iRc.toInt then
    some { s with inodes := update s.inodes obj (some { i with iRc := i.iRc + 1 }) }
  else none

/-- `release_ref_locked` -/
def releaseRefLocked (s : State D) (obj : Nat) : Option (State D × Bool) := do
  let i ← s.inodes obj
  if 0 < i.iRc.toInt then
    some ({ s with inodes := update s.inodes obj (some { i with iRc := i.iRc - 1 }) },
      i.iRc - 1 == 0)
  else none

/-- `inode::release`, which calls itself in the destructor of the implementor. -/
def releaseLoop : Nat → State D → Nat → Option (State D)
  | 0, _, _ => none
  | fuel + 1, s, obj => do
    let (s, last) ← s.releaseRefLocked obj
    if last then
      let i ← s.inodes obj
      let s := { s with table := update s.table i.ownerFs (update (s.table i.ownerFs) i.iNum none) }
      -- free_inode_struct
      let s ← i.iParentRef.elim (some s) (releaseLoop fuel s)
      some { s with inodes := update s.inodes obj none }
    else some s

/-- A parent is made before its children, which bounds the calls. -/
def release (s : State D) (obj : Nat) : Option (State D) := releaseLoop (obj + 1) s obj

/-- `take_parent_struct` -/
def takeParentStruct (s : State D) : Option Nat → Option (State D)
  | none => some s
  | some p => s.takeRefLocked p

/-- `alloc_inode_struct`: the constructor of `inode` leaves `i_rc` as it is. -/
def allocInodeStruct (E : Env D) (s : State D) (fs : Nat) (iNum : BitVec 32)
    (parent : Option Nat) : Option (State D × Nat) := do
  let s ← s.takeParentStruct parent
  let slot := E.slots s.nextInode
  let i : Inode D :=
    { iRc := slot.rc
      ownerFs := fs
      iParentRef := parent
      iNum := iNum
      data := (E.vfs fs).construct slot.data }
  some ({ s with
    inodes := update s.inodes s.nextInode (some i)
    nextInode := s.nextInode + 1 }, s.nextInode)

/-- `read_inode_disk` -/
def readInodeDisk (E : Env D) (s : State D) (obj : Nat) : Option (State D) := do
  let i ← s.inodes obj
  let data ← (E.vfs i.ownerFs).readInodeDisk i.iNum i.data
  some { s with inodes := update s.inodes obj (some { i with data := data }) }

/-- `ht->insert` -/
def insert (s : State D) (fs : Nat) (iNum : BitVec 32) (obj : Nat) : State D :=
  { s with table := update s.table fs (update (s.table fs) iNum (some obj)) }

/-- `get_inode_struct` -/
def getInodeStruct (E : Env D) (s : State D) (fs : Nat) (iNum : BitVec 32) (parent : Nat) :
    Option (State D × Nat) :=
  match s.table fs iNum with
  | some result => do
    let i ← s.inodes result
    if iNum = i.iNum then
      let s ← s.takeRefLocked result
      some (s, result)
    else none
  | none => do
    let (s, result) ← s.allocInodeStruct E fs iNum (some parent)
    let s ← s.readInodeDisk E result
    some (s.insert fs iNum result, result)

/-- `mount` -/
def mount (E : Env D) (s : State D) (canonicalPath : Str) (fs : Nat) : Option (State D) := do
  let (s, root) ← s.allocInodeStruct E fs rootInode none
  let s := { s with table := update s.table fs (update (fun _ => none) rootInode (some root)) }
  if canonicalPath.length < pathNameMax ∧ canonicalPath ≠ [] ∧
      (canonicalPath.length = 1 ∨ canonicalPath.getLast? ≠ some slash) then
    let m : MountPoint := ⟨canonicalPath, fs⟩
    some { s with mounts := match s.mounts with
      | [] => [m]
      | first :: rest => first :: m :: rest }
  else none

/-- One round of the search for the longest matching mount point. -/
def bestMountStep (path : Str) (best : Option MountPoint) (mnt : MountPoint) : Option MountPoint :=
  let bestLength := (best.map fun b => b.mPath.length).getD 0
  if mnt.mPath.length ≤ bestLength ∨ path.length < mnt.mPath.length then best
  else if ¬ (mnt.mPath.length = 1 ∨ path.length = mnt.mPath.length ∨
      path[mnt.mPath.length]? = some slash) then best
  else if mnt.mPath.isPrefixOf path then some mnt
  else best

def bestMount (mounts : List MountPoint) (path : Str) : Option MountPoint :=
  mounts.foldl (bestMountStep path) none

/-- The references to an inode other than the root are released. -/
def releaseUnlessRoot (s : State D) (obj : Nat) : Option (State D) := do
  let i ← s.inodes obj
  if i.iNum ≠ rootInode then s.release obj else some s

/-- All text until the next slash. -/
def untilSlash (path : Str) : Nat := path.findIdx (· = slash)

/-- The loop of `traverse` over the rest of the path. -/
def walk (E : Env D) (fs : Nat) : Nat → State D → Str → Nat → Option (State D × Except Errno Nat)
  | 0, _, _, _ => none
  | _ + 1, s, [], currInode => some (s, .ok currInode)
  | fuel + 1, s, c :: path, currInode =>
    if c = slash then walk E fs fuel s path currInode
    else do
      let length := untilSlash (c :: path)
      let i ← s.inodes currInode
      match ← (E.vfs i.ownerFs).lookup i.iNum i.data ((c :: path).take length) with
      | .error e =>
        let s ← s.releaseUnlessRoot currInode
        some (s, .error e)
      | .ok foundI =>
        let (s, next) ← s.getInodeStruct E fs foundI currInode
        let s ← s.releaseUnlessRoot currInode
        walk E fs fuel s ((c :: path).drop length) next

/-- `traverse` -/
def traverse (E : Env D) (s : State D) (path : Str) : Option (State D × Except Errno Nat) :=
  if path = [] then some (s, .error .noEntry)
  else if s.mounts = [] then some (s, .error .noEntry)
  else
    match bestMount s.mounts path with
    | none => some (s, .error .noEntry)
    | some mnt => do
      let root ← s.table mnt.mFs rootInode
      walk E mnt.mFs (path.length + 1) s (path.drop mnt.mPath.length) root

/-- `inode::open` -/
def openInode (s : State D) (obj : Nat) : Option (State D × Nat) := do
  let s ← s.takeRefLocked obj
  some ({ s with
    fileDescs := update s.fileDescs s.nextFile (some { rc := 1, ownerInode := obj, fPos := 0 })
    nextFile := s.nextFile + 1 }, s.nextFile)

/-- `file_desc::release` -/
def releaseFile (s : State D) (f : Nat) : Option (State D) := do
  let d ← s.fileDescs f
  if 0 < d.rc.toInt then
    if d.rc - 1 = 0 then
      let s ← s.release d.ownerInode
      some { s with fileDescs := update s.fileDescs f none }
    else some { s with fileDescs := update s.fileDescs f (some { d with rc := d.rc - 1 }) }
  else none

end State

/-! ## Runs -/

inductive Call where
  | traverse (path : Str)
  | openInode (obj : Nat)
  | releaseFile (f : Nat)
  | releaseInode (obj : Nat)
  deriving DecidableEq

/-- The state, and the results of `traverse` that were not released yet. -/
structure Client (D : Type) where
  state : State D
  held : List Nat

namespace Client

variable {D : Type}

/-- A client calls the file system. It releases a result of `traverse` at most once. -/
def call (E : Env D) (y : Client D) : Call → Option (Client D)
  | .traverse path => do
    let (s, r) ← y.state.traverse E path
    match r with
    | .ok obj => some ⟨s, obj :: y.held⟩
    | .error _ => some ⟨s, y.held⟩
  | .openInode obj => do
    let (s, _) ← y.state.openInode obj
    some ⟨s, y.held⟩
  | .releaseFile f => do
    let s ← y.state.releaseFile f
    some ⟨s, y.held⟩
  | .releaseInode obj => do
    if obj ∈ y.held then
      let s ← y.state.release obj
      some ⟨s, y.held.erase obj⟩
    else none

def run (E : Env D) : Client D → List Call → Option (Client D)
  | y, [] => some y
  | y, c :: cs => (y.call E c).bind fun y => run E y cs

/-- The client of one mounted file system. -/
def boot (E : Env D) (canonicalPath : Str) (fs : Nat) : Option (Client D) := do
  let s ← State.empty.mount E canonicalPath fs
  some ⟨s, []⟩

end Client

end TinyLittleOs.Fs
