import TinyLittleOs.Fs.Vfs
import TinyLittleOs.Scheduler.Tasks
import Mathlib.Logic.Relation

/-!
# The file system between tasks

The calls of `vfs.cpp` cut into the steps between which another task can run, for tasks on one
mount. The `i_lock` of an inode is a mutex of the scheduler, by the number of the struct. A task has
a list of the steps that its call still has to make. A failed `kassert` is `none`.
-/

namespace TinyLittleOs.Fs

open Lib Function

inductive Op where
  /-- `scoped_mutex lock { i_lock }` -/
  | lock (obj : Nat)
  | unlock (obj : Nat)
  /-- The end of `scoped_preemptlock` in `traverse`. -/
  | preemptDown
  /-- The search of `traverse` for the mount point and its root. -/
  | search (path : Str)
  /-- The loop of `traverse`. -/
  | walk (fs : Nat) (path : Str) (currInode : Nat)
  /-- `result = curr_inode` -/
  | setResult (obj : Nat)
  /-- `ht->lookup` in `get_inode_struct`. -/
  | lookup (fs : Nat) (iNum : BitVec 32) (path : Str) (prevInode : Nat)
  /-- The body of `take_ref_locked` for what `ht->lookup` has found. -/
  | takeFound (result : Nat) (fs : Nat) (path : Str) (prevInode : Nat)
  /-- The body of `take_ref_locked` in `take_parent_struct`. -/
  | takeParent (fs : Nat) (iNum : BitVec 32) (path : Str) (prevInode : Nat)
  /-- The rest of `get_inode_struct` for a new inode. -/
  | allocInode (fs : Nat) (iNum : BitVec 32) (path : Str) (prevInode : Nat)
  /-- The release of `prev_inode` or `curr_inode`, unless it is the root. -/
  | releaseUnlessRoot (obj : Nat)
  /-- The body of `release_ref_locked`. -/
  | releaseRef (obj : Nat)
  /-- `ht->remove` in `inode::release`. -/
  | remove (obj : Nat)
  /-- The end of `free_inode_struct`. -/
  | freeInode (obj : Nat)
  /-- The body of `take_ref_locked` in the constructor of `file_desc`. -/
  | takeOwner (obj : Nat)
  | newFile (obj : Nat)
  /-- `file_desc::release` -/
  | releaseFile (f : Nat)
  | freeFile (f : Nat)
  deriving DecidableEq

namespace Op

variable {D : Type}

/-- `inode::release` -/
def release (obj : Nat) : List Op := [lock obj, releaseRef obj]

/-- What a step does to the file system, and the steps that it calls for. -/
def exec (E : Env D) (s : State D) : Op → Option (State D × List Op)
  | search path =>
    if path = [] then some (s, [])
    else if s.mounts = [] then some (s, [])
    else
      match State.bestMount s.mounts path with
      | none => some (s, [])
      | some mnt => do
        let root ← s.table mnt.mFs rootInode
        some (s, [walk mnt.mFs (path.drop mnt.mPath.length) root])
  | walk _ [] currInode => some (s, [setResult currInode])
  | walk fs (c :: path) currInode =>
    if c = slash then some (s, [walk fs path currInode])
    else do
      let length := State.untilSlash (c :: path)
      let i ← s.inodes currInode
      match ← (E.vfs i.ownerFs).lookup i.iNum i.data ((c :: path).take length) with
      | .error _ => some (s, [releaseUnlessRoot currInode])
      | .ok foundI => some (s, [lookup fs foundI ((c :: path).drop length) currInode])
  | lookup fs iNum path prevInode =>
    match s.table fs iNum with
    | some result => do
      let i ← s.inodes result
      if iNum = i.iNum then some (s, [lock result, takeFound result fs path prevInode]) else none
    | none => some (s, [lock prevInode, takeParent fs iNum path prevInode])
  | takeFound result fs path prevInode => do
    let s ← s.takeRefLocked result
    some (s, [unlock result, releaseUnlessRoot prevInode, walk fs path result])
  | takeParent fs iNum path prevInode => do
    let s ← s.takeRefLocked prevInode
    some (s, [unlock prevInode, allocInode fs iNum path prevInode])
  | allocInode fs iNum path prevInode => do
    let slot := E.slots s.nextInode
    let i : Inode D :=
      { iRc := slot.rc
        ownerFs := fs
        iParentRef := some prevInode
        iNum := iNum
        data := (E.vfs fs).construct slot.data }
    let result := s.nextInode
    let s := { s with inodes := update s.inodes result (some i), nextInode := result + 1 }
    let s ← s.readInodeDisk E result
    some (s.insert fs iNum result, [releaseUnlessRoot prevInode, walk fs path result])
  | releaseUnlessRoot obj => do
    let i ← s.inodes obj
    some (s, if i.iNum ≠ rootInode then release obj else [])
  | releaseRef obj => do
    let (s, last) ← s.releaseRefLocked obj
    some (s, unlock obj :: if last then [remove obj] else [])
  | remove obj => do
    let i ← s.inodes obj
    let s := { s with table := update s.table i.ownerFs (update (s.table i.ownerFs) i.iNum none) }
    some (s, i.iParentRef.elim [] release ++ [freeInode obj])
  | freeInode obj => some ({ s with inodes := update s.inodes obj none }, [])
  | takeOwner obj => do
    let s ← s.takeRefLocked obj
    some (s, [unlock obj, newFile obj])
  | newFile obj => some ({ s with
    fileDescs := update s.fileDescs s.nextFile (some { rc := 1, ownerInode := obj, fPos := 0 })
    nextFile := s.nextFile + 1 }, [])
  | releaseFile f => do
    let d ← s.fileDescs f
    if 0 < d.rc then
      if d.rc - 1 = 0 then some (s, release d.ownerInode ++ [freeFile f])
      else some ({ s with fileDescs := update s.fileDescs f (some { d with rc := d.rc - 1 }) }, [])
    else none
  | freeFile f => some ({ s with fileDescs := update s.fileDescs f none }, [])
  | lock _ | unlock _ | preemptDown | setResult _ => none

end Op

/-- The tasks, and the file system that they share. -/
structure World (ι D : Type) where
  sched : Scheduler.State ι Nat
  fs : State D
  /-- What is left of the call of each task. -/
  todo : ι → List Op
  /-- The results of `traverse` that a task has not released. -/
  held : ι → List Nat

inductive Move where
  /-- The timer interrupt. -/
  | tick
  /-- The current task goes on in `mutex::lock` or `mutex::unlock`. -/
  | run
  /-- The current task makes the next step of its call. -/
  | op
  | call (c : Call)
  deriving DecidableEq

namespace World

variable {ι D : Type} [DecidableEq ι]

/-- The task that runs. -/
def current (w : World ι D) : ι := w.sched.currentTask

/-- The scheduler takes a step. -/
def schedule (idle : ι) (fuel : Nat) (a : Scheduler.Action ι Nat) (w : World ι D) :
    Option (World ι D) := do
  let sched ← w.sched.step idle fuel a
  some { w with sched := sched }

def setTodo (ops : List Op) (w : World ι D) : World ι D :=
  { w with todo := update w.todo w.current ops }

/-- The current task makes the step `op`, and has `rest` to do behind it. -/
def perform (E : Env D) (idle : ι) (fuel : Nat) (op : Op) (rest : List Op) (w : World ι D) :
    Option (World ι D) :=
  match op with
  | .lock obj => (w.setTodo rest).schedule idle fuel (.lock obj)
  | .unlock obj => (w.setTodo rest).schedule idle fuel (.unlock obj)
  | .preemptDown => (w.setTodo rest).schedule idle fuel .preemptDown
  | .setResult obj =>
    some { w.setTodo rest with held := update w.held w.current (obj :: w.held w.current) }
  | op => do
    let (fs, ops) ← op.exec E w.fs
    some { w.setTodo (ops ++ rest) with fs := fs }

/-- The current task begins a call. It releases a result of `traverse` at most once. -/
def begin (idle : ι) (fuel : Nat) (w : World ι D) : Call → Option (World ι D)
  | .traverse path => (w.setTodo [.search path, .preemptDown]).schedule idle fuel .preemptUp
  | .openInode obj => some (w.setTodo [.lock obj, .takeOwner obj])
  | .releaseFile f => some (w.setTodo [.releaseFile f])
  | .releaseInode obj =>
    if obj ∈ w.held w.current then
      some { w.setTodo (Op.release obj) with
        held := update w.held w.current ((w.held w.current).erase obj) }
    else none

def step (E : Env D) (idle : ι) (fuel : Nat) (w : World ι D) : Move → Option (World ι D)
  | .tick => w.schedule idle fuel .tick
  | .run => w.schedule idle fuel .run
  | .op =>
    if w.sched.Free idle then
      match w.todo w.current with
      | [] => none
      | op :: rest => w.perform E idle fuel op rest
    else none
  | .call c => if w.sched.Free idle ∧ w.todo w.current = [] then w.begin idle fuel c else none

/-- The tasks have called nothing, and one file system is mounted. -/
structure Start (E : Env D) (idle : ι) (w : World ι D) : Prop where
  sched : ∃ l, w.sched.Start idle l
  fs : ∃ p fs y, Client.boot E p fs = some y ∧ w.fs = y.state
  todo : ∀ t, w.todo t = []
  held : ∀ t, w.held t = []

/-- A move that meets a condition on the state before it. -/
def Moves (E : Env D) (idle : ι) (ok : World ι D → Move → Prop) (w w' : World ι D) : Prop :=
  ∃ a fuel, ok w a ∧ w.step E idle fuel a = some w'

/-- The states of the runs whose moves all meet a condition. -/
def Reachable (E : Env D) (idle : ι) (ok : World ι D → Move → Prop) (w : World ι D) : Prop :=
  ∃ w₀, Start E idle w₀ ∧ Relation.ReflTransGen (Moves E idle ok) w₀ w

end World

end TinyLittleOs.Fs
