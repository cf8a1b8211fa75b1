import TinyLittleOs.Fs.Walk
import TinyLittleOs.Lib.Restores

/-!
# The preemption counter in `traverse`

The functions of `vfs.cpp` with the locks that they take: `scoped_preemptlock` in `traverse` and in
the hash table, and the mutex of an inode around its count. They do what the functions without the
locks do, and restore the counter.
-/

namespace TinyLittleOs.Fs

open Lib Function

/-- A program over the preemption counter. A failed `kassert` is `none`. -/
abbrev Kernel (α : Type) := StateT (BitVec 32) Option α

namespace Kernel

def preemptUp : Kernel Unit := fun c => some ((), c + 1)

def preemptDown : Kernel Unit := fun c => if c - 1 = -1 then none else some ((), c - 1)

def scopedPreemptlock {α : Type} (body : Kernel α) : Kernel α := bracket preemptUp preemptDown body

/-- The other tasks run, until the mutex is handed over. -/
def yield : Kernel Unit := fun c => if c = 0 then some ((), c) else none

/-- `mutex::lock`, where `held` says that another task is the owner. -/
def lock (held : Bool) : Kernel Unit := do
  preemptUp
  preemptDown
  if held then yield

/-- `mutex::unlock` -/
def unlock : Kernel Unit := scopedPreemptlock (pure ())

def scopedMutex {α : Type} (held : Bool) (body : Kernel α) :
    Kernel α := bracket (lock held) unlock body

section Vfs

variable {D : Type} (E : Env D)
  /- The inodes whose `i_lock` another task holds. -/
  (held : Nat → Bool)

/-- `take_ref_locked` -/
def takeRefLocked (s : State D) (obj : Nat) : Kernel (State D) :=
  scopedMutex (held obj) (StateT.lift (s.takeRefLocked obj))

/-- `release_ref_locked` -/
def releaseRefLocked (s : State D) (obj : Nat) : Kernel (State D × Bool) :=
  scopedMutex (held obj) (StateT.lift (s.releaseRefLocked obj))

/-- `ht->lookup` -/
def lookup (s : State D) (fs : Nat) (iNum : BitVec 32) : Kernel (Option Nat) :=
  scopedPreemptlock (pure (s.table fs iNum))

/-- `ht->insert` -/
def insert (s : State D) (fs : Nat) (iNum : BitVec 32) (obj : Nat) : Kernel (State D) :=
  scopedPreemptlock (pure (s.insert fs iNum obj))

/-- `ht->remove` -/
def remove (s : State D) (fs : Nat) (iNum : BitVec 32) : Kernel (State D) :=
  scopedPreemptlock
    (pure { s with table := update s.table fs (update (s.table fs) iNum none) })

/-- `inode::release` -/
def releaseLoop : Nat → State D → Nat → Kernel (State D)
  | 0, _, _ => StateT.lift none
  | fuel + 1, s, obj => do
    let (s, last) ← releaseRefLocked held s obj
    if last then
      let i ← StateT.lift (s.inodes obj)
      let s ← remove s i.ownerFs i.iNum
      -- free_inode_struct
      let s ← i.iParentRef.elim (pure s) (releaseLoop fuel s)
      pure { s with inodes := update s.inodes obj none }
    else pure s

def release (s : State D) (obj : Nat) : Kernel (State D) := releaseLoop held (obj + 1) s obj

/-- `take_parent_struct` -/
def takeParentStruct (s : State D) : Option Nat → Kernel (State D)
  | none => pure s
  | some p => takeRefLocked held s p

/-- `alloc_inode_struct` -/
def allocInodeStruct (s : State D) (fs : Nat) (iNum : BitVec 32) (parent : Option Nat) :
    Kernel (State D × Nat) := do
  let s ← takeParentStruct held s parent
  let slot := E.slots s.nextInode
  let i : Inode D :=
    { iRc := slot.rc
      ownerFs := fs
      iParentRef := parent
      iNum := iNum
      data := (E.vfs fs).construct slot.data }
  pure ({ s with
    inodes := update s.inodes s.nextInode (some i)
    nextInode := s.nextInode + 1 }, s.nextInode)

/-- `get_inode_struct` -/
def getInodeStruct (s : State D) (fs : Nat) (iNum : BitVec 32) (parent : Nat) :
    Kernel (State D × Nat) := do
  match ← lookup s fs iNum with
  | some result =>
    let i ← StateT.lift (s.inodes result)
    if iNum = i.iNum then
      let s ← takeRefLocked held s result
      pure (s, result)
    else StateT.lift none
  | none =>
    let (s, result) ← allocInodeStruct E held s fs iNum (some parent)
    let s ← StateT.lift (s.readInodeDisk E result)
    let s ← insert s fs iNum result
    pure (s, result)

def releaseUnlessRoot (s : State D) (obj : Nat) : Kernel (State D) := do
  let i ← StateT.lift (s.inodes obj)
  if i.iNum ≠ rootInode then release held s obj else pure s

/-- The loop of `traverse` over the rest of the path. -/
def walk (fs : Nat) : Nat → State D → Str → Nat → Kernel (State D × Except Errno Nat)
  | 0, _, _, _ => StateT.lift none
  | _ + 1, s, [], currInode => pure (s, .ok currInode)
  | fuel + 1, s, c :: path, currInode =>
    if c = slash then walk fs fuel s path currInode
    else do
      let length := State.untilSlash (c :: path)
      let i ← StateT.lift (s.inodes currInode)
      match ← StateT.lift ((E.vfs i.ownerFs).lookup i.iNum i.data ((c :: path).take length)) with
      | .error e =>
        let s ← releaseUnlessRoot held s currInode
        pure (s, .error e)
      | .ok foundI =>
        let (s, next) ← getInodeStruct E held s fs foundI currInode
        let s ← releaseUnlessRoot held s currInode
        walk fs fuel s ((c :: path).drop length) next

/-- `traverse` -/
def traverse (s : State D) (path : Str) : Kernel (State D × Except Errno Nat) :=
  scopedPreemptlock <|
    if path = [] then pure (s, .error .noEntry)
    else if s.mounts = [] then pure (s, .error .noEntry)
    else
      match State.bestMount s.mounts path with
      | none => pure (s, .error .noEntry)
      | some mnt => do
        let found ← lookup s mnt.mFs rootInode
        let root ← StateT.lift found
        walk E held mnt.mFs (path.length + 1) s (path.drop mnt.mPath.length) root

end Vfs

/-! ## The locks restore the counter -/

theorem preemptDown_undoes : Undoes preemptDown preemptUp := by
  intro c c₁ c₂ hup hdown
  cases hup
  rw [preemptDown] at hdown
  split_ifs at hdown
  obtain rfl := congrArg Prod.snd (Option.some.inj hdown)
  exact BitVec.add_sub_cancel c 1

theorem unlock_restores : Restores unlock (some ()) := .bracket preemptDown_undoes (.pure ())

theorem lock_restores (held : Bool) : Restores (lock held) (some ()) := by
  intro c r c' h
  obtain ⟨⟨⟩, c₁, hup, hrest⟩ := stateT_bind_eq_some h
  obtain ⟨⟨⟩, c₂, hdown, hyield⟩ := stateT_bind_eq_some hrest
  refine ⟨rfl, ?_⟩
  rw [← preemptDown_undoes _ _ _ hup hdown]
  cases held with
  | false =>
    cases hyield
    rfl
  | true =>
    rw [if_pos rfl, yield] at hyield
    split_ifs at hyield
    cases hyield
    rfl

theorem unlock_undoes (held : Bool) : Undoes unlock (lock held) := by
  intro c c₁ c₂ hlock hunlock
  obtain ⟨-, rfl⟩ := lock_restores held _ _ _ hlock
  exact (unlock_restores _ _ _ hunlock).2

theorem scopedPreemptlock_restores {α : Type} {k : Kernel α} {o : Option α} (h : Restores k o) :
    Restores (scopedPreemptlock k) o := .bracket preemptDown_undoes h

theorem scopedMutex_restores {α : Type} {k : Kernel α} {o : Option α} (held : Bool)
    (h : Restores k o) : Restores (scopedMutex held k) o := .bracket (unlock_undoes held) h

section Vfs

variable {D : Type} (E : Env D) (held : Nat → Bool) (s : State D)

theorem takeRefLocked_restores (obj : Nat) :
    Restores (takeRefLocked held s obj) (s.takeRefLocked obj) :=
  scopedMutex_restores _ (.lift _)

theorem releaseLoop_restores (fuel obj : Nat) :
    Restores (releaseLoop held fuel s obj) (State.releaseLoop fuel s obj) := by
  induction fuel generalizing s obj with
  | zero => exact .lift _
  | succ fuel ih =>
    rw [releaseLoop, State.releaseLoop]
    refine .bind (scopedMutex_restores _ (.lift _)) fun x => ?_
    obtain ⟨s, last⟩ := x
    cases last with
    | false => exact .pure s
    | true =>
      refine .bind (.lift _) fun i => ?_
      refine .bind_of_some (scopedPreemptlock_restores (.pure _)) ?_
      refine .bind ?_ fun s => .pure _
      cases i.iParentRef with
      | none => exact .pure _
      | some p => exact ih _ p

theorem allocInodeStruct_restores (fs : Nat) (iNum : BitVec 32) (parent : Option Nat) :
    Restores (allocInodeStruct E held s fs iNum parent) (s.allocInodeStruct E fs iNum parent) := by
  refine .bind ?_ fun s => .pure _
  cases parent with
  | none => exact .pure s
  | some p => exact takeRefLocked_restores held s p

theorem getInodeStruct_restores (fs : Nat) (iNum : BitVec 32) (parent : Nat) :
    Restores (getInodeStruct E held s fs iNum parent) (s.getInodeStruct E fs iNum parent) := by
  refine .bind_of_some (scopedPreemptlock_restores (.pure _)) ?_
  rw [State.getInodeStruct]
  cases s.table fs iNum with
  | some result =>
    refine .bind (.lift _) fun i => ?_
    split_ifs
    · exact .bind (takeRefLocked_restores held s result) fun s => .pure _
    · exact .lift none
  | none =>
    refine .bind (allocInodeStruct_restores E held s fs iNum (some parent)) fun x => ?_
    refine .bind (.lift _) fun s => ?_
    exact .bind_of_some (scopedPreemptlock_restores (.pure _)) (.pure _)

theorem releaseUnlessRoot_restores (obj : Nat) :
    Restores (releaseUnlessRoot held s obj) (s.releaseUnlessRoot obj) := by
  refine .bind (.lift _) fun i => ?_
  split_ifs
  · exact releaseLoop_restores held s _ obj
  · exact .pure s

theorem walk_restores (fs fuel : Nat) (path : Str) (currInode : Nat) :
    Restores (walk E held fs fuel s path currInode) (State.walk E fs fuel s path currInode) := by
  induction fuel generalizing s path currInode with
  | zero => exact .lift none
  | succ fuel ih =>
    cases path with
    | nil => exact .pure _
    | cons c path =>
      rw [walk, State.walk]
      split_ifs
      · exact ih _ _ _
      · refine .bind (.lift _) fun i => .bind (.lift _) fun found => ?_
        cases found with
        | error e => exact .bind (releaseUnlessRoot_restores held s currInode) fun s => .pure _
        | ok foundI =>
          refine .bind (getInodeStruct_restores E held s fs foundI currInode) fun x => ?_
          exact .bind (releaseUnlessRoot_restores held x.1 currInode) fun s => ih _ _ _

/-- With the locks, `traverse` does what it does without them, and restores the counter. -/
theorem traverse_restores (path : Str) :
    Restores (traverse E held s path) (s.traverse E path) := by
  apply scopedPreemptlock_restores
  rw [State.traverse]
  split_ifs
  · exact .pure _
  · exact .pure _
  · cases State.bestMount s.mounts path with
    | none => exact .pure _
    | some mnt =>
      refine .bind_of_some (scopedPreemptlock_restores (.pure _)) ?_
      exact .bind (.lift _) fun root => walk_restores _ _ _ _ _ _ _

end Vfs

/-- A path that leads nowhere leaves the inodes, their counts, the tables and the preemption counter
as they were. -/
theorem traverse_error {D : Type} {E : Env D} (hone : State.OneRef E) (hroot : State.NoRoot E)
    {y : Client D} (hy : Client.Reachable E y) (held : Nat → Bool) {path : Str} {c c' : BitVec 32}
    {s' : State D} {e : Errno}
    (hrun : traverse E held y.state path c = some ((s', .error e), c')) :
    s'.inodes = y.state.inodes ∧ s'.table = y.state.table ∧ s'.fileDescs = y.state.fileDescs ∧
      s'.mounts = y.state.mounts ∧ c' = c := by
  obtain ⟨htraverse, hc⟩ := traverse_restores E held y.state path _ _ _ hrun
  have hsame : State.Same y.state s' := by
    rcases (hy.wf hone hroot).traverse hone hroot htraverse with
      ⟨rfl, -⟩ | ⟨fs, p, root, -, hwalked⟩
    · rfl
    · exact hwalked.1
  rw [hsame]
  exact ⟨rfl, rfl, rfl, rfl, hc⟩

/-- The walk to `/a/b` makes the inode of `a` and frees it again. -/
theorem traverse_error_oneName : ∃ y s', Client.Reachable Client.oneName y ∧
    (∃ c, traverse Client.oneName (fun _ => false) y.state [slash, 0x61, slash, 0x62] 5 =
      some ((s', .error .noEntry), c)) ∧ s'.inodes = y.state.inodes := by
  have hy : ∃ s s' c', State.empty.mount Client.oneName [slash] 0 = some s ∧
      traverse Client.oneName (fun _ => false) s [slash, 0x61, slash, 0x62] 5 =
        some ((s', .error .noEntry), c') :=
    ⟨_, _, _, rfl, rfl⟩
  obtain ⟨s, s', c', hmount, hrun⟩ := hy
  have hreach : Client.Reachable Client.oneName ⟨s, []⟩ := .mount .empty (fun _ => rfl) hmount
  have hinodes :=
    (traverse_error (fun _ => rfl) Client.oneName_noRoot hreach (fun _ => false) hrun).1
  exact ⟨_, s', hreach, ⟨c', hrun⟩, hinodes⟩

end Kernel

end TinyLittleOs.Fs
