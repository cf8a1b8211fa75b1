import TinyLittleOs.Fs.Walk
import Mathlib.Data.List.Perm.Basic

/-!
# Releases with gaps

Tasks that call `traverse`, which nothing interrupts, and `inode::release`, where other tasks can
run between the locked decrement, the removal from the hash table and the free.
-/

namespace TinyLittleOs.Fs

open Lib Function Forest Relation

variable {D : Type}

/-- `ht->remove` -/
def State.removeEntry (s : State D) (i : Inode D) : State D :=
  { s with table := update s.table i.ownerFs (update (s.table i.ownerFs) i.iNum none) }

/-- A step of `inode::release`. -/
inductive Rest where
  /-- `release_ref_locked` -/
  | decrement (obj : Nat)
  /-- `ht->remove` -/
  | remove (obj : Nat)
  /-- The end of `free_inode_struct`, behind the destructor. -/
  | free (obj : Nat)
  deriving DecidableEq

/-- The step, and the steps that it calls for. -/
def Rest.exec (s : State D) : Rest → Option (State D × List Rest)
  | decrement obj => do
    let (s, last) ← s.releaseRefLocked obj
    some (s, if last then [remove obj] else [])
  | remove obj => do
    let i ← s.inodes obj
    -- the destructor of the implementor releases the parent
    some (s.removeEntry i, i.iParentRef.elim [] (fun p => [decrement p]) ++ [free obj])
  | free obj => some ({ s with inodes := update s.inodes obj none }, [])

structure Task where
  /-- What is left of its call of `inode::release`. -/
  todo : List Rest
  /-- The results of `traverse` that it has not released. -/
  held : List Nat
  deriving DecidableEq

structure Tasks (D : Type) where
  state : State D
  tasks : List Task

inductive Turn where
  /-- A new task. -/
  | spawn
  | traverse (k : Nat) (path : Str)
  | release (k : Nat) (obj : Nat)
  /-- The next step of the call of the task `k`. -/
  | go (k : Nat)
  deriving DecidableEq

namespace Tasks

variable {E : Env D} {y y' : Tasks D}

def pending (y : Tasks D) : List Rest := y.tasks.flatMap Task.todo

def held (y : Tasks D) : List Nat := y.tasks.flatMap Task.held

/-- A task calls something else when it is done with what it called. It releases a result of
`traverse` at most once. -/
def step (E : Env D) (y : Tasks D) : Turn → Option (Tasks D)
  | .spawn => some { y with tasks := y.tasks ++ [⟨[], []⟩] }
  | .traverse k path => do
    let x ← y.tasks[k]?
    if x.todo = [] then
      let (s, r) ← y.state.traverse E path
      match r with
      | .ok obj => some ⟨s, y.tasks.set k ⟨[], obj :: x.held⟩⟩
      | .error _ => some ⟨s, y.tasks⟩
    else none
  | .release k obj => do
    let x ← y.tasks[k]?
    if x.todo = [] ∧ obj ∈ x.held then
      some { y with tasks := y.tasks.set k ⟨[.decrement obj], x.held.erase obj⟩ }
    else none
  | .go k => do
    let x ← y.tasks[k]?
    match x.todo with
    | [] => none
    | r :: rest => do
      let (s, more) ← r.exec y.state
      some ⟨s, y.tasks.set k ⟨more ++ rest, x.held⟩⟩

end Tasks

/-! ## Dying inodes besides the live ones -/

namespace State

/-- With the inodes `d` and their entries `t` besides. -/
def join (l : State D) (d : Forest (Inode D)) (t : Nat → BitVec 32 → Option Nat) : State D :=
  { l with
    inodes := fun a => (l.inodes a).or (d a)
    table := fun fs n => (l.table fs n).or (t fs n) }

/-- The inodes of `l` are other ones than those of `d`, and have other entries than those of `t`. -/
structure Apart (l : State D) (d : Forest (Inode D)) (t : Nat → BitVec 32 → Option Nat) : Prop where
  inode : ∀ a i, l.inodes a = some i → d a = none
  entry : ∀ a i, l.inodes a = some i → t i.ownerFs i.iNum = none
  bound : ∀ a, l.nextInode ≤ a → d a = none

variable {E : Env D} {l l' : State D} {d : Forest (Inode D)} {t : Nat → BitVec 32 → Option Nat}
  {a : Nat} {i : Inode D}

@[simp] theorem join_inodes (a : Nat) : (l.join d t).inodes a = (l.inodes a).or (d a) := rfl

@[simp] theorem join_table (fs : Nat) (n : BitVec 32) :
    (l.join d t).table fs n = (l.table fs n).or (t fs n) := rfl

theorem join_live (h : l.inodes a = some i) : (l.join d t).inodes a = some i := by
  rw [join_inodes, h, Option.some_or]

theorem join_dying (h : l.inodes a = none) : (l.join d t).inodes a = d a := by
  rw [join_inodes, h, Option.none_or]

/-- A change of the live inodes. -/
theorem join_update {x : Option (Inode D)} (h : d a = none) :
    update (l.join d t).inodes a x = fun b => (update l.inodes a x b).or (d b) := by
  funext b
  by_cases hb : b = a
  · subst hb
    rw [update_self, update_self, h, Option.or_none]
  · rw [update_of_ne hb, update_of_ne hb, join_inodes]

theorem entry_apply (fs fs' : Nat) (n n' : BitVec 32) (x : Option Nat) :
    update t fs (update (t fs) n x) fs' n' = if fs' = fs ∧ n' = n then x else t fs' n' := by
  by_cases hfs : fs' = fs
  · subst hfs
    by_cases hn : n' = n <;> simp [hn]
  · simp [hfs]

/-- A change of the entries of live inodes. -/
theorem join_entry {fs : Nat} {n : BitVec 32} {x : Option Nat} (h : t fs n = none) :
    update (l.join d t).table fs (update ((l.join d t).table fs) n x) =
      fun fs' n' => (update l.table fs (update (l.table fs) n x) fs' n').or (t fs' n') := by
  funext fs' n'
  rw [entry_apply, entry_apply]
  split_ifs with he
  · rw [he.1, he.2, h, Option.or_none]
  · exact join_table fs' n'

theorem Apart.mono (h : Apart l d t) (hnext : l.nextInode ≤ l'.nextInode)
    (hsame : ∀ a i, l'.inodes a = some i →
      ∃ j, l.inodes a = some j ∧ j.ownerFs = i.ownerFs ∧ j.iNum = i.iNum) : Apart l' d t where
  inode a i hi := by
    obtain ⟨j, hj, -⟩ := hsame a i hi
    exact h.inode a j hj
  entry a i hi := by
    obtain ⟨j, hj, hfs, hnum⟩ := hsame a i hi
    rw [← hfs, ← hnum]
    exact h.entry a j hj
  bound a ha := h.bound a (Nat.le_trans hnext ha)

/-- Another count. -/
theorem Apart.setRc (h : Apart l d t) (ha : l.inodes a = some i) (n : BitVec 32) :
    Apart { l with inodes := update l.inodes a (some { i with iRc := n }) } d t := by
  refine h.mono (Nat.le_refl _) fun b j hj => ?_
  dsimp only at hj
  by_cases hb : b = a
  · subst hb
    rw [update_self] at hj
    cases hj
    exact ⟨i, ha, rfl, rfl⟩
  · rw [update_of_ne hb] at hj
    exact ⟨j, hj, rfl, rfl⟩

theorem takeRefLocked_join (h : Apart l d t) (hrun : l.takeRefLocked a = some l') :
    (l.join d t).takeRefLocked a = some (l'.join d t) ∧ Apart l' d t := by
  obtain ⟨i, hi, hrun⟩ := Option.bind_eq_some_iff.1 hrun
  obtain ⟨hpos, hrun⟩ := Option.ite_none_right_eq_some.1 hrun
  cases hrun
  refine ⟨?_, h.setRc hi _⟩
  rw [takeRefLocked, join_live hi, Option.bind_eq_bind, Option.bind_some, if_pos hpos,
    join_update (h.inode a i hi)]
  rfl

theorem releaseRefLocked_join {last : Bool} (h : Apart l d t)
    (hrun : l.releaseRefLocked a = some (l', last)) :
    (l.join d t).releaseRefLocked a = some (l'.join d t, last) ∧ Apart l' d t := by
  obtain ⟨i, hi, hrun⟩ := Option.bind_eq_some_iff.1 hrun
  obtain ⟨hpos, hrun⟩ := Option.ite_none_right_eq_some.1 hrun
  cases hrun
  refine ⟨?_, h.setRc hi _⟩
  rw [releaseRefLocked, join_live hi, Option.bind_eq_bind, Option.bind_some, if_pos hpos,
    join_update (h.inode a i hi)]
  rfl

/-- Without an inode. -/
theorem Apart.erase (h : Apart l d t) :
    Apart { l with inodes := update l.inodes a none } d t := by
  refine h.mono (Nat.le_refl _) fun b j hj => ?_
  dsimp only at hj
  by_cases hb : b = a
  · rw [hb, update_self] at hj
    cases hj
  · rw [update_of_ne hb] at hj
    exact ⟨j, hj, rfl, rfl⟩

theorem Apart.removeEntry (h : Apart l d t) (ha : l.inodes a = some i) :
    (l.join d t).removeEntry i = (l.removeEntry i).join d t ∧ Apart (l.removeEntry i) d t := by
  refine ⟨?_, h.inode, h.entry, h.bound⟩
  rw [State.removeEntry, join_entry (h.entry a i ha)]
  rfl

theorem releaseLoop_last {fuel : Nat} {s s₁ : State D} (h : s.releaseRefLocked a = some (s₁, true))
    (ha : s₁.inodes a = some i) : releaseLoop (fuel + 1) s a =
      (i.iParentRef.elim (some (s₁.removeEntry i)) (releaseLoop fuel (s₁.removeEntry i))).bind
        fun s => some { s with inodes := update s.inodes a none } := by
  rw [releaseLoop, h, Option.bind_eq_bind, Option.bind_some]
  dsimp only
  rw [if_pos rfl, ha, Option.bind_eq_bind, Option.bind_some]
  rfl

theorem releaseLoop_join {fuel : Nat} (h : Apart l d t) (hrun : releaseLoop fuel l a = some l') :
    releaseLoop fuel (l.join d t) a = some (l'.join d t) ∧ Apart l' d t := by
  induction fuel generalizing l l' a with
  | zero => cases hrun
  | succ fuel ih =>
    have hunfold := hrun
    rw [releaseLoop] at hunfold
    obtain ⟨⟨l₁, last⟩, hlocked, hunfold⟩ := Option.bind_eq_some_iff.1 hunfold
    obtain ⟨hlocked', h₁⟩ := releaseRefLocked_join h hlocked
    cases last with
    | false =>
      cases hunfold
      rw [releaseLoop, hlocked', Option.bind_eq_bind, Option.bind_some]
      exact ⟨rfl, h₁⟩
    | true =>
      obtain ⟨i, hi, -⟩ := Option.bind_eq_some_iff.1 hunfold
      rw [releaseLoop_last hlocked hi] at hrun
      obtain ⟨l₂, hparent, hrun⟩ := Option.bind_eq_some_iff.1 hrun
      cases hrun
      obtain ⟨hjoin, hremoved⟩ := h₁.removeEntry hi
      have hback : i.iParentRef.elim (some ((l₁.removeEntry i).join d t))
          (releaseLoop fuel ((l₁.removeEntry i).join d t)) = some (l₂.join d t) ∧ Apart l₂ d t := by
        cases hp : i.iParentRef with
        | none =>
          rw [hp] at hparent
          cases hparent
          exact ⟨rfl, hremoved⟩
        | some p =>
          rw [hp] at hparent
          exact ih hremoved hparent
      rw [releaseLoop_last hlocked' (join_live hi), hjoin, hback.1, Option.bind_some,
        join_update (h₁.inode a i hi)]
      exact ⟨rfl, hback.2.erase⟩

theorem releaseUnlessRoot_join (h : Apart l d t) (hrun : l.releaseUnlessRoot a = some l') :
    (l.join d t).releaseUnlessRoot a = some (l'.join d t) ∧ Apart l' d t := by
  obtain ⟨i, hi, hrun⟩ := Option.bind_eq_some_iff.1 hrun
  rw [releaseUnlessRoot, join_live hi, Option.bind_eq_bind, Option.bind_some]
  split_ifs at hrun ⊢ with hroot
  · exact releaseLoop_join h hrun
  · cases hrun
    exact ⟨rfl, h⟩

/-! ## Rounds over live inodes -/

theorem getInodeStruct_found {s s' : State D} {fs parent r : Nat} {n : BitVec 32}
    (hr : s.table fs n = some r) (hi : s.inodes r = some i) (hnum : i.iNum = n)
    (htake : s.takeRefLocked r = some s') : s.getInodeStruct E fs n parent = some (s', r) := by
  rw [getInodeStruct, hr]
  dsimp only
  rw [hi, Option.bind_eq_bind, Option.bind_some, if_pos hnum.symm, htake]
  rfl

theorem getInodeStruct_made {s s' : State D} {fs parent : Nat} {n : BitVec 32}
    (hnone : s.table fs n = none) (htake : s.takeRefLocked parent = some s') :
    s.getInodeStruct E fs n parent = ((E.vfs fs).readInodeDisk n
      ((E.vfs fs).construct (E.slots s'.nextInode).data)).bind fun x =>
        some (({ s' with
          inodes := update s'.inodes s'.nextInode (some (newInode E s' fs n parent x))
          nextInode := s'.nextInode + 1 }).insert fs n s'.nextInode, s'.nextInode) := by
  simp only [getInodeStruct, hnone, allocInodeStruct, takeParentStruct, htake, Option.bind_eq_bind,
    Option.bind_some, State.readInodeDisk, update_self, update_idem]
  rw [Option.bind_assoc]
  rfl

/-- A new inode with an entry. -/
theorem Apart.insert (h : Apart l d t) {i : Inode D} {fs : Nat} {n : BitVec 32}
    (hfs : i.ownerFs = fs)
    (hnum : i.iNum = n) (hmiss : t fs n = none) :
    ({ l.join d t with
      inodes := update (l.join d t).inodes l.nextInode (some i)
      nextInode := l.nextInode + 1 } : State D).insert fs n l.nextInode =
      (({ l with
        inodes := update l.inodes l.nextInode (some i)
        nextInode := l.nextInode + 1 } : State D).insert fs n l.nextInode).join d t ∧
    Apart (({ l with
      inodes := update l.inodes l.nextInode (some i)
      nextInode := l.nextInode + 1 } : State D).insert fs n l.nextInode) d t := by
  have hdead : d l.nextInode = none := h.bound _ (Nat.le_refl _)
  refine ⟨?_, fun a j hj => ?_, fun a j hj => ?_, fun a ha => h.bound a (Nat.le_of_succ_le ha)⟩
  · rw [State.insert, join_update hdead]
    dsimp only
    rw [join_entry hmiss]
    rfl
  · dsimp only [State.insert] at hj
    by_cases hnew : a = l.nextInode
    · rw [hnew]
      exact hdead
    · rw [update_of_ne hnew] at hj
      exact h.inode a j hj
  · dsimp only [State.insert] at hj
    by_cases hnew : a = l.nextInode
    · rw [hnew, update_self, Option.some.injEq] at hj
      rw [← hj, hfs, hnum]
      exact hmiss
    · rw [update_of_ne hnew] at hj
      exact h.entry a j hj

/-- `get_inode_struct` where it finds no dying inode. -/
theorem getInodeStruct_join {fs parent : Nat} {n : BitVec 32} {s₁ : State D} (hwf : Wf E l)
    (h : Apart l d t) (hroom : Room 1 l) (hparent : l.inodes parent = some i)
    (hmiss : t fs n = none) (hrun : (l.join d t).getInodeStruct E fs n parent = some (s₁, a)) :
    ∃ l₁, l.getInodeStruct E fs n parent = some (l₁, a) ∧ s₁ = l₁.join d t ∧ Apart l₁ d t := by
  cases ht : l.table fs n with
  | some r =>
    obtain ⟨j, hj, -, hnum⟩ := (hwf.indexed fs n r).1 ht
    have htake := (hwf.takeRefLocked hj (hroom.pos hwf hj)).1
    obtain ⟨htake', hapart⟩ := takeRefLocked_join h htake
    have hr : (l.join d t).table fs n = some r := by
      rw [join_table, ht, Option.some_or]
    rw [getInodeStruct_found hr (join_live hj) hnum htake'] at hrun
    cases hrun
    exact ⟨_, getInodeStruct_found ht hj hnum htake, rfl, hapart⟩
  | none =>
    have htake := (hwf.takeRefLocked hparent (hroom.pos hwf hparent)).1
    obtain ⟨htake', hapart⟩ := takeRefLocked_join h htake
    have hnone : (l.join d t).table fs n = none := by
      rw [join_table, ht, Option.none_or]
      exact hmiss
    rw [getInodeStruct_made hnone htake'] at hrun
    obtain ⟨x, hx, hrun⟩ := Option.bind_eq_some_iff.1 hrun
    cases hrun
    obtain ⟨hjoin, hnew⟩ := hapart.insert (i := newInode E
      { l with inodes := take l.inodes parent i } fs n parent x) rfl rfl hmiss
    refine ⟨_, ?_, hjoin, hnew⟩
    rw [getInodeStruct_made ht htake]
    exact Option.bind_eq_some_iff.2 ⟨x, hx, rfl⟩

variable {s₀ s₂ : State D} {fs curr : Nat} {path p : Str}

/-- A round over the live inodes, when no dying one is in the table. -/
theorem Walking.round_join (h : Walking E s₀ l fs curr i) (hown : Walking.Owned s₀ l curr i)
    (hroom : Room 2 s₀) (hone : OneRef E) (hroot : NoRoot E) (hapart : Apart l d t)
    (hmiss : ∀ fs n, t fs n = none) (hr : Round E fs (l.join d t, path, curr) (s₂, p, a)) :
    ∃ l₂ j, s₂ = l₂.join d t ∧ Walking E s₀ l₂ fs a j ∧ Walking.Owned s₀ l₂ a j ∧ Apart l₂ d t := by
  cases hr with
  | skip => exact ⟨l, i, rfl, h, hown, hapart⟩
  | @next _ s₁ _ _ _ _ n hfinds hget hdrop =>
    have hroom' := hown.room hroom
    obtain ⟨l₁, hget', rfl, h₁⟩ :=
      getInodeStruct_join h.wf hapart hroom' h.inode (hmiss fs n) hget
    obtain ⟨c, path', j, -, -, -, hlook⟩ := hfinds
    have hn : n ≠ rootInode := fun he => hroot _ _ _ _ (by rw [hlook, he])
    have hread : l.table fs n = none → ∃ x, (E.vfs fs).readInodeDisk n
        ((E.vfs fs).construct (E.slots l.nextInode).data) = some x := by
      intro hnone
      rw [getInodeStruct_new h.wf h.inode (hroom'.pos h.wf h.inode) hnone] at hget'
      obtain ⟨x, hx, -⟩ := Option.bind_eq_some_iff.1 hget'
      exact ⟨x, hx⟩
    obtain ⟨l₁', a', l₂, j', hget'', hdrop', hwalking, hown', -⟩ :=
      h.exists_next hown hroom hone hn hread
    rw [hget'] at hget''
    cases hget''
    obtain ⟨hdrop'', h₂⟩ := releaseUnlessRoot_join h₁ hdrop'
    rw [hdrop] at hdrop''
    cases hdrop''
    exact ⟨l₂, j', rfl, hwalking, hown', h₂⟩

theorem Walking.rounds_join (h : Walking E s₀ l fs curr i) (hown : Walking.Owned s₀ l curr i)
    (hroom : Room 2 s₀) (hone : OneRef E) (hroot : NoRoot E) (hapart : Apart l d t)
    (hmiss : ∀ fs n, t fs n = none)
    (hr : ReflTransGen (Round E fs) (l.join d t, path, curr) (s₂, p, a)) :
    ∃ l₂ j, s₂ = l₂.join d t ∧ Walking E s₀ l₂ fs a j ∧ Walking.Owned s₀ l₂ a j ∧ Apart l₂ d t := by
  generalize hy : (s₂, p, a) = y at hr
  induction hr generalizing s₂ p a with
  | refl =>
    cases hy
    exact ⟨l, i, rfl, h, hown, hapart⟩
  | @tail x y hbefore hround ih =>
    obtain ⟨s₁, p₁, a₁⟩ := x
    subst hy
    obtain ⟨l₁, j, rfl, hwalking, hown₁, h₁⟩ := ih rfl
    exact hwalking.round_join hown₁ hroom hone hroot h₁ hmiss hround

end State

end TinyLittleOs.Fs
