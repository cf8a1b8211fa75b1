import TinyLittleOs.Fs.Inodes
import Mathlib.Logic.Relation

/-!
# The walk of `traverse`

The walk holds one reference, to the inode that it has reached, and none while this is the root.
A release of that reference gives the state from before the walk. It ends as long as no count has
overflowed.
-/

namespace TinyLittleOs.Fs

open Lib Function Forest Relation

variable {D : Type} {E : Env D}

namespace State

/-- `lookup` never finds the root. -/
def NoRoot (E : Env D) : Prop :=
  ∀ fs n d name, (E.vfs fs).lookup n d name ≠ some (.ok rootInode)

/-- The same inodes, tables, open files and mounts. -/
def Same (s s' : State D) : Prop := s' = { s with nextInode := s'.nextInode }

/-! ## The rounds of the loop -/

/-- The path goes on with a name that is found in `curr`, with the number `n`. -/
def Finds (E : Env D) (s : State D) (path : Str) (curr : Nat) (n : BitVec 32) : Prop :=
  ∃ c p i, path = c :: p ∧ c ≠ slash ∧ s.inodes curr = some i ∧
    (E.vfs i.ownerFs).lookup i.iNum i.data (path.take (untilSlash path)) = some (.ok n)

/-- A round of the loop of `traverse`, where `curr_inode` is the last component. -/
inductive Round (E : Env D) (fs : Nat) : State D × Str × Nat → State D × Str × Nat → Prop
  | skip {s : State D} {path : Str} {curr : Nat} :
      Round E fs (s, slash :: path, curr) (s, path, curr)
  | next {s s₁ s₂ : State D} {path : Str} {curr a : Nat} {n : BitVec 32}
      (hfinds : s.Finds E path curr n) (hget : s.getInodeStruct E fs n curr = some (s₁, a))
      (hdrop : s₁.releaseUnlessRoot curr = some s₂) :
      Round E fs (s, path, curr) (s₂, path.drop (untilSlash path), a)

/-- `traverse` starts at `root`, with the rest `p` of the path. -/
def StartsAt (s : State D) (path : Str) (fs : Nat) (p : Str) (root : Nat) : Prop :=
  ∃ mnt, bestMount s.mounts path = some mnt ∧ mnt.mFs = fs ∧ path.drop mnt.mPath.length = p ∧
    s.table fs rootInode = some root

/-- `traverse`, when called in `s`, calls `get_inode_struct` in `s'`. -/
def Gets (E : Env D) (s : State D) (path : Str) (s' : State D) (fs : Nat) (n : BitVec 32)
    (curr : Nat) : Prop :=
  ∃ root p p', s.StartsAt path fs p root ∧
    ReflTransGen (Round E fs) (s, p, root) (s', p', curr) ∧ s'.Finds E p' curr n

section Rounds

variable {s s' : State D} {fs : Nat}

theorem bestMount_mem {mounts : List MountPoint} {path : Str} {mnt : MountPoint}
    (h : bestMount mounts path = some mnt) : mnt ∈ mounts := by
  have hfold (ms : List MountPoint) (best : Option MountPoint) :
      ms.foldl (bestMountStep path) best = some mnt → best = some mnt ∨ mnt ∈ ms := by
    induction ms generalizing best with
    | nil => exact .inl
    | cons first rest ih =>
      intro hrun
      rcases ih _ hrun with hstep | hmem
      · rw [bestMountStep] at hstep
        split_ifs at hstep
        · exact .inl hstep
        · cases hstep
          exact .inr List.mem_cons_self
        · exact .inl hstep
        · exact .inl hstep
      · exact .inr (List.mem_cons_of_mem _ hmem)
  exact (hfold mounts none h).resolve_left (by simp)

/-- The loop is a run of rounds, and a release where a name is not found. -/
theorem walk_rounds {fuel : Nat} {path : Str} {curr : Nat} {r : Except Errno Nat}
    (hrun : walk E fs fuel s path curr = some (s', r)) :
    ∃ s₁ p a, ReflTransGen (Round E fs) (s, path, curr) (s₁, p, a) ∧
      (r = .ok a ∧ p = [] ∧ s' = s₁ ∨
        (∃ e, r = .error e) ∧ s₁.releaseUnlessRoot a = some s') := by
  induction fuel generalizing s path curr with
  | zero => cases hrun
  | succ fuel ih =>
    cases path with
    | nil =>
      cases hrun
      exact ⟨_, [], curr, .refl, .inl ⟨rfl, rfl, rfl⟩⟩
    | cons c path =>
      rw [walk] at hrun
      split_ifs at hrun with hc
      · obtain ⟨s₁, p, a, hrounds, hend⟩ := ih hrun
        refine ⟨s₁, p, a, .head ?_ hrounds, hend⟩
        rw [hc]
        exact .skip
      · obtain ⟨i, hi, hrun⟩ := Option.bind_eq_some_iff.1 hrun
        obtain ⟨found, hlook, hrun⟩ := Option.bind_eq_some_iff.1 hrun
        cases found with
        | error e =>
          obtain ⟨s₁, hstop, hrun⟩ := Option.bind_eq_some_iff.1 hrun
          cases hrun
          exact ⟨s, c :: path, curr, .refl, .inr ⟨⟨e, rfl⟩, hstop⟩⟩
        | ok n =>
          obtain ⟨⟨s₁, a⟩, hget, hrun⟩ := Option.bind_eq_some_iff.1 hrun
          obtain ⟨s₂, hdrop, hrun⟩ := Option.bind_eq_some_iff.1 hrun
          obtain ⟨s₃, p, b, hrounds, hend⟩ := ih hrun
          exact ⟨s₃, p, b, .head (.next ⟨c, path, i, rfl, hc, hi, hlook⟩ hget hdrop) hrounds, hend⟩

theorem traverse_rounds {path : Str} {r : Except Errno Nat}
    (hrun : s.traverse E path = some (s', r)) :
    (s' = s ∧ ∃ e, r = .error e) ∨ ∃ fs p root s₁ p₁ a, s.StartsAt path fs p root ∧
      ReflTransGen (Round E fs) (s, p, root) (s₁, p₁, a) ∧
      (r = .ok a ∧ p₁ = [] ∧ s' = s₁ ∨
        (∃ e, r = .error e) ∧ s₁.releaseUnlessRoot a = some s') := by
  rw [State.traverse] at hrun
  split_ifs at hrun
  · cases hrun
    exact .inl ⟨rfl, _, rfl⟩
  · cases hrun
    exact .inl ⟨rfl, _, rfl⟩
  · cases hbest : bestMount s.mounts path with
    | none =>
      rw [hbest] at hrun
      cases hrun
      exact .inl ⟨rfl, _, rfl⟩
    | some mnt =>
      rw [hbest] at hrun
      obtain ⟨root, htable, hrun⟩ := Option.bind_eq_some_iff.1 hrun
      obtain ⟨s₁, p₁, a, hrounds, hend⟩ := walk_rounds hrun
      exact .inr ⟨mnt.mFs, _, root, s₁, p₁, a, ⟨mnt, hbest, rfl, rfl, htable⟩, hrounds, hend⟩

end Rounds

/-! ## The walk from a root -/

/-- A walk that started in `s₀` is at the inode `i` at `curr`, in the state `s`. -/
structure At (E : Env D) (s₀ s : State D) (fs curr : Nat) (i : Inode D) : Prop where
  wf : Wf E s
  inode : s.inodes curr = some i
  owner : i.ownerFs = fs
  frame : s = { s₀ with inodes := s.inodes, nextInode := s.nextInode, table := s.table }
  keeps : Keeps s₀ s

/-- A walk that has one reference, whose release gives the inodes from before. -/
structure Walking (E : Env D) (s₀ s : State D) (fs curr : Nat) (i : Inode D) : Prop extends
    At E s₀ s fs curr i where
  undo : ∀ g, Released s.inodes (walkRef curr i) g → g = s₀.inodes
  counted : ∀ e, s₀.Counted e → s.Counted fun c => e c + one (walkRef curr i) c

/-- A walk that has one reference, where the memory of a new inode may count others besides. -/
structure Roaming (E : Env D) (s₀ s : State D) (fs curr : Nat) (i : Inode D) : Prop extends
    At E s₀ s fs curr i where
  counted : ∀ e, s₀.Counted e → ∃ x, Besides E s₀.nextInode x ∧
    s.Counted fun c => e c + one (walkRef curr i) c + x c

theorem walkRef_setRc (a : Nat) (i : Inode D) (k : BitVec 32) :
    walkRef a (Counted.setRc k i) = walkRef a i := rfl

theorem walkRef_of_ne {a : Nat} {i : Inode D} (h : i.iNum ≠ rootInode) : walkRef a i = some a :=
  if_neg h

theorem walkRef_root {a : Nat} {i : Inode D} (h : i.iNum = rootInode) : walkRef a i = none :=
  if_pos h

/-- A walk starts at the root. -/
theorem Wf.at_root {s : State D} (h : Wf E s) {fs root : Nat}
    (hroot : s.table fs rootInode = some root) :
    ∃ i, i.iNum = rootInode ∧ At E s s fs root i := by
  obtain ⟨i, hi, hfs, hnum⟩ := (h.indexed fs rootInode root).1 hroot
  exact ⟨i, hnum, h, hi, hfs, rfl, .refl s⟩

theorem Wf.walking {s : State D} (h : Wf E s) {fs root : Nat}
    (hroot : s.table fs rootInode = some root) :
    ∃ i, i.iNum = rootInode ∧ Walking E s s fs root i := by
  obtain ⟨i, hnum, hat⟩ := h.at_root hroot
  refine ⟨i, hnum, hat, fun g hg => ?_, fun e he => ?_⟩
  · rw [walkRef_root hnum] at hg
    exact Released.det hg (.none _)
  · rw [walkRef_root hnum]
    exact he

theorem Wf.roaming {s : State D} (h : Wf E s) {fs root : Nat}
    (hroot : s.table fs rootInode = some root) :
    ∃ i, i.iNum = rootInode ∧ Roaming E s s fs root i := by
  obtain ⟨i, hnum, hat⟩ := h.at_root hroot
  refine ⟨i, hnum, hat, fun e he => ⟨_, besides_zero E _, ?_⟩⟩
  rw [walkRef_root hnum]
  exact he

/-- The walk goes to the next inode. -/
theorem At.next {s₀ s s₁ s₂ : State D} {fs curr a : Nat} {i : Inode D} {n : BitVec 32}
    (h : At E s₀ s fs curr i) (hrc : NonZero E)
    (hget : s.getInodeStruct E fs n curr = some (s₁, a))
    (hdrop : s₁.releaseUnlessRoot curr = some s₂) :
    ∃ j, At E s₀ s₂ fs a j ∧ j.iNum = n := by
  have hg := h.wf.of_getInodeStruct h.inode hget
  obtain ⟨k, hk⟩ := hg.stays h.wf h.inode h.inode
  obtain ⟨g, t, hr, rfl, hwf'⟩ := (hg.wf h.wf hrc h.inode).of_releaseUnlessRoot hk hdrop
  rw [walkRef_setRc] at hr
  obtain ⟨j, hj, hfs, hnum⟩ := hg.kept h.wf h.inode hr
  refine ⟨j, ⟨hwf', hj, hfs, ?_, ?_⟩, hnum⟩
  · rw [hg.frame, h.frame]
  · exact (h.keeps.trans (hg.keeps h.inode)).trans (keeps_released hr t)

namespace Walking

variable {s₀ s s' : State D} {fs curr : Nat} {i : Inode D}

/-- Dropping the reference of the walk. -/
theorem stop (h : Walking E s₀ s fs curr i) (h₀ : Wf E s₀)
    (hrun : s.releaseUnlessRoot curr = some s') :
    Same s₀ s' ∧ Wf E s' ∧ ∀ e, s₀.Counted e → s'.Counted e := by
  obtain ⟨f', t, hr, rfl, hwf⟩ := h.wf.of_releaseUnlessRoot h.inode hrun
  obtain rfl := h.undo f' hr
  refine ⟨?_, hwf, fun e he => (h.counted e he).released hr⟩
  have ht : t = s₀.table := hwf.indexed.eq h₀.indexed
  rw [Same, h.frame, ht]

variable {s₁ s₂ : State D} {a : Nat} {n : BitVec 32}

/-- The walk takes a reference to the next inode, and drops the one to the inode before. -/
theorem next (h : Walking E s₀ s fs curr i) (hone : OneRef E) (hn : n ≠ rootInode)
    (hget : s.getInodeStruct E fs n curr = some (s₁, a))
    (hdrop : s₁.releaseUnlessRoot curr = some s₂) :
    ∃ j, Walking E s₀ s₂ fs a j ∧ j.iNum = n := by
  obtain ⟨j, hat, hnum⟩ := h.toAt.next hone.nonZero hget hdrop
  have hg := h.wf.of_getInodeStruct h.inode hget
  obtain ⟨k, hk⟩ := hg.stays h.wf h.inode h.inode
  obtain ⟨g, t, hr, rfl, -⟩ :=
    (hg.wf h.wf hone.nonZero h.inode).of_releaseUnlessRoot hk hdrop
  rw [walkRef_setRc] at hr
  have hstep : walkRef a j = some a := walkRef_of_ne (hnum ▸ hn)
  refine ⟨j, ⟨hat, fun g' hg' => ?_, fun e he => ?_⟩, hnum⟩
  · -- the two releases in the other order
    rw [hstep] at hg'
    obtain ⟨f, hf, hf'⟩ := hr.comm hg'
    obtain rfl := hg.undo h.wf hone h.inode hf
    exact h.undo g' hf'
  · have hboth := hg.counted hone h.inode (h.counted e he)
    rw [hstep]
    refine Balanced.released hr ?_
    exact hboth.congr fun c => Nat.add_right_comm ..

/-- The walk can go on as long as its reference can be released, and there is room for two more. -/
def Owned (s₀ s : State D) (curr : Nat) (i : Inode D) : Prop :=
  Released s.inodes (walkRef curr i) s₀.inodes

theorem Owned.room (h : Owned s₀ s curr i) (hroom : Room 2 s₀) : Room 1 s := by
  intro b j hj
  by_cases hgone : s₀.inodes b = none
  · have hrc : j.iRc = 1 := Released.gone h hj hgone
    rw [hrc]
    decide
  · obtain ⟨d, hd⟩ := Option.ne_none_iff_exists'.1 hgone
    have hlt := hroom b d hd
    obtain ⟨j', hj', -, rfl | ⟨hpos, -, hpred⟩⟩ := Released.stays h hd
    · obtain rfl := Option.some.inj (hj.symm.trans hj')
      omega
    · obtain rfl := Option.some.inj (hj.symm.trans hj')
      replace hpred : d.iRc = j.iRc - 1 := hpred
      have hcount := toNat_pred (toInt_pos.1 hpos).1
      rw [show Counted.rc j = j.iRc from rfl, ← hpred] at hcount
      omega

theorem owned_start (hi : i.iNum = rootInode) : Owned s s curr i := by
  rw [Owned, walkRef_root hi]
  exact .none _

theorem exists_stop (h : Walking E s₀ s fs curr i) (hown : Owned s₀ s curr i) :
    ∃ s', s.releaseUnlessRoot curr = some s' := by
  obtain ⟨t, hrun, -⟩ := h.wf.releaseUnlessRoot h.inode hown
  exact ⟨_, hrun⟩

/-- A reference to the result can be released after the walk's one. -/
theorem owned_next (h : Walking E s₀ s fs curr i) (hown : Owned s₀ s curr i) (hone : OneRef E)
    (hg : Got E s fs n curr i s₁ a) (hback : Released s₁.inodes (some a) s.inodes) :
    ∃ s₂, s₁.releaseUnlessRoot curr = some s₂ ∧ Released s₂.inodes (some a) s₀.inodes := by
  obtain ⟨k, hk⟩ := hg.stays h.wf h.inode h.inode
  obtain ⟨g, hr, hr'⟩ := hback.comm hown
  rw [← walkRef_setRc curr i k] at hr
  obtain ⟨t, hdrop, -⟩ := (hg.wf h.wf hone.nonZero h.inode).releaseUnlessRoot hk hr
  exact ⟨_, hdrop, hr'⟩

theorem exists_next (h : Walking E s₀ s fs curr i) (hown : Owned s₀ s curr i)
    (hroom : Room 2 s₀) (hone : OneRef E) (hn : n ≠ rootInode)
    (hread : s.table fs n = none → ∃ d, (E.vfs fs).readInodeDisk n
      ((E.vfs fs).construct (E.slots s.nextInode).data) = some d) :
    ∃ s₁ a s₂ j, s.getInodeStruct E fs n curr = some (s₁, a) ∧
      s₁.releaseUnlessRoot curr = some s₂ ∧ Walking E s₀ s₂ fs a j ∧ Owned s₀ s₂ a j ∧
      j.iNum = n := by
  have hroom₁ := hown.room hroom
  obtain ⟨s₁, a, hget, hg⟩ := h.wf.gets (hroom₁.mono (Nat.zero_le 1)) h.inode hread
  obtain ⟨s₂, hdrop, hr⟩ := h.owned_next hown hone hg (hg.back h.wf hone hroom₁ h.inode)
  obtain ⟨j, hj, hnum⟩ := h.next hone hn hget hdrop
  refine ⟨s₁, a, s₂, j, hget, hdrop, hj, ?_, hnum⟩
  rwa [Owned, walkRef_of_ne (hnum ▸ hn)]

end Walking

namespace Roaming

variable {s₀ s s₁ s₂ : State D} {fs curr a : Nat} {i : Inode D} {n : BitVec 32} {e : Nat → Nat}
  (h : Roaming E s₀ s fs curr i)
include h

/-- The references after the next one is taken. -/
theorem counted_got (hrc : NonZero E) (hle : ∀ n, (E.slots n).rc.toNat ≤ 2 ^ 31)
    (hg : Got E s fs n curr i s₁ a) (he : s₀.Counted e) :
    ∃ x, Besides E s₀.nextInode x ∧
      s₁.Counted fun c => e c + one (some a) c + x c + one (walkRef curr i) c := by
  obtain ⟨x, hx, hcounted⟩ := h.counted e he
  obtain ⟨x', hx', hcounted'⟩ := hg.counted_besides hrc (hle _) h.inode hcounted
  exact ⟨_, hx.add hx' h.keeps.le, hcounted'.congr fun c => by omega⟩

theorem next (hrc : NonZero E) (hle : ∀ n, (E.slots n).rc.toNat ≤ 2 ^ 31) (hn : n ≠ rootInode)
    (hget : s.getInodeStruct E fs n curr = some (s₁, a))
    (hdrop : s₁.releaseUnlessRoot curr = some s₂) :
    ∃ j, Roaming E s₀ s₂ fs a j ∧ j.iNum = n := by
  obtain ⟨j, hat, hnum⟩ := h.toAt.next hrc hget hdrop
  have hg := h.wf.of_getInodeStruct h.inode hget
  obtain ⟨k, hk⟩ := hg.stays h.wf h.inode h.inode
  obtain ⟨g, t, hr, rfl, -⟩ := (hg.wf h.wf hrc h.inode).of_releaseUnlessRoot hk hdrop
  rw [walkRef_setRc] at hr
  refine ⟨j, ⟨hat, fun e he => ?_⟩, hnum⟩
  obtain ⟨x, hx, hcounted⟩ := h.counted_got hrc hle hg he
  refine ⟨x, hx, ?_⟩
  rw [walkRef_of_ne (hnum ▸ hn)]
  exact hcounted.released hr

/-- Dropping the reference of the walk. -/
theorem stop (hrun : s.releaseUnlessRoot curr = some s₁) :
    Wf E s₁ ∧ Keeps s₀ s₁ ∧
      s₁ = { s₀ with inodes := s₁.inodes, nextInode := s₁.nextInode, table := s₁.table } ∧
      ∀ e, s₀.Counted e → ∃ x, Besides E s₀.nextInode x ∧ s₁.Counted fun c => e c + x c := by
  obtain ⟨f', t, hr, rfl, hwf⟩ := h.wf.of_releaseUnlessRoot h.inode hrun
  refine ⟨hwf, h.keeps.trans (keeps_released hr t), ?_, fun e he => ?_⟩
  · rw [h.frame]
  · obtain ⟨x, hx, hcounted⟩ := h.counted e he
    exact ⟨x, hx, Balanced.released hr (hcounted.congr fun c => Nat.add_right_comm ..)⟩

theorem exists_stop (he : s₀.Counted e) (hroom : Room 0 s) :
    ∃ s', s.releaseUnlessRoot curr = some s' := by
  obtain ⟨x, -, hcounted⟩ := h.counted e he
  obtain ⟨f', hr⟩ := Balanced.exists_released (e := fun c => e c + x c)
    (hcounted.congr fun c => Nat.add_right_comm ..) hroom
  obtain ⟨t, hdrop, -⟩ := h.wf.releaseUnlessRoot h.inode hr
  exact ⟨_, hdrop⟩

/-- Where there is room, the walk goes to the next inode. -/
theorem exists_next (hrc : NonZero E) {k : Nat} (hslots : ∀ n, (E.slots n).rc.toNat + k < 2 ^ 31)
    (he : s₀.Counted e) (hroom : Room (k + 1) s) (hn : n ≠ rootInode)
    (hread : ∀ d, ∃ d', (E.vfs fs).readInodeDisk n d = some d') :
    ∃ s₁ a s₂ j, s.getInodeStruct E fs n curr = some (s₁, a) ∧
      s₁.releaseUnlessRoot curr = some s₂ ∧ (Roaming E s₀ s₂ fs a j ∧ Room k s₂) ∧
      j.iNum = n := by
  have hle : ∀ n, (E.slots n).rc.toNat ≤ 2 ^ 31 := fun n => by
    have := hslots n
    omega
  obtain ⟨s₁, a, hget, hg⟩ :=
    h.wf.gets (hroom.mono (Nat.zero_le _)) h.inode fun _ => hread _
  have hroom₁ : Room k s₁ := hg.room h.inode hroom (hslots _)
  obtain ⟨c, hc⟩ := hg.stays h.wf h.inode h.inode
  obtain ⟨x, -, hcounted⟩ := h.counted_got hrc hle hg he
  obtain ⟨f', hr⟩ := hcounted.exists_released (hroom₁.mono (Nat.zero_le k))
  rw [← walkRef_setRc curr i c] at hr
  obtain ⟨t, hdrop, -⟩ := (hg.wf h.wf hrc h.inode).releaseUnlessRoot hc hr
  obtain ⟨j, hj, hnum⟩ := h.next hrc hle hn hget hdrop
  exact ⟨s₁, a, _, j, hget, hdrop, ⟨hj, hroom₁.released hr t⟩, hnum⟩

end Roaming

/-- The rest of the path has a component. -/
def Named (path : Str) : Prop := ∃ c ∈ path, c ≠ slash

instance (path : Str) : Decidable (Named path) :=
  inferInstanceAs (Decidable (∃ c ∈ path, c ≠ slash))

/-- What a walk from `s₀` returns: an inode with a reference to it, unless this is the root, or an
error and the state as it was. -/
def Walked (E : Env D) (s₀ : State D) (fs : Nat) (atRoot : Prop) : State D × Except Errno Nat → Prop
  | (s, .ok a) => ∃ i, Walking E s₀ s fs a i ∧ (i.iNum = rootInode ↔ atRoot)
  | (s, .error _) => Same s₀ s ∧ Wf E s ∧ ∀ e, s₀.Counted e → s.Counted e

section Keeps

variable {fs : Nat} {P : State D → Nat → Inode D → Prop} (hroot : NoRoot E)
  (hnext : ∀ {s s₁ s₂ : State D} {curr a : Nat} {i : Inode D} {n : BitVec 32}, P s curr i →
    n ≠ rootInode → s.getInodeStruct E fs n curr = some (s₁, a) →
    s₁.releaseUnlessRoot curr = some s₂ → ∃ j, P s₂ a j ∧ j.iNum = n)
  {s s' : State D} {curr a : Nat} {i : Inode D} {path p : Str} (h : P s curr i)
include hroot hnext h

/-- A round of a walk, which stays at the root while it skips slashes. -/
theorem Round.keeps (hr : Round E fs (s, path, curr) (s', p, a)) :
    ∃ j, P s' a j ∧ (j.iNum = rootInode ∧ ¬ Named p ↔ i.iNum = rootInode ∧ ¬ Named path) := by
  cases hr with
  | skip =>
    refine ⟨i, h, ?_⟩
    have hnamed : Named (slash :: p) ↔ Named p := by simp [Named]
    rw [hnamed]
  | @next _ s₁ _ _ _ _ n hfinds hget hdrop =>
    obtain ⟨c, path', i', rfl, hc, -, hlook⟩ := hfinds
    have hn : n ≠ rootInode := fun he => hroot _ _ _ _ (by rw [hlook, he])
    obtain ⟨j, hj, hnum⟩ := hnext h hn hget hdrop
    refine ⟨j, hj, iff_of_false ?_ ?_⟩
    · exact fun hbad => hn (hnum.symm.trans hbad.1)
    · exact fun hbad => hbad.2 ⟨c, List.mem_cons_self, hc⟩

theorem Round.run_keeps (hr : ReflTransGen (Round E fs) (s, path, curr) (s', p, a)) :
    ∃ j, P s' a j ∧ (j.iNum = rootInode ∧ ¬ Named p ↔ i.iNum = rootInode ∧ ¬ Named path) := by
  generalize hy : (s', p, a) = y at hr
  induction hr generalizing s' p a with
  | refl =>
    cases hy
    exact ⟨i, h, Iff.rfl⟩
  | @tail x y _ hround ih =>
    obtain ⟨s₁, p₁, a₁⟩ := x
    subst hy
    obtain ⟨j, hj, hiff⟩ := ih rfl
    obtain ⟨k, hk, hiff'⟩ := Round.keeps hroot hnext hj hround
    exact ⟨k, hk, hiff'.trans hiff⟩

end Keeps

theorem Roaming.rounds {s₀ s s' : State D} {fs curr a : Nat} {i : Inode D} {path p : Str}
    (h : Roaming E s₀ s fs curr i) (hrc : NonZero E) (hle : ∀ n, (E.slots n).rc.toNat ≤ 2 ^ 31)
    (hroot : NoRoot E) (hr : ReflTransGen (Round E fs) (s, path, curr) (s', p, a)) :
    ∃ j, Roaming E s₀ s' fs a j ∧
      (j.iNum = rootInode ∧ ¬ Named p ↔ i.iNum = rootInode ∧ ¬ Named path) :=
  Round.run_keeps (P := fun s curr i => Roaming E s₀ s fs curr i) hroot
    (fun h => h.next hrc hle) h hr

theorem Walking.rounds {s₀ s s' : State D} {fs curr a : Nat} {i : Inode D} {path p : Str}
    (h : Walking E s₀ s fs curr i) (hone : OneRef E) (hroot : NoRoot E)
    (hr : ReflTransGen (Round E fs) (s, path, curr) (s', p, a)) :
    ∃ j, Walking E s₀ s' fs a j ∧
      (j.iNum = rootInode ∧ ¬ Named p ↔ i.iNum = rootInode ∧ ¬ Named path) :=
  Round.run_keeps (P := fun s curr i => Walking E s₀ s fs curr i) hroot
    (fun h => h.next hone) h hr

/-- What `traverse` returns. -/
theorem Wf.traverse {s s' : State D} (h : Wf E s) (hone : OneRef E) (hroot : NoRoot E) {path : Str}
    {r : Except Errno Nat} (hrun : s.traverse E path = some (s', r)) :
    (s' = s ∧ ∃ e, r = .error e) ∨ ∃ fs p root, s.StartsAt path fs p root ∧
      Walked E s fs (¬ Named p) (s', r) := by
  rcases traverse_rounds hrun with hleft | ⟨fs, p, root, s₁, p₁, a, hstart, hrounds, hend⟩
  · exact .inl hleft
  obtain ⟨mnt, -, -, -, htable⟩ := id hstart
  obtain ⟨i, hi, hwalk⟩ := h.walking htable
  obtain ⟨j, hj, hiff⟩ := hwalk.rounds hone hroot hrounds
  refine .inr ⟨fs, p, root, hstart, ?_⟩
  rcases hend with ⟨rfl, rfl, rfl⟩ | ⟨⟨e, rfl⟩, hstop⟩
  · refine ⟨j, hj, ?_⟩
    have hnil : ¬ Named [] := by simp [Named]
    rw [← and_iff_left (a := j.iNum = rootInode) hnil, hiff, and_iff_right hi]
  · exact hj.stop h hstop

theorem wf_empty : Wf E State.empty := by
  refine ⟨fun _ _ => rfl, fun a i hi => ?_, fun fs n a => ?_, fun mnt hmnt => ?_⟩
  · cases hi
  · refine iff_of_false (Option.some_ne_none a).symm ?_
    rintro ⟨i, hi, -⟩
    cases hi
  · cases hmnt

/-- The first inode of a file system. -/
theorem Wf.mount {s s' : State D} (h : Wf E s) (hrc : NonZero E) {p : Str} {fs : Nat}
    (hfs : ∀ n, s.table fs n = none) (hrun : s.mount E p fs = some s') : Wf E s' := by
  simp only [State.mount, allocInodeStruct, takeParentStruct, Option.bind_eq_bind,
    Option.bind_some] at hrun
  split_ifs at hrun with hpath
  obtain rfl := Option.some.inj hrun
  have hnew : (fun _ => none) = s.table fs := funext fun n => (hfs n).symm
  have hsound : Sound E s.nextInode ⟨(E.slots s.nextInode).rc, fs, none, rootInode,
      (E.vfs fs).construct (E.slots s.nextInode).data⟩ := by
    refine ⟨hrc s.nextInode, fun q hq => ?_, fun hbad => absurd rfl hbad⟩
    cases hq
  have hwf := h.insert hsound (hfs rootInode)
  rw [hnew]
  refine ⟨hwf.bound, hwf.sound, hwf.indexed, fun mnt hmnt => ?_⟩
  have hmem : mnt = ⟨p, fs⟩ ∨ mnt ∈ s.mounts := by
    dsimp only at hmnt
    cases hs : s.mounts with
    | nil => exact .inl (by simpa [hs] using hmnt)
    | cons first rest =>
      rw [hs, List.mem_cons, List.mem_cons] at hmnt
      rw [List.mem_cons]
      tauto
  rcases hmem with rfl | hmem
  · exact hpath.2.1
  · exact h.mounted mnt hmem

end State

namespace Client

open State

/-- The states that mounts and the calls of a client lead to. -/
inductive Reachable (E : Env D) : Client D → Prop
  | empty : Reachable E ⟨.empty, []⟩
  | mount {y : Client D} {p : Str} {fs : Nat} {s : State D} (hy : Reachable E y)
      (hfs : ∀ n, y.state.table fs n = none) (hrun : y.state.mount E p fs = some s) :
      Reachable E ⟨s, y.held⟩
  | call {y y' : Client D} {c : Call} (hy : Reachable E y) (hrun : y.call E c = some y') :
      Reachable E y'

theorem Reachable.wf {y : Client D} (h : Reachable E y) (hone : OneRef E) (hroot : NoRoot E) :
    Wf E y.state := by
  induction h with
  | empty => exact wf_empty
  | mount _ hfs hrun ih => exact ih.mount hone.nonZero hfs hrun
  | @call y y' c _ hrun ih =>
    cases c with
    | traverse path =>
      obtain ⟨⟨s, r⟩, htraverse, hrun⟩ := Option.bind_eq_some_iff.1 hrun
      have hwf : Wf E s := by
        rcases ih.traverse hone hroot htraverse with ⟨rfl, -⟩ | ⟨fs, p, root, -, hwalked⟩
        · exact ih
        · cases r with
          | ok a =>
            obtain ⟨i, hi, -⟩ := hwalked
            exact hi.wf
          | error e => exact hwalked.2.1
      cases r <;> cases hrun <;> exact hwf
    | openInode obj =>
      obtain ⟨⟨s, f⟩, hopen, hrun⟩ := Option.bind_eq_some_iff.1 hrun
      cases hrun
      obtain ⟨s, htake, hopen⟩ := Option.bind_eq_some_iff.1 hopen
      obtain ⟨i, -, -, rfl, hwf⟩ := ih.of_takeRefLocked htake
      cases hopen
      exact ⟨hwf.bound, hwf.sound, hwf.indexed, hwf.mounted⟩
    | releaseFile f =>
      obtain ⟨s, hrelease, hrun⟩ := Option.bind_eq_some_iff.1 hrun
      cases hrun
      obtain ⟨d, hd, hrelease⟩ := Option.bind_eq_some_iff.1 hrelease
      split_ifs at hrelease
      · obtain ⟨s₁, hinode, hrelease⟩ := Option.bind_eq_some_iff.1 hrelease
        cases hrelease
        obtain ⟨f', t, -, rfl, hwf⟩ := ih.of_release hinode
        exact ⟨hwf.bound, hwf.sound, hwf.indexed, hwf.mounted⟩
      · cases hrelease
        exact ⟨ih.bound, ih.sound, ih.indexed, ih.mounted⟩
    | releaseInode obj =>
      rw [Client.call] at hrun
      split_ifs at hrun
      obtain ⟨s, hrelease, hrun⟩ := Option.bind_eq_some_iff.1 hrun
      cases hrun
      obtain ⟨f', t, -, rfl, hwf⟩ := ih.of_release hrelease
      exact hwf

/-- A file system with one file, `a`. -/
def oneName : Env Unit where
  vfs _ :=
    { construct := id
      readInodeDisk _ _ := some ()
      lookup n _ name := some (if n = rootInode ∧ name = [0x61] then .ok 3 else .error .noEntry) }
  slots _ := ⟨1, ()⟩

theorem oneName_noRoot : NoRoot oneName := by
  intro fs n d name
  simp only [oneName]
  split_ifs <;> simp [rootInode]

end Client

end TinyLittleOs.Fs
