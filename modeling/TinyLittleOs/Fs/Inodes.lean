import TinyLittleOs.Fs.Vfs

/-!
# The inode structs and their tables

The tables of a reachable state hold the live inode structs. `release` is the release of a forest
of counted objects, and `get_inode_struct` returns a struct with one reference more, which a
release brings back. The release of an inode whose count has overflowed stops the kernel.
-/

namespace TinyLittleOs.Fs

open Lib Function Forest

variable {D : Type}

namespace State

/-- The tables hold the inode structs of `f`, by file system and number. -/
def Indexed (table : Nat → BitVec 32 → Option Nat) (f : Forest (Inode D)) : Prop :=
  ∀ fs n a, table fs n = some a ↔ ∃ i, f a = some i ∧ i.ownerFs = fs ∧ i.iNum = n

theorem Indexed.eq {t t' : Nat → BitVec 32 → Option Nat} {f : Forest (Inode D)}
    (h : Indexed t f) (h' : Indexed t' f) : t = t' := by
  funext fs n
  apply Option.ext
  intro a
  exact (h fs n a).trans (h' fs n a).symm

/-- Another struct at a place keeps the tables, when its file system and number are the same. -/
theorem Indexed.update {t : Nat → BitVec 32 → Option Nat} {f : Forest (Inode D)} {a : Nat}
    {i j : Inode D} (h : Indexed t f) (ha : f a = some i) (hfs : j.ownerFs = i.ownerFs)
    (hnum : j.iNum = i.iNum) : Indexed t (Function.update f a (some j)) := by
  intro fs n b
  rw [h]
  by_cases hb : b = a
  · subst hb
    simp [ha, hfs, hnum]
  · rw [update_of_ne hb]

theorem Indexed.remove {t : Nat → BitVec 32 → Option Nat} {f : Forest (Inode D)} {a : Nat}
    {i : Inode D} (h : Indexed t f) (ha : f a = some i) :
    Indexed (Function.update t i.ownerFs (Function.update (t i.ownerFs) i.iNum none))
      (Function.update f a none) := by
  have hself : t i.ownerFs i.iNum = some a := (h ..).2 ⟨i, ha, rfl, rfl⟩
  intro fs n b
  by_cases hb : b = a
  · subst hb
    rw [update_self]
    refine iff_of_false (fun hbad => ?_) (by simp)
    by_cases hkey : fs = i.ownerFs ∧ n = i.iNum
    · rw [hkey.1, hkey.2, update_self, update_self] at hbad
      cases hbad
    · have hold : t fs n = some b := by
        by_cases hfs : fs = i.ownerFs
        · subst hfs
          rwa [update_self, update_of_ne fun hn => hkey ⟨rfl, hn⟩] at hbad
        · rwa [update_of_ne hfs] at hbad
      obtain ⟨j, hj, rfl, rfl⟩ := (h ..).1 hold
      obtain rfl := Option.some.inj (ha.symm.trans hj)
      exact hkey ⟨rfl, rfl⟩
  · rw [update_of_ne hb, ← h]
    by_cases hfs : fs = i.ownerFs
    · subst hfs
      rw [update_self]
      by_cases hn : n = i.iNum
      · subst hn
        rw [update_self, hself]
        simp [Ne.symm hb]
      · rw [update_of_ne hn]
    · rw [update_of_ne hfs]

theorem Indexed.insert {t : Nat → BitVec 32 → Option Nat} {f : Forest (Inode D)} {a : Nat}
    {i : Inode D} (h : Indexed t f) (ha : f a = none) (hnone : t i.ownerFs i.iNum = none) :
    Indexed (Function.update t i.ownerFs (Function.update (t i.ownerFs) i.iNum (some a)))
      (Function.update f a (some i)) := by
  have hdead : ∀ fs n, t fs n ≠ some a := fun fs n hbad => by
    obtain ⟨j, hj, _⟩ := (h ..).1 hbad
    simp [ha] at hj
  intro fs n b
  by_cases hkey : fs = i.ownerFs ∧ n = i.iNum
  · obtain ⟨rfl, rfl⟩ := hkey
    rw [update_self, update_self]
    by_cases hb : b = a
    · simp [hb]
    · rw [update_of_ne hb, ← h, hnone]
      simp [Ne.symm hb]
  · have hold : Function.update t i.ownerFs (Function.update (t i.ownerFs) i.iNum (some a)) fs n =
        t fs n := by
      by_cases hfs : fs = i.ownerFs
      · subst hfs
        rw [update_self, update_of_ne fun hn => hkey ⟨rfl, hn⟩]
      · rw [update_of_ne hfs]
    rw [hold]
    by_cases hb : b = a
    · subst hb
      rw [update_self]
      refine iff_of_false (hdead fs n) ?_
      rintro ⟨j, hj, rfl, rfl⟩
      obtain rfl := Option.some.inj hj
      exact hkey ⟨rfl, rfl⟩
    · rw [update_of_ne hb, h]

/-- A struct with a count other than zero and an older parent, which holds what was read from the
disk. -/
structure Sound (E : Env D) (a : Nat) (i : Inode D) : Prop where
  count : i.iRc ≠ 0
  older : ∀ p, i.iParentRef = some p → p < a
  loaded : i.iNum ≠ rootInode → ∃ d, (E.vfs i.ownerFs).readInodeDisk i.iNum d = some i.data

/-- The live structs were made, are sound, and are in the tables. The mount points have names. -/
structure Wf (E : Env D) (s : State D) : Prop where
  bound : ∀ a, s.nextInode ≤ a → s.inodes a = none
  sound : ∀ a i, s.inodes a = some i → Sound E a i
  indexed : Indexed s.table s.inodes
  mounted : ∀ mnt ∈ s.mounts, mnt.mPath ≠ []

variable {E : Env D}

/-! ## Releasing an inode -/

/-- The loop on a state whose structs include those of `f`, which is where it takes place. -/
theorem releaseLoop_spec {f f' : Forest (Inode D)} {x : Option Nat} (hr : Released f x f') {a : Nat}
    (hx : x = some a) {s : State D} {fuel : Nat} (hfuel : a < fuel)
    (hsub : ∀ b i, f b = some i → s.inodes b = some i) (hidx : Indexed s.table f)
    (holder : ∀ c i p, f c = some i → i.iParentRef = some p → p < c) :
    ∃ g t, releaseLoop fuel s a = some { s with inodes := g, table := t } ∧ Indexed t f' ∧
      ∀ b, g b = if f b = none then s.inodes b else f' b := by
  induction hr generalizing a s fuel with
  | none => cases hx
  | @keep f a i hc hpos hrc =>
    cases hx
    obtain ⟨fuel, rfl⟩ : ∃ k, fuel = k + 1 := ⟨fuel - 1, by omega⟩
    replace hpos : 0 < i.iRc.toInt := hpos
    have hlast : (i.iRc - 1 == 0) = false := by
      rw [beq_eq_false_iff_ne, ne_eq, BitVec.sub_eq_iff_eq_add]
      exact hrc
    refine ⟨update s.inodes a (some { i with iRc := i.iRc - 1 }), s.table, ?_,
      hidx.update hc rfl rfl, fun b => ?_⟩
    · simp only [releaseLoop, releaseRefLocked, hsub a i hc, Option.bind_eq_bind,
        Option.bind_some, if_pos hpos, hlast, Bool.false_eq_true, if_false]
    · by_cases hb : b = a
      · simp [hb, hc, Counted.setRc, Counted.rc]
      · rw [update_of_ne hb, update_of_ne hb]
        split_ifs with hnone
        · rfl
        · obtain ⟨j, hj⟩ := Option.ne_none_iff_exists'.1 hnone
          rw [hj, hsub b j hj]
  | @last f f' a i hc hrc hparent ih =>
    cases hx
    obtain ⟨fuel, rfl⟩ : ∃ k, fuel = k + 1 := ⟨fuel - 1, by omega⟩
    replace hrc : i.iRc = 1 := hrc
    replace hparent : Released (update f a none) i.iParentRef f' := hparent
    have hdead : f' a = none := hparent.dead (update_self ..)
    let s₁ : State D :=
      { s with
        inodes := update s.inodes a (some { i with iRc := i.iRc - 1 })
        table := update s.table i.ownerFs (update (s.table i.ownerFs) i.iNum none) }
    have hpos : 0 < i.iRc.toInt := by
      rw [hrc]
      decide
    have hlast : (i.iRc - 1 == 0) = true := by rw [hrc]; rfl
    have hstep : releaseLoop (fuel + 1) s a =
        (i.iParentRef.elim (some s₁) (releaseLoop fuel s₁)).bind
        fun s => some { s with inodes := update s.inodes a none } := by
      simp only [releaseLoop, releaseRefLocked, hsub a i hc, Option.bind_eq_bind,
        Option.bind_some, if_pos hpos, hlast, if_true, update_self]
      rfl
    have hfin : ∀ g t, Indexed t f' →
        (∀ b, g b = if update f a none b = none then s₁.inodes b else f' b) →
        Indexed t f' ∧ ∀ b, update g a none b = if f b = none then s.inodes b else f' b := by
      intro g t ht hg
      refine ⟨ht, fun b => ?_⟩
      by_cases hb : b = a
      · simp [hb, hc, hdead]
      · rw [update_of_ne hb, hg, update_of_ne hb]
        simp only [s₁, update_of_ne hb]
    rw [hstep]
    cases hp : i.iParentRef with
    | none =>
      rw [hp] at hparent
      cases hparent
      refine ⟨_, s₁.table, rfl, hfin s₁.inodes s₁.table (hidx.remove hc) fun b => ?_⟩
      split_ifs with hb
      · rfl
      · have hba : b ≠ a := fun he => hb (by rw [he, update_self])
        obtain ⟨j, hj⟩ := Option.ne_none_iff_exists'.1 hb
        rw [hj]
        rw [update_of_ne hba] at hj
        simp only [s₁, update_of_ne hba, hsub b j hj]
    | some p =>
      have hpa : p < a := holder a i p hc hp
      obtain ⟨g, t, hrun, ht, hg⟩ := ih hp (s := s₁) (show p < fuel by omega)
        (fun b j hj => by
          have hba : b ≠ a := fun he => by simp [he] at hj
          rw [update_of_ne hba] at hj
          simpa only [s₁, update_of_ne hba] using hsub b j hj)
        (hidx.remove hc)
        (fun b j q hj hq => by
          have hba : b ≠ a := fun he => by simp [he] at hj
          rw [update_of_ne hba] at hj
          exact holder b j q hj hq)
      refine ⟨_, t, ?_, hfin g t ht hg⟩
      rw [Option.elim_some, hrun, Option.bind_some]

/-- A release of the forest is a release of the model. -/
theorem Wf.release {s : State D} (h : Wf E s) {a : Nat} {f' : Forest (Inode D)}
    (hr : Released s.inodes (some a) f') :
    ∃ t, s.release a = some { s with inodes := f', table := t } ∧
      Wf E { s with inodes := f', table := t } := by
  obtain ⟨g, t, hrun, ht, hg⟩ := releaseLoop_spec hr rfl (Nat.lt_succ_self a) (fun _ _ hi => hi)
    h.indexed fun c i p hi hp => (h.sound c i hi).older p hp
  obtain rfl : g = f' := by
    funext b
    rw [hg]
    split_ifs with hb
    · rw [hb, hr.dead hb]
    · rfl
  refine ⟨t, hrun, fun b hb => hr.dead (h.bound b hb), fun b i hi => ?_, ht, h.mounted⟩
  obtain ⟨j, hj, hij, hcount⟩ := hr.stays hi
  have hsound := h.sound b j hj
  rcases hcount with rfl | ⟨-, hone, hpred⟩
  · exact hsound
  · rw [hij]
    refine ⟨?_, hsound.older, hsound.loaded⟩
    rw [hpred]
    show j.iRc - 1 ≠ 0
    rw [ne_eq, BitVec.sub_eq_iff_eq_add]
    exact hone

/-- A release that returns is a release of the forest. Other structs than those of `f` are there at
most with a count that stops it. -/
theorem exists_released_of_releaseLoop {fuel : Nat} {s s' : State D} {a : Nat}
    (hrun : releaseLoop fuel s a = some s') {f : Forest (Inode D)}
    (hsub : ∀ b i, s.inodes b = some i → f b = some i ∨ i.iRc.toInt ≤ 0) :
    ∃ f', Released f (some a) f' := by
  induction fuel generalizing s s' a f with
  | zero => cases hrun
  | succ fuel ih =>
    simp only [releaseLoop, releaseRefLocked, Option.bind_eq_bind, Option.bind_assoc] at hrun
    obtain ⟨i, hi, hrun⟩ := Option.bind_eq_some_iff.1 hrun
    split_ifs at hrun with hpos
    · have hf : f a = some i := (hsub a i hi).resolve_right (by omega)
      simp only [Option.bind_some, update_self] at hrun
      by_cases hone : i.iRc = 1
      · have hlast : (i.iRc - 1 == 0) = true := by rw [hone]; rfl
        simp only [hlast, if_true] at hrun
        have hparent : ∃ f', Released (update f a none) i.iParentRef f' := by
          cases hp : i.iParentRef with
          | none => exact ⟨_, .none _⟩
          | some p =>
            rw [hp] at hrun
            obtain ⟨s₁, hrun, -⟩ := Option.bind_eq_some_iff.1 hrun
            refine ih hrun fun b j hj => ?_
            dsimp only at hj
            by_cases hb : b = a
            · rw [hb, update_self, Option.some.injEq] at hj
              rw [← hj, hone]
              exact .inr (Int.le_refl 0)
            · rw [update_of_ne hb] at hj ⊢
              exact hsub b j hj
        obtain ⟨f', hf'⟩ := hparent
        exact ⟨f', .last hf hone hf'⟩
      · exact ⟨_, .keep hf hpos hone⟩
    · cases hrun

theorem Wf.of_release {s s' : State D} (h : Wf E s) {a : Nat} (hrun : s.release a = some s') :
    ∃ f' t, Released s.inodes (some a) f' ∧ s' = { s with inodes := f', table := t } ∧
      Wf E { s with inodes := f', table := t } := by
  obtain ⟨f', hf'⟩ := exists_released_of_releaseLoop hrun fun b i hi => .inl hi
  obtain ⟨t, ht, hwf⟩ := h.release hf'
  exact ⟨f', t, hf', Option.some.inj (hrun.symm.trans ht), hwf⟩

/-- The root is not released by the walk. -/
def walkRef (a : Nat) (i : Inode D) : Option Nat := if i.iNum = rootInode then none else some a

theorem Wf.releaseUnlessRoot {s : State D} (h : Wf E s) {a : Nat} {i : Inode D}
    (ha : s.inodes a = some i) {f' : Forest (Inode D)} (hr : Released s.inodes (walkRef a i) f') :
    ∃ t, s.releaseUnlessRoot a = some { s with inodes := f', table := t } ∧
      Wf E { s with inodes := f', table := t } := by
  rw [State.releaseUnlessRoot, ha, Option.bind_eq_bind, Option.bind_some]
  rw [walkRef] at hr
  split_ifs at hr with hroot
  · cases hr
    exact ⟨s.table, if_neg (not_not_intro hroot), h⟩
  · rw [if_pos hroot]
    exact h.release hr

theorem Wf.of_releaseUnlessRoot {s s' : State D} (h : Wf E s) {a : Nat} {i : Inode D}
    (ha : s.inodes a = some i) (hrun : s.releaseUnlessRoot a = some s') :
    ∃ f' t, Released s.inodes (walkRef a i) f' ∧ s' = { s with inodes := f', table := t } ∧
      Wf E s' := by
  rw [State.releaseUnlessRoot, ha, Option.bind_eq_bind, Option.bind_some] at hrun
  rw [walkRef]
  by_cases hroot : i.iNum = rootInode
  · rw [if_neg (not_not_intro hroot), Option.some.injEq] at hrun
    rw [if_pos hroot, ← hrun]
    exact ⟨s.inodes, s.table, .none _, rfl, h⟩
  · rw [if_pos hroot] at hrun
    rw [if_neg hroot]
    obtain ⟨f', t, hr, rfl, hwf⟩ := h.of_release hrun
    exact ⟨f', t, hr, rfl, hwf⟩

/-! ## Taking an inode -/

/-- Another sound struct with the file system and the number of the one at `a`. -/
theorem Wf.set {s : State D} (h : Wf E s) {a : Nat} {i j : Inode D} (ha : s.inodes a = some i)
    (hj : Sound E a j) (hfs : j.ownerFs = i.ownerFs) (hnum : j.iNum = i.iNum) :
    Wf E { s with inodes := update s.inodes a (some j) } where
  bound b hb := by
    have hba : b ≠ a := fun he => by simp [h.bound a (he ▸ hb)] at ha
    exact (update_of_ne hba ..).trans (h.bound b hb)
  sound b k hk := by
    dsimp only at hk
    by_cases hba : b = a
    · subst hba
      rw [update_self, Option.some.injEq] at hk
      rwa [← hk]
    · rw [update_of_ne hba] at hk
      exact h.sound b k hk
  indexed := h.indexed.update ha hfs hnum
  mounted := h.mounted

theorem Wf.takeRefLocked {s : State D} (h : Wf E s) {a : Nat} {i : Inode D}
    (ha : s.inodes a = some i) (hpos : 0 < i.iRc.toInt) :
    s.takeRefLocked a = some { s with inodes := take s.inodes a i } ∧
      Wf E { s with inodes := take s.inodes a i } := by
  have hsound := h.sound a i ha
  constructor
  · simp only [State.takeRefLocked, ha, Option.bind_eq_bind, Option.bind_some, if_pos hpos]
    rfl
  · have hcount : i.iRc + 1 ≠ 0 := by
      intro he
      rw [toInt_pos] at hpos
      have hsucc := toNat_succ (x := i.iRc) (by omega)
      rw [he] at hsucc
      cases hsucc
    exact h.set ha ⟨hcount, hsound.older, hsound.loaded⟩ rfl rfl

theorem Wf.of_takeRefLocked {s s' : State D} (h : Wf E s) {a : Nat}
    (hrun : s.takeRefLocked a = some s') :
    ∃ i, s.inodes a = some i ∧ 0 < i.iRc.toInt ∧
      s' = { s with inodes := take s.inodes a i } ∧ Wf E s' := by
  obtain ⟨i, hi, htake⟩ := Option.bind_eq_some_iff.1 hrun
  obtain ⟨hpos, -⟩ := Option.ite_none_right_eq_some.1 htake
  obtain ⟨hrun', hwf⟩ := h.takeRefLocked hi hpos
  obtain rfl := Option.some.inj (hrun'.symm.trans hrun)
  exact ⟨i, hi, hpos, rfl, hwf⟩

/-- A new struct that is put into the tables. -/
theorem Wf.insert {s : State D} (h : Wf E s) {i : Inode D} (hi : Sound E s.nextInode i)
    (hnone : s.table i.ownerFs i.iNum = none) :
    Wf E (({ s with
      inodes := update s.inodes s.nextInode (some i)
      nextInode := s.nextInode + 1 }).insert i.ownerFs i.iNum s.nextInode) where
  bound b hb := by
    have hb' : s.nextInode + 1 ≤ b := hb
    exact (update_of_ne (by omega) ..).trans (h.bound b (by omega))
  sound b k hk := by
    dsimp only [State.insert] at hk
    by_cases hba : b = s.nextInode
    · rw [hba, update_self, Option.some.injEq] at hk
      rwa [← hk, hba]
    · rw [update_of_ne hba] at hk
      exact h.sound b k hk
  indexed := h.indexed.insert (h.bound _ (Nat.le_refl _)) hnone
  mounted := h.mounted

/-- The memory of every new inode holds the count 1. -/
def OneRef (E : Env D) : Prop := ∀ n, (E.slots n).rc = 1

/-- The memory of no new inode holds the count 0. -/
def NonZero (E : Env D) : Prop := ∀ n, (E.slots n).rc ≠ 0

theorem OneRef.nonZero (h : OneRef E) : NonZero E := by
  intro n
  rw [h n]
  decide

/-- What `alloc_inode_struct` and `read_inode_disk` make of the memory of the next inode. -/
def newInode (E : Env D) (s : State D) (fs : Nat) (n : BitVec 32) (parent : Nat) (d : D) :
    Inode D where
  iRc := (E.slots s.nextInode).rc
  ownerFs := fs
  iParentRef := some parent
  iNum := n
  data := d

theorem getInodeStruct_new {s : State D} (h : Wf E s) {fs : Nat} {n : BitVec 32} {parent : Nat}
    {p : Inode D} (hp : s.inodes parent = some p) (hpos : 0 < p.iRc.toInt)
    (hnone : s.table fs n = none) :
    s.getInodeStruct E fs n parent = ((E.vfs fs).readInodeDisk n
      ((E.vfs fs).construct (E.slots s.nextInode).data)).bind fun d =>
        some (({ s with
          inodes := update (take s.inodes parent p) s.nextInode (some (newInode E s fs n parent d))
          nextInode := s.nextInode + 1 }).insert fs n s.nextInode, s.nextInode) := by
  simp only [getInodeStruct, hnone, allocInodeStruct, takeParentStruct,
    (h.takeRefLocked hp hpos).1, Option.bind_eq_bind, Option.bind_some, State.readInodeDisk,
    update_self, update_idem]
  rw [Option.bind_assoc]
  rfl

/-- A cached inode gets one reference more. -/
theorem Wf.getInodeStruct_cached {s : State D} (h : Wf E s) {fs : Nat} {n : BitVec 32}
    {a : Nat} (ht : s.table fs n = some a) (parent : Nat) :
    ∃ i, s.inodes a = some i ∧ i.ownerFs = fs ∧ i.iNum = n ∧
      s.getInodeStruct E fs n parent = (s.takeRefLocked a).bind fun s => some (s, a) := by
  obtain ⟨i, hi, hfs, hnum⟩ := (h.indexed fs n a).1 ht
  refine ⟨i, hi, hfs, hnum, ?_⟩
  simp only [State.getInodeStruct, ht, hi, Option.bind_eq_bind, Option.bind_some, hnum, if_true]

/-- The call, where it returns: a cached inode has one reference more, and a new one has one, and
one to its parent. -/
inductive Got (E : Env D) (s : State D) (fs : Nat) (n : BitVec 32) (parent : Nat) (p : Inode D) :
    State D → Nat → Prop
  | cached {a : Nat} {i : Inode D} (ht : s.table fs n = some a) (hi : s.inodes a = some i)
      (hfs : i.ownerFs = fs) (hnum : i.iNum = n) (hpos : 0 < i.iRc.toInt) :
      Got E s fs n parent p { s with inodes := take s.inodes a i } a
  | made {d d' : D} (ht : s.table fs n = none) (hpos : 0 < p.iRc.toInt)
      (hd : (E.vfs fs).readInodeDisk n d' = some d) :
      Got E s fs n parent p (({ s with
        inodes := update (take s.inodes parent p) s.nextInode (some (newInode E s fs n parent d))
        nextInode := s.nextInode + 1 }).insert fs n s.nextInode) s.nextInode

variable {s s' : State D} {fs parent a : Nat} {n : BitVec 32} {p : Inode D}

theorem Wf.of_getInodeStruct (h : Wf E s) (hp : s.inodes parent = some p)
    (hrun : s.getInodeStruct E fs n parent = some (s', a)) : Got E s fs n parent p s' a := by
  cases ht : s.table fs n with
  | some b =>
    obtain ⟨i, hi, hfs, hnum, hget⟩ := h.getInodeStruct_cached ht parent
    rw [hget] at hrun
    obtain ⟨s₁, htake, hrun⟩ := Option.bind_eq_some_iff.1 hrun
    cases hrun
    obtain ⟨j, hj, hpos, rfl, -⟩ := h.of_takeRefLocked htake
    obtain rfl := Option.some.inj (hi.symm.trans hj)
    exact .cached ht hi hfs hnum hpos
  | none =>
    have hpos : 0 < p.iRc.toInt := by
      rw [State.getInodeStruct, ht] at hrun
      obtain ⟨x, halloc, -⟩ := Option.bind_eq_some_iff.1 hrun
      obtain ⟨s₁, htake, -⟩ := Option.bind_eq_some_iff.1 halloc
      obtain ⟨q, hq, hpos, -⟩ := h.of_takeRefLocked htake
      obtain rfl := Option.some.inj (hp.symm.trans hq)
      exact hpos
    rw [getInodeStruct_new h hp hpos ht] at hrun
    obtain ⟨d, hd, hrun⟩ := Option.bind_eq_some_iff.1 hrun
    cases hrun
    exact .made ht hpos hd

namespace Got

theorem wf (hg : Got E s fs n parent p s' a) (h : Wf E s) (hrc : NonZero E)
    (hp : s.inodes parent = some p) : Wf E s' := by
  cases hg with
  | cached ht hi hfs hnum hpos => exact (h.takeRefLocked hi hpos).2
  | @made d d' ht hpos hd =>
    refine (h.takeRefLocked hp hpos).2.insert (i := newInode E s fs n parent d)
      ⟨hrc s.nextInode, fun q hq => ?_, fun _ => ⟨_, hd⟩⟩ ht
    · obtain rfl : parent = q := Option.some.inj hq
      by_contra hge
      have hbound := h.bound parent (Nat.le_of_not_lt hge)
      simp [hp] at hbound

theorem frame (hg : Got E s fs n parent p s' a) :
    s' = { s with inodes := s'.inodes, nextInode := s'.nextInode, table := s'.table } := by
  cases hg <;> rfl

theorem result (hg : Got E s fs n parent p s' a) :
    ∃ i, s'.inodes a = some i ∧ i.ownerFs = fs ∧ i.iNum = n := by
  cases hg with
  | cached ht hi hfs hnum hpos => exact ⟨_, update_self .., hfs, hnum⟩
  | made ht hpos hd => exact ⟨_, update_self .., rfl, rfl⟩

/-- The inodes from before are still there, with another count at most. -/
theorem stays (hg : Got E s fs n parent p s' a) (h : Wf E s) (hp : s.inodes parent = some p)
    {b : Nat} {i : Inode D} (hi : s.inodes b = some i) :
    ∃ k, s'.inodes b = some (Counted.setRc k i) := by
  have htake : ∀ (c : Nat) (j : Inode D), s.inodes c = some j →
      ∃ k, take s.inodes c j b = some (Counted.setRc k i) := by
    intro c j hj
    by_cases hbc : b = c
    · subst hbc
      obtain rfl := Option.some.inj (hi.symm.trans hj)
      exact ⟨_, update_self ..⟩
    · exact ⟨i.iRc, (update_of_ne hbc ..).trans hi⟩
  cases hg with
  | cached ht hj hfs hnum hpos => exact htake _ _ hj
  | made ht hpos hd =>
    have hb : b ≠ s.nextInode := fun he => by simp [h.bound b (by omega)] at hi
    obtain ⟨k, hk⟩ := htake parent p hp
    exact ⟨k, (update_of_ne hb ..).trans hk⟩

/-- A release of the result brings back the inodes, if it ends. -/
theorem undo (hg : Got E s fs n parent p s' a) (h : Wf E s) (hone : OneRef E)
    (hp : s.inodes parent = some p) {g : Forest (Inode D)}
    (hr : Released s'.inodes (some a) g) : g = s.inodes := by
  cases hg with
  | @cached _ i ht hi hfs hnum hpos => exact hr.of_take hi (h.sound a i hi).count
  | made ht hpos hd =>
    exact hr.of_new (h.bound _ (Nat.le_refl _)) hp (h.sound parent p hp).count (hone _) rfl

/-- Releasing the parent leaves the result. -/
theorem kept (hg : Got E s fs n parent p s' a) (h : Wf E s) (hp : s.inodes parent = some p)
    {q : Inode D} {g : Forest (Inode D)} (hr : Released s'.inodes (walkRef parent q) g) :
    ∃ j, g a = some j ∧ j.ownerFs = fs ∧ j.iNum = n := by
  cases hg with
  | @cached _ i ht hi hfs hnum hpos =>
    have hself : take s.inodes a i a = some (Counted.setRc (i.iRc + 1) i) := update_self ..
    have hlive : g a ≠ none := by
      intro hgone
      have hone : i.iRc + 1 = 1 := hr.gone hself hgone
      exact (h.sound a i hi).count (by simpa using hone)
    obtain ⟨j, hj⟩ := Option.ne_none_iff_exists'.1 hlive
    obtain ⟨b, hb, hjb, -⟩ := hr.stays hj
    obtain rfl := Option.some.inj (hself.symm.trans hb)
    refine ⟨j, hj, ?_, ?_⟩ <;> rw [hjb] <;> assumption
  | @made d d' ht hpos hd =>
    have hlt : ∀ c j, s.inodes c = some j → c < s.nextInode := by
      intro c j hc
      by_contra hge
      simp [h.bound c (by omega)] at hc
    have hmade := hr.above (a := s.nextInode) (fun c hc => ?_) fun c j q hc hq => ?_
    · exact ⟨_, hmade.trans (update_self ..), rfl, rfl⟩
    · rw [walkRef] at hc
      split_ifs at hc
      cases hc
      exact hlt parent p hp
    · dsimp only [State.insert] at hc
      by_cases hnew : c = s.nextInode
      · rw [hnew, update_self, Option.some.injEq] at hc
        subst hc
        obtain rfl : parent = q := Option.some.inj hq
        exact hnew ▸ hlt parent p hp
      · rw [update_of_ne hnew] at hc
        exact ((h.takeRefLocked hp hpos).2.sound c j hc).older q hq

end Got

/-- Of the inodes from before, those that are there have another count at most. -/
structure Keeps (s s' : State D) : Prop where
  le : s.nextInode ≤ s'.nextInode
  same : ∀ b < s.nextInode, ∀ j, s'.inodes b = some j →
    ∃ i k, s.inodes b = some i ∧ j = Counted.setRc k i

theorem Keeps.refl (s : State D) : Keeps s s :=
  ⟨Nat.le_refl _, fun _ _ j hj => ⟨j, j.iRc, hj, rfl⟩⟩

theorem Keeps.trans {s₁ s₂ s₃ : State D} (h : Keeps s₁ s₂) (h' : Keeps s₂ s₃) : Keeps s₁ s₃ := by
  refine ⟨h.le.trans h'.le, fun b hb j hj => ?_⟩
  obtain ⟨i', k', hi', rfl⟩ := h'.same b (Nat.lt_of_lt_of_le hb h.le) j hj
  obtain ⟨i, k, hi, rfl⟩ := h.same b hb i' hi'
  exact ⟨i, k', hi, rfl⟩

theorem keeps_released {x : Option Nat} {f' : Forest (Inode D)} (hr : Released s.inodes x f')
    (t : Nat → BitVec 32 → Option Nat) : Keeps s { s with inodes := f', table := t } := by
  refine ⟨Nat.le_refl _, fun b _ j hj => ?_⟩
  obtain ⟨i, hi, heq, -⟩ := hr.stays hj
  exact ⟨i, _, hi, heq⟩

theorem keeps_take {i : Inode D} (hi : s.inodes a = some i) :
    Keeps s { s with inodes := take s.inodes a i } := by
  refine ⟨Nat.le_refl _, fun b _ j hj => ?_⟩
  dsimp only at hj
  by_cases hb : b = a
  · subst hb
    rw [take, update_self, Option.some.injEq] at hj
    exact ⟨i, _, hi, hj.symm⟩
  · rw [take, update_of_ne hb] at hj
    exact ⟨j, j.iRc, hj, rfl⟩

theorem Got.keeps (hg : Got E s fs n parent p s' a) (hp : s.inodes parent = some p) :
    Keeps s s' := by
  cases hg with
  | cached ht hi hfs hnum hpos => exact keeps_take hi
  | made ht hpos hd =>
    refine ⟨Nat.le_succ _, fun b hb j hj => ?_⟩
    dsimp only [State.insert] at hj
    rw [update_of_ne (Nat.ne_of_lt hb)] at hj
    exact (keeps_take hp).same b hb j hj

/-- Each of the inodes can get another `k` references. -/
def Room (k : Nat) (s : State D) : Prop := ∀ a i, s.inodes a = some i → i.iRc.toNat + k < 2 ^ 31

theorem Room.mono {k k' : Nat} (h : Room k' s) (hk : k ≤ k') : Room k s := by
  intro a i hi
  have := h a i hi
  omega

theorem Room.pos {k : Nat} (h : Room k s) (hwf : Wf E s) {i : Inode D}
    (hi : s.inodes a = some i) : 0 < i.iRc.toInt := by
  have hlt := h a i hi
  have hcount : i.iRc.toNat ≠ 0 := fun he => (hwf.sound a i hi).count (BitVec.eq_of_toNat_eq he)
  rw [toInt_pos]
  omega

theorem Room.released {k : Nat} (h : Room k s) {x : Option Nat} {f' : Forest (Inode D)}
    (hr : Released s.inodes x f') (t : Nat → BitVec 32 → Option Nat) :
    Room k { s with inodes := f', table := t } := by
  intro b j hj
  obtain ⟨i, hi, -, rfl | ⟨hpos, -, hpred⟩⟩ := hr.stays hj
  · exact h b j hi
  · have hlt := h b i hi
    have hcount := toNat_pred (toInt_pos.1 hpos).1
    rw [← hpred] at hcount
    have hle : j.iRc.toNat = i.iRc.toNat - 1 := hcount
    omega

theorem Room.take {k : Nat} (h : Room (k + 1) s) {i : Inode D} (hi : s.inodes a = some i) :
    Room k { s with inodes := take s.inodes a i } := by
  intro b j hj
  dsimp only at hj
  by_cases hb : b = a
  · subst hb
    have hlt := h b i hi
    have hsucc : (i.iRc + 1).toNat = i.iRc.toNat + 1 := toNat_succ (by omega)
    rw [Forest.take, update_self, Option.some.injEq] at hj
    have hrc : j.iRc = i.iRc + 1 := by rw [← hj]; rfl
    rw [hrc]
    omega
  · rw [Forest.take, update_of_ne hb] at hj
    have hlt := h b j hj
    omega

theorem Got.room {k : Nat} (hg : Got E s fs n parent p s' a) (hp : s.inodes parent = some p)
    (h : Room (k + 1) s) (hslot : (E.slots s.nextInode).rc.toNat + k < 2 ^ 31) : Room k s' := by
  cases hg with
  | cached ht hi hfs hnum hpos => exact h.take hi
  | made ht hpos hd =>
    intro b j hj
    dsimp only [State.insert] at hj
    by_cases hb : b = s.nextInode
    · rw [hb, update_self, Option.some.injEq] at hj
      rw [← hj]
      exact hslot
    · rw [update_of_ne hb] at hj
      exact h.take hp b j hj

/-- Where no count has overflowed, the call returns. -/
theorem Wf.gets (h : Wf E s) (hroom : Room 0 s) (hp : s.inodes parent = some p)
    (hread : s.table fs n = none → ∃ d, (E.vfs fs).readInodeDisk n
      ((E.vfs fs).construct (E.slots s.nextInode).data) = some d) :
    ∃ s' a, s.getInodeStruct E fs n parent = some (s', a) ∧ Got E s fs n parent p s' a := by
  cases ht : s.table fs n with
  | some b =>
    obtain ⟨i, hi, hfs, hnum, hget⟩ := h.getInodeStruct_cached ht parent
    have hpos := hroom.pos h hi
    rw [(h.takeRefLocked hi hpos).1, Option.bind_some] at hget
    exact ⟨_, b, hget, .cached ht hi hfs hnum hpos⟩
  | none =>
    obtain ⟨d, hd⟩ := hread ht
    have hpos := hroom.pos h hp
    have hget := getInodeStruct_new (E := E) h hp hpos ht
    rw [hd, Option.bind_some] at hget
    exact ⟨_, _, hget, .made ht hpos hd⟩

/-- Where there was room for it, the result can be released. -/
theorem Got.back (hg : Got E s fs n parent p s' a) (h : Wf E s) (hone : OneRef E) (hroom : Room 1 s)
    (hp : s.inodes parent = some p) : Released s'.inodes (some a) s.inodes := by
  cases hg with
  | @cached _ i ht hi hfs hnum hpos =>
    exact take_released hi (h.sound a i hi).count (hroom a i hi)
  | made ht hpos hd =>
    exact new_released (h.bound _ (Nat.le_refl _)) hp (h.sound parent p hp).count
      (hroom parent p hp) (hone _) rfl

/-! ## The counts -/

/-- The counts, with the references `e` from outside. -/
abbrev Counted (s : State D) (e : Nat → Nat) : Prop := Balanced s.nextInode s.inodes e

variable {e : Nat → Nat}

theorem Counted.release (hb : s.Counted fun c => e c + one (some a) c) (h : Wf E s)
    (hrun : s.release a = some s') : s'.Counted e := by
  obtain ⟨f', t, hr, rfl, -⟩ := h.of_release hrun
  exact hb.released hr

/-- One reference more, to the result. -/
theorem Got.counted (hg : Got E s fs n parent p s' a) (hone : OneRef E)
    (hp : s.inodes parent = some p) (hb : s.Counted e) :
    s'.Counted fun c => e c + one (some a) c := by
  cases hg with
  | cached ht hi hfs hnum hpos => exact hb.take hi hpos
  | made ht hpos hd => exact (hb.take hp hpos).new (hone _) rfl

/-- What the memory of the inodes from `a` on may count besides the references. -/
def Besides (E : Env D) (a : Nat) (x : Nat → Nat) : Prop :=
  (∀ c < a, x c = 0) ∧ (OneRef E → ∀ c, x c = 0)

theorem besides_zero (E : Env D) (a : Nat) : Besides E a fun _ => 0 :=
  ⟨fun _ _ => rfl, fun _ _ => rfl⟩

theorem Besides.add {a b : Nat} {x x' : Nat → Nat} (h : Besides E a x) (h' : Besides E b x')
    (hab : a ≤ b) : Besides E a fun c => x c + x' c := by
  refine ⟨fun c hc => ?_, fun hone c => ?_⟩
  · dsimp only
    rw [h.1 c hc, h'.1 c (Nat.lt_of_lt_of_le hc hab)]
  · dsimp only
    rw [h.2 hone c, h'.2 hone c]

/-- What the memory of the inode `a` counts besides one reference. -/
theorem besides_slot (E : Env D) (a : Nat) :
    Besides E a fun c => ((E.slots a).rc.toNat - 1) * one (some a) c := by
  refine ⟨fun c hc => ?_, fun hone c => ?_⟩
  · dsimp only
    rw [one_of_ne (Nat.ne_of_gt hc), Nat.mul_zero]
  · dsimp only
    rw [hone a]
    exact Nat.zero_mul _

/-- An inode that keeps its references from outside stays, and so do those that it is a child of. -/
theorem Counted.kept {e' : Nat → Nat} (h : s.Counted e) (h' : s'.Counted e')
    (hle : ∀ c, e c ≤ e' c) (hkeeps : Keeps s s') {i : Inode D} (hi : s.inodes a = some i) :
    ∃ k, s'.inodes a = some { i with iRc := k } := by
  have hlive := h.lives h' hle (fun c b d hb hd => ?_) (by rw [hi]; exact Option.some_ne_none i)
  · obtain ⟨j, hj⟩ := Option.ne_none_iff_exists'.1 hlive
    obtain ⟨i', k, hi', rfl⟩ := hkeeps.same a (h.lt hi) j hj
    obtain rfl := Option.some.inj (hi.symm.trans hi')
    exact ⟨k, hj⟩
  · obtain ⟨b', k, hb', rfl⟩ := hkeeps.same c (h.lt hb) d hd
    obtain rfl := Option.some.inj (hb.symm.trans hb')
    exact Lib.Counted.parent_setRc k b

/-- A new inode has one reference, and what its memory counts besides. -/
theorem Counted.new_besides {x : Option Nat} (hb : s.Counted fun c => e c + one x c) {d : Inode D}
    (hrc : NonZero E) (hle : (E.slots s.nextInode).rc.toNat ≤ 2 ^ 31)
    (hd : d.iRc = (E.slots s.nextInode).rc) (hp : d.iParentRef = x) :
    Balanced (s.nextInode + 1) (update s.inodes s.nextInode (some d)) fun c =>
      e c + one (some s.nextInode) c +
        ((E.slots s.nextInode).rc.toNat - 1) * one (some s.nextInode) c := by
  have hcount : 0 < (E.slots s.nextInode).rc.toNat := by
    rw [Nat.pos_iff_ne_zero]
    exact fun he => hrc s.nextInode (BitVec.eq_of_toNat_eq he)
  have hrc' : Lib.Counted.rc d = (E.slots s.nextInode).rc := hd
  refine (hb.new_counted (by rw [hrc']; exact hcount) (by rw [hrc']; exact hle) hp).congr
    fun c => ?_
  rw [hrc', Nat.add_assoc]
  congr 1
  obtain ⟨k, hk⟩ := Nat.exists_eq_succ_of_ne_zero hcount.ne'
  rw [hk, Nat.succ_sub_one, Nat.succ_mul, Nat.add_comm]

theorem Got.counted_besides (hg : Got E s fs n parent p s' a) (hrc : NonZero E)
    (hle : (E.slots s.nextInode).rc.toNat ≤ 2 ^ 31) (hp : s.inodes parent = some p)
    (hb : s.Counted e) : ∃ x, Besides E s.nextInode x ∧
      s'.Counted fun c => e c + one (some a) c + x c := by
  cases hg with
  | cached ht hi hfs hnum hpos => exact ⟨fun _ => 0, besides_zero E _, hb.take hi hpos⟩
  | made ht hpos hd =>
    exact ⟨_, besides_slot E _,
      Counted.new_besides (s := { s with inodes := take s.inodes parent p }) (hb.take hp hpos) hrc
        hle rfl rfl⟩

end State

end TinyLittleOs.Fs
