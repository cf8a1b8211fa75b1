import TinyLittleOs.Fs.TarFs

/-!
# The reference counts

In a run in which the memory of every new inode holds the count 1, and no path is the mount point
itself, the count of an inode is the number of the references to it, as long as this fits into the
`int32_t`.
-/

namespace TinyLittleOs.Fs

open Lib Function Forest State

variable {D : Type} {E : Env D}

/-! ## The memory of the new inodes -/

namespace State

variable {E' : Env D} {s s' : State D} {a : Nat}

/-- The same file systems, and the same memory for the inodes from `a` to `b`. -/
structure SameSlots (E E' : Env D) (a b : Nat) : Prop where
  vfs : E'.vfs = E.vfs
  slots : ∀ n, a ≤ n → n < b → E'.slots n = E.slots n

theorem SameSlots.mono {a b c d : Nat} (h : SameSlots E E' a d) (hb : a ≤ b) (hc : c ≤ d) :
    SameSlots E E' b c :=
  ⟨h.vfs, fun n hn hn' => h.slots n (by omega) (by omega)⟩

theorem takeRefLocked_next (hrun : s.takeRefLocked a = some s') : s'.nextInode = s.nextInode := by
  obtain ⟨i, -, hrun⟩ := Option.bind_eq_some_iff.1 hrun
  split_ifs at hrun
  cases hrun
  rfl

theorem readInodeDisk_next (hrun : s.readInodeDisk E a = some s') : s'.nextInode = s.nextInode := by
  obtain ⟨i, -, hrun⟩ := Option.bind_eq_some_iff.1 hrun
  obtain ⟨d, -, hrun⟩ := Option.bind_eq_some_iff.1 hrun
  cases hrun
  rfl

theorem releaseLoop_next {fuel : Nat} (hrun : releaseLoop fuel s a = some s') :
    s'.nextInode = s.nextInode := by
  induction fuel generalizing s s' a with
  | zero => cases hrun
  | succ fuel ih =>
    obtain ⟨⟨s₁, last⟩, hrelease, hrun⟩ := Option.bind_eq_some_iff.1 hrun
    have hnext : s₁.nextInode = s.nextInode := by
      obtain ⟨i, -, hrelease⟩ := Option.bind_eq_some_iff.1 hrelease
      split_ifs at hrelease
      cases hrelease
      rfl
    cases last with
    | false =>
      cases hrun
      exact hnext
    | true =>
      obtain ⟨i, -, hrun⟩ := Option.bind_eq_some_iff.1 hrun
      cases hp : i.iParentRef with
      | none =>
        rw [hp] at hrun
        cases hrun
        exact hnext
      | some p =>
        rw [hp] at hrun
        obtain ⟨s₂, hparent, hrun⟩ := Option.bind_eq_some_iff.1 hrun
        cases hrun
        exact (ih hparent).trans hnext

theorem releaseUnlessRoot_next (hrun : s.releaseUnlessRoot a = some s') :
    s'.nextInode = s.nextInode := by
  obtain ⟨i, -, hrun⟩ := Option.bind_eq_some_iff.1 hrun
  split_ifs at hrun
  · exact releaseLoop_next hrun
  · cases hrun
    rfl

theorem getInodeStruct_slots {fs parent : Nat} {n : BitVec 32}
    (hrun : s.getInodeStruct E fs n parent = some (s', a)) :
    s.nextInode ≤ s'.nextInode ∧ ∀ E', SameSlots E E' s.nextInode s'.nextInode →
      s.getInodeStruct E' fs n parent = some (s', a) := by
  cases ht : s.table fs n with
  | some b =>
    rw [getInodeStruct, ht] at hrun
    refine ⟨?_, fun E' _ => by rwa [getInodeStruct, ht]⟩
    obtain ⟨i, -, hrun⟩ := Option.bind_eq_some_iff.1 hrun
    split_ifs at hrun
    obtain ⟨s₁, htake, hrun⟩ := Option.bind_eq_some_iff.1 hrun
    cases hrun
    exact (takeRefLocked_next htake).ge
  | none =>
    rw [getInodeStruct, ht] at hrun
    obtain ⟨⟨s₁, b⟩, halloc, hrun⟩ := Option.bind_eq_some_iff.1 hrun
    obtain ⟨s₂, hread, hrun⟩ := Option.bind_eq_some_iff.1 hrun
    cases hrun
    obtain ⟨s₀, htake, halloc'⟩ := Option.bind_eq_some_iff.1 halloc
    have hnext : s₁.nextInode = s.nextInode + 1 := by
      cases halloc'
      exact congrArg (· + 1) (takeRefLocked_next htake)
    have hnext' : s₂.nextInode = s.nextInode + 1 := (readInodeDisk_next hread).trans hnext
    refine ⟨(Nat.le_succ _).trans hnext'.ge, fun E' hE => ?_⟩
    have hslot : E'.slots s₀.nextInode = E.slots s₀.nextInode := by
      have h0 : s₀.nextInode = s.nextInode := takeRefLocked_next htake
      refine hE.slots _ h0.ge ?_
      rw [h0]
      exact hnext'.ge
    have halloc' : s.allocInodeStruct E' fs n (some parent) = some (s₁, a) := by
      rw [← halloc]
      simp only [allocInodeStruct, htake, Option.bind_eq_bind, Option.bind_some, hslot, hE.vfs]
    have hread' : s₁.readInodeDisk E' a = some s₂ := by
      rw [← hread]
      simp only [readInodeDisk, hE.vfs]
    rw [getInodeStruct, ht]
    simp only [halloc', hread', Option.bind_eq_bind, Option.bind_some]

theorem walk_slots {fs fuel : Nat} {path : Str} {r : Except Errno Nat}
    (hrun : walk E fs fuel s path a = some (s', r)) :
    s.nextInode ≤ s'.nextInode ∧ ∀ E', SameSlots E E' s.nextInode s'.nextInode →
      walk E' fs fuel s path a = some (s', r) := by
  induction fuel generalizing s a path with
  | zero => cases hrun
  | succ fuel ih =>
    cases path with
    | nil =>
      cases hrun
      exact ⟨Nat.le_refl _, fun E' _ => rfl⟩
    | cons c path =>
      rw [walk] at hrun
      split_ifs at hrun with hc
      · obtain ⟨hle, hrest⟩ := ih hrun
        exact ⟨hle, fun E' hE => by rw [walk, if_pos hc, hrest E' hE]⟩
      · obtain ⟨i, hi, hrun⟩ := Option.bind_eq_some_iff.1 hrun
        obtain ⟨found, hlook, hrun⟩ := Option.bind_eq_some_iff.1 hrun
        cases found with
        | error e =>
          obtain ⟨s₁, hstop, hrun⟩ := Option.bind_eq_some_iff.1 hrun
          cases hrun
          refine ⟨(releaseUnlessRoot_next hstop).ge, fun E' hE => ?_⟩
          rw [walk, if_neg hc]
          simp only [hi, hE.vfs, hlook, hstop, Option.bind_eq_bind, Option.bind_some]
        | ok n =>
          obtain ⟨⟨s₁, b⟩, hget, hrun⟩ := Option.bind_eq_some_iff.1 hrun
          obtain ⟨s₂, hdrop, hrun⟩ := Option.bind_eq_some_iff.1 hrun
          obtain ⟨hle, hget'⟩ := getInodeStruct_slots hget
          obtain ⟨hle', hrest⟩ := ih hrun
          have hnext : s₂.nextInode = s₁.nextInode := releaseUnlessRoot_next hdrop
          rw [hnext] at hle'
          refine ⟨hle.trans hle', fun E' hE => ?_⟩
          have hfirst := hget' E' (hE.mono (Nat.le_refl _) hle')
          have hlast := hrest E' (hE.mono (hle.trans hnext.ge) (Nat.le_refl _))
          rw [walk, if_neg hc]
          simp only [hi, hE.vfs, hlook, hfirst, hdrop, hlast, Option.bind_eq_bind, Option.bind_some]

theorem traverse_slots {path : Str} {r : Except Errno Nat}
    (hrun : s.traverse E path = some (s', r)) :
    s.nextInode ≤ s'.nextInode ∧ ∀ E', SameSlots E E' s.nextInode s'.nextInode →
      s.traverse E' path = some (s', r) := by
  rw [traverse] at hrun
  split_ifs at hrun with hempty hmounts
  · cases hrun
    exact ⟨Nat.le_refl _, fun E' _ => by rw [traverse, if_pos hempty]⟩
  · cases hrun
    exact ⟨Nat.le_refl _, fun E' _ => by rw [traverse, if_neg hempty, if_pos hmounts]⟩
  · cases hbest : bestMount s.mounts path with
    | none =>
      rw [hbest] at hrun
      cases hrun
      exact ⟨Nat.le_refl _, fun E' _ => by rw [traverse, if_neg hempty, if_neg hmounts, hbest]⟩
    | some mnt =>
      rw [hbest] at hrun
      obtain ⟨root, hroot, hrun⟩ := Option.bind_eq_some_iff.1 hrun
      obtain ⟨hle, hrest⟩ := walk_slots hrun
      refine ⟨hle, fun E' hE => ?_⟩
      rw [traverse, if_neg hempty, if_neg hmounts, hbest]
      simp only [hroot, hrest E' hE, Option.bind_eq_bind, Option.bind_some]

end State

namespace Client

/-- The references to an inode from outside of the inodes: results of `traverse`, open files, and
the one of the mount to its root, which is the first inode. -/
def outside (y : Client D) (a : Nat) : Nat :=
  y.held.count a + children y.state.nextFile y.state.fileDescs a + one (some 0) a

/-- All the references to an inode. -/
def references (y : Client D) (a : Nat) : Nat :=
  y.outside a + children y.state.nextInode y.state.inodes a

/-- The counts are the references, and the inodes with references are those in the table. -/
structure Accounted (y : Client D) : Prop where
  count : ∀ a i, y.state.inodes a = some i → i.iRc.toInt = y.references a
  live : ∀ a, y.state.inodes a ≠ none ↔ 0 < y.references a
  table : ∀ fs n a, y.state.table fs n = some a ↔
    ∃ i, y.state.inodes a = some i ∧ i.ownerFs = fs ∧ i.iNum = n

/-- The invariant of the runs on one mount. The memory of the inodes counted `x` besides. -/
structure Inv (E : Env D) (mnt : MountPoint) (x : Nat → Nat) (y : Client D) : Prop where
  wf : Wf E y.state
  counted : y.state.Counted fun a => y.outside a + x a
  files : ∀ f, y.state.nextFile ≤ f → y.state.fileDescs f = none
  fileRc : ∀ f d, y.state.fileDescs f = some d → d.rc = 1
  mounts : y.state.mounts = [mnt]

theorem Inv.accounted {mnt : MountPoint} {x : Nat → Nat} {y : Client D} (h : Inv E mnt x y)
    (hx : ∀ a, x a = 0) (hlt : ∀ a, y.references a < 2 ^ 31) : Accounted y := by
  have hcounted : y.state.Counted y.outside := h.counted.congr fun a => by rw [hx, Nat.add_zero]
  refine ⟨fun a i hi => ?_, fun a => hcounted.live_iff, h.wf.indexed⟩
  have hcount : i.iRc.toNat = y.references a := hcounted.count a i hi
  have hroom := hlt a
  rw [BitVec.toInt_eq_toNat_of_lt (by omega), hcount]

variable {mnt : MountPoint} {y y' : Client D} {x : Nat → Nat}

theorem Inv.boot (hrc : NonZero E) (hle : ∀ n, (E.slots n).rc.toNat ≤ 2 ^ 31) {p : Str} {fs : Nat}
    (hrun : Client.boot E p fs = some y) : ∃ x, Besides E 0 x ∧ Inv E ⟨p, fs⟩ x y := by
  obtain ⟨s, hmount, hrun⟩ := Option.bind_eq_some_iff.1 hrun
  cases hrun
  have hwf : Wf E s := wf_empty.mount hrc (fun _ => rfl) hmount
  simp only [State.mount, allocInodeStruct, takeParentStruct, Option.bind_eq_bind,
    Option.bind_some] at hmount
  split_ifs at hmount
  cases hmount
  have hempty : (State.empty : State D).Counted fun c => (fun _ => 0) c + one none c := .empty
  refine ⟨_, besides_slot E 0, hwf,
    (Counted.new_besides hempty hrc (hle 0) rfl rfl).congr fun a => ?_,
    fun _ _ => rfl, fun f d hd => ?_, rfl⟩
  · simp [outside, children, State.empty]
  · cases hd

/-- A path without a component beyond the mount point. -/
theorem eq_replicate_of_not_named {path : Str} (h : ¬ Named path) :
    path = List.replicate path.length slash := by
  rw [List.eq_replicate_iff]
  refine ⟨rfl, fun c hc => ?_⟩
  by_contra hne
  exact h ⟨c, hc, hne⟩

theorem bestMount_singleton_eq {path : Str} {mnt' : MountPoint}
    (h : bestMount [mnt] path = some mnt') : mnt' = mnt ∧ mnt.mPath <+: path := by
  rw [bestMount, List.foldl_cons, List.foldl_nil, bestMountStep] at h
  split_ifs at h with _ _ hprefix
  exact ⟨(Option.some.inj h).symm, List.isPrefixOf_iff_prefix.1 hprefix⟩

theorem Inv.traverse (h : Inv E mnt x y) (hrc : NonZero E)
    (hle : ∀ n, (E.slots n).rc.toNat ≤ 2 ^ 31) (hroot : NoRoot E) {path : Str}
    (hpath : ∀ k, path ≠ mnt.mPath ++ List.replicate k slash)
    (hrun : y.call E (.traverse path) = some y') :
    ∃ x', Besides E y.state.nextInode x' ∧ Inv E mnt (fun a => x a + x' a) y' := by
  obtain ⟨⟨s, r⟩, htraverse, hrun⟩ := Option.bind_eq_some_iff.1 hrun
  rcases traverse_rounds htraverse with
    ⟨rfl, e, rfl⟩ | ⟨fs, p, root, s₁, p₁, a, hstart, hrounds, hend⟩
  · cases hrun
    exact ⟨_, besides_zero E _, h⟩
  obtain ⟨mnt', hbest, rfl, rfl, htable⟩ := hstart
  rw [h.mounts] at hbest
  obtain ⟨rfl, hprefix⟩ := bestMount_singleton_eq hbest
  have hnamed : Named (path.drop mnt'.mPath.length) := by
    by_contra hnot
    refine hpath (path.drop mnt'.mPath.length).length ?_
    rw [← eq_replicate_of_not_named hnot]
    exact (List.prefix_iff_eq_append.1 hprefix).symm
  obtain ⟨i, -, hwalk⟩ := h.wf.roaming htable
  obtain ⟨j, hj, hiff⟩ := hwalk.rounds hrc hle hroot hrounds
  rcases hend with ⟨rfl, rfl, rfl⟩ | ⟨⟨e, rfl⟩, hstop⟩
  · cases hrun
    obtain ⟨x', hx', hcounted⟩ := hj.counted _ h.counted
    have hframe := hj.frame
    have hnum : j.iNum ≠ rootInode := fun hbad =>
      (hiff.1 ⟨hbad, by simp [Named]⟩).2 hnamed
    rw [walkRef_of_ne hnum] at hcounted
    refine ⟨x', hx', hj.wf, hcounted.congr fun b => ?_, ?_, ?_, ?_⟩
    · have hcount : (a :: y.held).count b = y.held.count b + one (some a) b := by
        rw [List.count_cons, one]
        simp only [beq_iff_eq, Option.some.injEq]
      rw [outside, outside, hcount, hframe]
      dsimp only
      omega
    all_goals
      rw [hframe]
    · exact h.files
    · exact h.fileRc
    · exact h.mounts
  · cases hrun
    obtain ⟨hwf, -, hframe, hback⟩ := hj.stop hstop
    obtain ⟨x', hx', hcounted⟩ := hback _ h.counted
    refine ⟨x', hx', hwf, hcounted.congr fun b => ?_, ?_, ?_, ?_⟩
    · rw [outside, outside, hframe]
      dsimp only
      omega
    all_goals
      rw [hframe]
    · exact h.files
    · exact h.fileRc
    · exact h.mounts

theorem Inv.openInode (h : Inv E mnt x y) {obj : Nat}
    (hrun : y.call E (.openInode obj) = some y') : Inv E mnt x y' := by
  obtain ⟨⟨s, f⟩, hopen, hrun⟩ := Option.bind_eq_some_iff.1 hrun
  cases hrun
  obtain ⟨s, htake, hopen⟩ := Option.bind_eq_some_iff.1 hopen
  obtain ⟨i, hi, hpos, rfl, hwf⟩ := h.wf.of_takeRefLocked htake
  cases hopen
  have hnone := h.files y.state.nextFile (Nat.le_refl _)
  refine ⟨⟨hwf.bound, hwf.sound, hwf.indexed, hwf.mounted⟩,
    (h.counted.take hi hpos).congr fun b => ?_,
    fun f hf => ?_, fun f d hd => ?_, h.mounts⟩
  · rw [outside, outside]
    dsimp only
    rw [children_new hnone]
    show _ + (_ + one (some obj) b) + _ + _ = _
    omega
  · have hlt : y.state.nextFile + 1 ≤ f := hf
    have hne : f ≠ y.state.nextFile := by omega
    exact (update_of_ne hne ..).trans (h.files f (by omega))
  · dsimp only at hd
    by_cases hf : f = y.state.nextFile
    · rw [hf, update_self, Option.some.injEq] at hd
      rw [← hd]
    · rw [update_of_ne hf] at hd
      exact h.fileRc f d hd

/-- The reference that a caller gives up is released. -/
theorem Inv.release (h : Inv E mnt x y) {a : Nat} {s : State D} (hrun : y.state.release a = some s)
    {e : Nat → Nat} (he : ∀ b, y.outside b = e b + one (some a) b) :
    Wf E s ∧ (s.Counted fun b => e b + x b) ∧
      s = { y.state with inodes := s.inodes, table := s.table } := by
  have hcounted : s.Counted fun b => e b + x b := by
    refine Counted.release (h.counted.congr fun b => ?_) h.wf hrun
    rw [he, Nat.add_right_comm]
  obtain ⟨f', t, -, rfl, hwf⟩ := h.wf.of_release hrun
  exact ⟨hwf, hcounted, rfl⟩

theorem Inv.releaseFile (h : Inv E mnt x y) {f : Nat}
    (hrun : y.call E (.releaseFile f) = some y') : Inv E mnt x y' := by
  obtain ⟨s, hrelease, hrun⟩ := Option.bind_eq_some_iff.1 hrun
  cases hrun
  obtain ⟨d, hd, hrelease⟩ := Option.bind_eq_some_iff.1 hrelease
  have hrc := h.fileRc f d hd
  rw [hrc, if_pos (by decide), if_pos (by decide)] at hrelease
  obtain ⟨s₁, hinode, hrelease⟩ := Option.bind_eq_some_iff.1 hrelease
  cases hrelease
  have hlt : f < y.state.nextFile := by
    by_contra hge
    simp [h.files f (by omega)] at hd
  obtain ⟨hwf, hcounted, hframe⟩ := h.release hinode
    (e := fun b => y.held.count b +
      children y.state.nextFile (update y.state.fileDescs f none) b + one (some 0) b) fun b => by
    rw [outside, children_erase hd hlt]
    show _ + (_ + one (some d.ownerInode) b) + _ = _
    omega
  have hfiles : s₁.fileDescs = y.state.fileDescs := by rw [hframe]
  have hnext : s₁.nextFile = y.state.nextFile := by rw [hframe]
  refine ⟨⟨hwf.bound, hwf.sound, hwf.indexed, hwf.mounted⟩, hcounted.congr fun b => ?_,
    fun g hg => ?_, fun g k hk => ?_, ?_⟩
  · rw [outside]
    dsimp only
    rw [hfiles, hnext]
  · dsimp only at hg ⊢
    rw [hnext] at hg
    rw [update_of_ne (by omega), hfiles]
    exact h.files g hg
  · dsimp only at hk
    by_cases hgf : g = f
    · simp [hgf] at hk
    · rw [update_of_ne hgf, hfiles] at hk
      exact h.fileRc g k hk
  · dsimp only
    rw [hframe]
    exact h.mounts

theorem Inv.releaseInode (h : Inv E mnt x y) {obj : Nat}
    (hrun : y.call E (.releaseInode obj) = some y') : Inv E mnt x y' := by
  rw [Client.call] at hrun
  split_ifs at hrun with hheld
  obtain ⟨s, hrelease, hrun⟩ := Option.bind_eq_some_iff.1 hrun
  cases hrun
  obtain ⟨hwf, hcounted, hframe⟩ := h.release hrelease
    (e := fun b => (y.held.erase obj).count b +
      children y.state.nextFile y.state.fileDescs b + one (some 0) b) fun b => by
    have hcount : y.held.count b = (y.held.erase obj).count b + one (some obj) b := by
      by_cases hb : obj = b
      · subst hb
        rw [one_self, List.count_erase_self]
        have hpos := List.count_pos_iff.2 hheld
        omega
      · rw [one_of_ne hb, List.count_erase_of_ne (Ne.symm hb), Nat.add_zero]
    rw [outside, hcount]
    omega
  refine ⟨hwf, hcounted.congr fun b => ?_, ?_, ?_, ?_⟩
  · rw [outside, hframe]
  all_goals
    rw [hframe]
  · exact h.files
  · exact h.fileRc
  · exact h.mounts

theorem Inv.call (h : Inv E mnt x y) (hrc : NonZero E) (hle : ∀ n, (E.slots n).rc.toNat ≤ 2 ^ 31)
    (hroot : NoRoot E) {c : Call}
    (hpaths : ∀ k, .traverse (mnt.mPath ++ List.replicate k slash) ≠ c)
    (hcall : y.call E c = some y') :
    ∃ x', Besides E y.state.nextInode x' ∧ Inv E mnt (fun a => x a + x' a) y' := by
  cases c with
  | traverse path =>
    exact h.traverse hrc hle hroot (fun k hk => hpaths k (by rw [hk])) hcall
  | openInode obj => exact ⟨_, besides_zero E _, h.openInode hcall⟩
  | releaseFile f => exact ⟨_, besides_zero E _, h.releaseFile hcall⟩
  | releaseInode obj => exact ⟨_, besides_zero E _, h.releaseInode hcall⟩

theorem Inv.run (hrc : NonZero E) (hle : ∀ n, (E.slots n).rc.toNat ≤ 2 ^ 31) (hroot : NoRoot E)
    {cs : List Call} (hpaths : ∀ k, .traverse (mnt.mPath ++ List.replicate k slash) ∉ cs)
    (h : Inv E mnt x y) (hrun : y.run E cs = some y') :
    ∃ x', (OneRef E → ∀ a, x' a = x a) ∧ Inv E mnt x' y' := by
  induction cs generalizing y x with
  | nil =>
    cases hrun
    exact ⟨x, fun _ _ => rfl, h⟩
  | cons c cs ih =>
    obtain ⟨y₁, hcall, hrun⟩ := Option.bind_eq_some_iff.1 hrun
    obtain ⟨x₁, hx₁, h₁⟩ := h.call hrc hle hroot (fun k hk => hpaths k (hk ▸ List.mem_cons_self))
      hcall
    obtain ⟨x₂, hx₂, h₂⟩ := ih (fun k hk => hpaths k (List.mem_cons_of_mem c hk)) h₁ hrun
    refine ⟨x₂, fun hone a => ?_, h₂⟩
    rw [hx₂ hone, hx₁.2 hone, Nat.add_zero]

/-! ## Runs on the tar file system -/

theorem boot_slots {p : Str} {fs : Nat} (hrun : Client.boot E p fs = some y) {E' : Env D}
    (hE : SameSlots E E' 0 y.state.nextInode) : Client.boot E' p fs = some y := by
  have hrun' := hrun
  simp only [Client.boot, State.mount, allocInodeStruct, takeParentStruct, Option.bind_eq_bind,
    Option.bind_some] at hrun'
  have hnext : y.state.nextInode = 1 := by
    split_ifs at hrun'
    · cases hrun'
      rfl
    · cases hrun'
  have hslot : E'.slots 0 = E.slots 0 := by
    refine hE.slots 0 (Nat.le_refl _) ?_
    rw [hnext]
    exact Nat.one_pos
  have hzero : (State.empty : State D).nextInode = 0 := rfl
  rw [← hrun]
  simp only [Client.boot, State.mount, allocInodeStruct, takeParentStruct, Option.bind_eq_bind,
    Option.bind_some, hE.vfs, hzero, hslot]

theorem call_slots {c : Call} (hrun : y.call E c = some y') :
    y.state.nextInode ≤ y'.state.nextInode ∧ ∀ E', SameSlots E E' y.state.nextInode
      y'.state.nextInode → y.call E' c = some y' := by
  cases c with
  | traverse path =>
    obtain ⟨⟨s, r⟩, htraverse, hrun⟩ := Option.bind_eq_some_iff.1 hrun
    obtain ⟨hle, hrest⟩ := traverse_slots htraverse
    have hs : y'.state = s := by
      cases r <;> cases hrun <;> rfl
    rw [hs]
    refine ⟨hle, fun E' hE => ?_⟩
    rw [Client.call, hrest E' hE]
    exact hrun
  | openInode obj =>
    refine ⟨?_, fun E' _ => hrun⟩
    obtain ⟨⟨s, f⟩, hopen, hrun⟩ := Option.bind_eq_some_iff.1 hrun
    cases hrun
    obtain ⟨s₁, htake, hopen⟩ := Option.bind_eq_some_iff.1 hopen
    cases hopen
    exact (takeRefLocked_next htake).ge
  | releaseFile f =>
    refine ⟨?_, fun E' _ => hrun⟩
    obtain ⟨s, hrelease, hrun⟩ := Option.bind_eq_some_iff.1 hrun
    cases hrun
    obtain ⟨d, -, hrelease⟩ := Option.bind_eq_some_iff.1 hrelease
    split_ifs at hrelease
    · obtain ⟨s₁, hinode, hrelease⟩ := Option.bind_eq_some_iff.1 hrelease
      cases hrelease
      exact (releaseLoop_next hinode).ge
    · cases hrelease
      exact Nat.le_refl _
  | releaseInode obj =>
    refine ⟨?_, fun E' _ => hrun⟩
    rw [Client.call] at hrun
    split_ifs at hrun
    obtain ⟨s, hrelease, hrun⟩ := Option.bind_eq_some_iff.1 hrun
    cases hrun
    exact (releaseLoop_next hrelease).ge

theorem run_slots {cs : List Call} (hrun : y.run E cs = some y') :
    y.state.nextInode ≤ y'.state.nextInode ∧ ∀ E', SameSlots E E' y.state.nextInode
      y'.state.nextInode → y.run E' cs = some y' := by
  induction cs generalizing y with
  | nil =>
    cases hrun
    exact ⟨Nat.le_refl _, fun E' _ => rfl⟩
  | cons c cs ih =>
    obtain ⟨y₁, hcall, hrun⟩ := Option.bind_eq_some_iff.1 hrun
    obtain ⟨hle, hcall'⟩ := call_slots hcall
    obtain ⟨hle', hrest⟩ := ih hrun
    refine ⟨hle.trans hle', fun E' hE => ?_⟩
    rw [Client.run, hcall' E' (hE.mono (Nat.le_refl _) hle'), Option.bind_some,
      hrest E' (hE.mono hle (Nat.le_refl _))]

/-- When the memory of every inode that a run makes holds the count 1, no path is the mount point
with slashes behind it, and no inode gets `2 ^ 31` references, the counts are the references in
every state of the run. -/
theorem run_accounted {m : ByteMem} {archive fuel : Nat} {es : List Entry}
    (h : Archive m archive es) (hfuel : es.length + 101 ≤ fuel) {slots : Nat → Slot TarInode}
    {p : Str} {fs : Nat} {y₀ y : Client TarInode}
    (hboot : Client.boot (Tar.tarEnv m archive fuel slots) p fs = some y₀) {cs : List Call}
    (hrun : y₀.run (Tar.tarEnv m archive fuel slots) cs = some y)
    (hslots : ∀ n < y.state.nextInode, (slots n).rc = 1)
    (hpaths : ∀ k, .traverse (p ++ List.replicate k slash) ∉ cs)
    (hlt : ∀ a, y.references a < 2 ^ 31) : Accounted y := by
  -- the memory behind the last inode does not matter
  let slots' : Nat → Slot TarInode :=
    fun n => if n < y.state.nextInode then slots n else ⟨1, (slots n).data⟩
  have hone : OneRef (Tar.tarEnv m archive fuel slots') := by
    intro n
    show (slots' n).rc = 1
    by_cases hn : n < y.state.nextInode
    · rw [show slots' n = slots n from if_pos hn]
      exact hslots n hn
    · rw [show slots' n = ⟨1, (slots n).data⟩ from if_neg hn]
  have hsame : ∀ {a}, SameSlots (Tar.tarEnv m archive fuel slots)
      (Tar.tarEnv m archive fuel slots') a y.state.nextInode :=
    fun {a} => ⟨rfl, fun n _ hn => if_pos hn⟩
  obtain ⟨hle, hrun'⟩ := run_slots hrun
  have hboot' : Client.boot (Tar.tarEnv m archive fuel slots') p fs = some y₀ :=
    boot_slots hboot (hsame.mono (Nat.le_refl _) hle)
  have hslot (n : Nat) : (slots' n).rc.toNat ≤ 2 ^ 31 := by
    rw [show (slots' n).rc = 1 from hone n]
    decide
  obtain ⟨x₀, hx₀, hinv₀⟩ := Inv.boot hone.nonZero hslot hboot'
  obtain ⟨x, hx, hinv⟩ :=
    hinv₀.run hone.nonZero hslot (tarEnv_noRoot h hfuel) hpaths (hrun' _ hsame)
  exact hinv.accounted (fun a => by rw [hx hone, hx₀.2 hone]) hlt

/-- There are not more references than inodes, open files and results of `traverse`. -/
theorem references_le (y : Client D) (a : Nat) :
    y.references a ≤ y.held.length + y.state.nextFile + y.state.nextInode + 1 := by
  have hle {β : Type} [Lib.Counted β] (n : Nat) (f : Forest β) : children n f a ≤ n :=
    (Finset.card_filter_le _ _).trans_eq (Finset.card_range n)
  have hheld : y.held.count a ≤ y.held.length := List.count_le_length
  have hfiles := hle y.state.nextFile y.state.fileDescs
  have hinodes := hle y.state.nextInode y.state.inodes
  have hone : one (some 0) a ≤ 1 := by
    rw [one]
    split_ifs <;> decide
  rw [references, outside]
  omega

theorem run_accounted_oneFile :
    ∃ y₀ y, Client.boot (Tar.tarEnv oneFile 0 102 oneRefSlots) [slash] 0 = some y₀ ∧
      y₀.run (Tar.tarEnv oneFile 0 102 oneRefSlots)
        [.traverse [slash, 0x61, slash, 0x62], .openInode 2, .releaseInode 2] = some y ∧
      Accounted y := by
  have hrun : ∃ y₀ y, Client.boot (Tar.tarEnv oneFile 0 102 oneRefSlots) [slash] 0 = some y₀ ∧
      y₀.run (Tar.tarEnv oneFile 0 102 oneRefSlots)
        [.traverse [slash, 0x61, slash, 0x62], .openInode 2, .releaseInode 2] = some y ∧
      y.held.length = 0 ∧ y.state.nextFile = 1 ∧ y.state.nextInode = 3 :=
    ⟨_, _, rfl, rfl, rfl, rfl, rfl⟩
  obtain ⟨y₀, y, hboot, hrun, hheld, hfile, hinode⟩ := hrun
  have hlt (a : Nat) : y.references a < 2 ^ 31 := by
    have := y.references_le a
    omega
  have hpaths (k : Nat) : Call.traverse ([slash] ++ List.replicate k slash) ∉
      [.traverse [slash, 0x61, slash, 0x62], .openInode 2, .releaseInode 2] := by
    intro hk
    rw [List.mem_cons] at hk
    rcases hk with hk | hk
    · have hbad : [0x61, slash, 0x62] = List.replicate k slash :=
        (List.cons.inj (Call.traverse.inj hk)).2.symm
      have hmem : (0x61 : BitVec 8) ∈ List.replicate k slash := by
        rw [← hbad]
        exact List.mem_cons_self
      exact absurd (List.eq_of_mem_replicate hmem) (by decide)
    · simp at hk
  exact ⟨y₀, y, hboot, hrun, run_accounted oneFile_archive (Nat.le_refl _) hboot hrun
    (fun _ _ => rfl) hpaths hlt⟩

/-- What `kmem_alloc` fills new blocks with. -/
def freshSlots : Nat → Slot TarInode := fun _ => ⟨0x41414141, ⟨0x41414141, 0x41414141, 0x41414141⟩⟩

/-- The constructor leaves the count of the root as the memory held it. -/
theorem boot_fresh :
    ∃ y, Client.boot (Tar.tarEnv oneFile 0 102 freshSlots) [slash] 0 = some y ∧ ¬ Accounted y := by
  have hboot : ∃ y, Client.boot (Tar.tarEnv oneFile 0 102 freshSlots) [slash] 0 = some y ∧
      (y.state.inodes 0).map (·.iRc) = some 0x41414141 ∧ y.references 0 = 1 :=
    ⟨_, rfl, rfl, rfl⟩
  obtain ⟨y, hboot, hrc, href⟩ := hboot
  refine ⟨y, hboot, fun hbad => ?_⟩
  obtain ⟨i, hi, hrc⟩ := Option.map_eq_some_iff.1 hrc
  have hcount := hbad.count 0 i hi
  rw [hrc, href] at hcount
  exact absurd hcount (by decide)

end Client

end TinyLittleOs.Fs
