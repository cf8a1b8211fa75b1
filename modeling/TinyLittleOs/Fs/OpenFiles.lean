import TinyLittleOs.Fs.Images

/-!
# Files that a client opens

The path of a file leads to an open file that reads as the file, and the client gives back all that
it took.
-/

namespace TinyLittleOs.Fs

open Lib Function Forest State Relation

/-! ## The root of the mount -/

namespace Client

variable {D : Type} {E : Env D} {mnt : MountPoint} {y y' : Client D} {x x' : Nat → Nat}

/-- The first inode is the root of the mount. -/
def Rooted (mnt : MountPoint) (y : Client D) : Prop :=
  ∃ i, y.state.inodes 0 = some i ∧ i.ownerFs = mnt.mFs ∧ i.iNum = rootInode

/-- The mount has a reference to its root. -/
theorem Inv.root_live (h : Inv E mnt x y) : ∃ i, y.state.inodes 0 = some i := by
  apply Option.ne_none_iff_exists'.1
  apply h.counted.live_iff.2
  rw [outside, one_self]
  omega

theorem call_keeps (h : Inv E mnt x y) (hrc : NonZero E)
    (hle : ∀ n, (E.slots n).rc.toNat ≤ 2 ^ 31) (hroot : NoRoot E) {c : Call}
    (hrun : y.call E c = some y') : Keeps y.state y'.state := by
  cases c with
  | traverse path =>
    obtain ⟨⟨s, r⟩, htraverse, hrun⟩ := Option.bind_eq_some_iff.1 hrun
    have hs : y'.state = s := by
      cases r <;> cases hrun <;> rfl
    rw [hs]
    rcases traverse_rounds htraverse with ⟨rfl, -⟩ | ⟨fs, p, root, s₁, p₁, a, hstart, hrounds, hend⟩
    · exact .refl _
    obtain ⟨m, -, -, -, htable⟩ := hstart
    obtain ⟨i, -, hwalk⟩ := h.wf.roaming htable
    obtain ⟨j, hj, -⟩ := hwalk.rounds hrc hle hroot hrounds
    rcases hend with ⟨-, -, rfl⟩ | ⟨-, hstop⟩
    · exact hj.keeps
    · exact (hj.stop hstop).2.1
  | openInode obj =>
    obtain ⟨⟨s, f⟩, hopen, hrun⟩ := Option.bind_eq_some_iff.1 hrun
    cases hrun
    obtain ⟨s, htake, hopen⟩ := Option.bind_eq_some_iff.1 hopen
    obtain ⟨j, hj, -, rfl, -⟩ := h.wf.of_takeRefLocked htake
    cases hopen
    exact ⟨(keeps_take hj).le, (keeps_take hj).same⟩
  | releaseFile f =>
    obtain ⟨s, hrelease, hrun⟩ := Option.bind_eq_some_iff.1 hrun
    cases hrun
    obtain ⟨d, -, hrelease⟩ := Option.bind_eq_some_iff.1 hrelease
    split_ifs at hrelease
    · obtain ⟨s₁, hinode, hrelease⟩ := Option.bind_eq_some_iff.1 hrelease
      cases hrelease
      obtain ⟨f', t, hreleased, rfl, -⟩ := h.wf.of_release hinode
      exact ⟨(keeps_released hreleased t).le, (keeps_released hreleased t).same⟩
    · cases hrelease
      exact ⟨Nat.le_refl _, (Keeps.refl y.state).same⟩
  | releaseInode obj =>
    rw [Client.call] at hrun
    split_ifs at hrun
    obtain ⟨s, hrelease, hrun⟩ := Option.bind_eq_some_iff.1 hrun
    cases hrun
    obtain ⟨f', t, hreleased, rfl, -⟩ := h.wf.of_release hrelease
    exact keeps_released hreleased t

theorem Rooted.of_keeps (hr : Rooted mnt y) (h : Inv E mnt x y) (h' : Inv E mnt x' y')
    (hkeeps : Keeps y.state y'.state) : Rooted mnt y' := by
  obtain ⟨i, hi, hfs, hnum⟩ := hr
  obtain ⟨j, hj⟩ := h'.root_live
  obtain ⟨i', k, hi', rfl⟩ := hkeeps.same 0 (h.counted.lt hi) j hj
  obtain rfl := Option.some.inj (hi.symm.trans hi')
  exact ⟨_, hj, hfs, hnum⟩

theorem rooted_boot {p : Str} {fs : Nat} (hrun : Client.boot E p fs = some y) :
    Rooted ⟨p, fs⟩ y := by
  obtain ⟨s, hmount, hrun⟩ := Option.bind_eq_some_iff.1 hrun
  cases hrun
  simp only [State.mount, allocInodeStruct, takeParentStruct, Option.bind_eq_bind,
    Option.bind_some] at hmount
  split_ifs at hmount
  cases hmount
  refine ⟨_, rfl, ?_, ?_⟩
  · rfl
  · rfl

/-- A run keeps the root and the invariant. -/
theorem Rooted.run (hrc : NonZero E) (hle : ∀ n, (E.slots n).rc.toNat ≤ 2 ^ 31) (hroot : NoRoot E)
    {cs : List Call} (hpaths : ∀ k, .traverse (mnt.mPath ++ List.replicate k slash) ∉ cs)
    (hr : Rooted mnt y) (h : Inv E mnt x y) (hrun : y.run E cs = some y') :
    Rooted mnt y' ∧ ∃ x', Inv E mnt x' y' := by
  induction cs generalizing y x with
  | nil =>
    cases hrun
    exact ⟨hr, x, h⟩
  | cons c cs ih =>
    obtain ⟨y₁, hcall, hrun⟩ := Option.bind_eq_some_iff.1 hrun
    obtain ⟨x₁, -, h₁⟩ := h.call hrc hle hroot (fun k hk => hpaths k (hk ▸ List.mem_cons_self))
      hcall
    exact ih (fun k hk => hpaths k (List.mem_cons_of_mem c hk))
      (hr.of_keeps h h₁ (call_keeps h hrc hle hroot hcall)) h₁ hrun

theorem Inv.root (h : Inv E mnt x y) (hr : Rooted mnt y) :
    y.state.table mnt.mFs rootInode = some 0 :=
  (h.wf.indexed mnt.mFs rootInode 0).2 hr

end Client

/-! ## Reading through the state -/

namespace State

/-- A call to the open file `f`. The bytes that `read` returns are kept. -/
def readCall (s : State TarInode) (m : ByteMem) (f : Nat) (bytes : Str) (c : ReadCall) :
    Option (State TarInode × Str) := do
  let d ← s.fileDescs f
  let i ← s.inodes d.ownerInode
  let y := Reader.call (Tar.tarRead m i.data) ⟨d, bytes⟩ c
  some ({ s with fileDescs := update s.fileDescs f (some y.file) }, y.received)

def readCalls (m : ByteMem) (f : Nat) :
    State TarInode → Str → List ReadCall → Option (State TarInode × Str)
  | s, bytes, [] => some (s, bytes)
  | s, bytes, c :: calls =>
    (s.readCall m f bytes c).bind fun (s, bytes) => readCalls m f s bytes calls

end State

/-- A call leaves the owner and the count of an open file. -/
theorem Reader.call_file (fRead : FileDesc.FRead) (y : Reader) (c : ReadCall) :
    (y.call fRead c).file.ownerInode = y.file.ownerInode ∧ (y.call fRead c).file.rc =
      y.file.rc := by
  cases c with
  | read count =>
    simp only [Reader.call, FileDesc.read]
    split <;> exact ⟨rfl, rfl⟩
  | pread count pos => exact ⟨rfl, rfl⟩

section Calls

variable {m : ByteMem} {f : Nat} {i : Inode TarInode}

/-- The calls only change the open file, which they read as a reader does. -/
theorem State.readCalls_eq {s : State TarInode} {d : FileDesc} {bytes : Str}
    (hd : s.fileDescs f = some d) (hi : s.inodes d.ownerInode = some i) (calls : List ReadCall) :
    let y := calls.foldl (Reader.call (Tar.tarRead m i.data)) ⟨d, bytes⟩
    readCalls m f s bytes calls =
      some ({ s with fileDescs := update s.fileDescs f (some y.file) }, y.received) := by
  induction calls generalizing s d bytes with
  | nil =>
    have hself : update s.fileDescs f (some d) = s.fileDescs := by rw [← hd, update_eq_self]
    dsimp only [List.foldl_nil]
    rw [hself]
    rfl
  | cons c calls ih =>
    obtain ⟨howner, -⟩ := Reader.call_file (Tar.tarRead m i.data) ⟨d, bytes⟩ c
    rw [List.foldl_cons, readCalls, readCall, hd, Option.bind_eq_bind, Option.bind_some, hi,
      Option.bind_eq_bind, Option.bind_some]
    dsimp only [Option.bind_some]
    generalize Reader.call (Tar.tarRead m i.data) ⟨d, bytes⟩ c = y at howner ⊢
    rw [← howner] at hi
    obtain ⟨e, bytes'⟩ := y
    have hrest :=
      @ih { s with fileDescs := update s.fileDescs f (some e) } e bytes' (update_self ..) hi
    dsimp only at hrest ⊢
    rw [hrest, update_idem]

end Calls

/-! ## A file of the archive -/

/-- The memory of each new inode counts a reference, and can count another `k`. -/
def Countable (k : Nat) (slots : Nat → Slot TarInode) : Prop :=
  ∀ n, 0 < (slots n).rc.toNat ∧ (slots n).rc.toNat + k < 2 ^ 31

section Countable

variable {k : Nat} {slots : Nat → Slot TarInode} (h : Countable k slots) (m : ByteMem)
  (a fuel : Nat)
include h

theorem Countable.mono {k' : Nat} (hk : k' ≤ k) : Countable k' slots := by
  intro n
  obtain ⟨hpos, hlt⟩ := h n
  omega

theorem Countable.nonZero : NonZero (Tar.tarEnv m a fuel slots) := by
  intro n he
  replace he : (slots n).rc = 0 := he
  have hpos := (h n).1
  rw [he] at hpos
  exact absurd hpos (by decide)

theorem Countable.le (n : Nat) : ((Tar.tarEnv m a fuel slots).slots n).rc.toNat ≤ 2 ^ 31 := by
  have hlt := (h n).2
  show (slots n).rc.toNat ≤ 2 ^ 31
  omega

end Countable

section Finds

variable {m : ByteMem} {a fuel : Nat} {files : List File} (h : Stored m a files)
  (hfuel : files.length + 101 ≤ fuel) {slots : Nat → Slot TarInode} {k : Nat} {path : Str}
  (hslots : Countable (k + path.length) slots) {mnt : MountPoint} {x : Nat → Nat}
  {y : Client TarInode} (hy : Client.Inv (Tar.tarEnv m a fuel slots) mnt x y)
  (hr : Client.Rooted mnt y) (hroom : Room (k + path.length) y.state)
  (hpath : mnt.mPath.length = 1 ∨ path.head? = some slash) (h0 : (0 : BitVec 8) ∉ path)
include h hfuel hslots hy hr hroom hpath h0

/-- What `traverse` returns is the inode of the path, to which the client has a reference. -/
theorem traverse_named : ∃ s r, y.state.traverse (Tar.tarEnv m a fuel slots) (mnt.mPath ++ path) =
    some (s, r) ∧ Resolves (Tar.tarEnv m a fuel slots) m a fuel y.state s mnt.mFs
      (components path) r ∧
      ∀ obj, r = .ok obj → ∃ i, Roaming (Tar.tarEnv m a fuel slots) y.state s mnt.mFs obj i ∧
        Room k s := by
  have hfuel' : (files.map File.entry).length + 101 ≤ fuel := by rwa [List.length_map]
  have hp : mnt.mPath ≠ [] := hy.wf.mounted mnt (by rw [hy.mounts]; exact List.mem_singleton_self _)
  have htable := hy.root hr
  have hrc := hslots.nonZero m a fuel
  obtain ⟨i, hi, hw⟩ := hy.wf.roaming htable
  have hnamed : NamedBy m a fuel [] i := ⟨by simp [hi], fun hbad => absurd rfl hbad⟩
  have hsteps : path.length < (mnt.mPath ++ path).length + 1 := by
    rw [List.length_append]
    omega
  have hE : (Tar.tarEnv m a fuel slots).vfs mnt.mFs = Tar.vfsTar m a fuel := rfl
  obtain ⟨s, r, hwalk, hend⟩ := Roaming.returns h.archive hfuel' hE hnamed (by simp) hrc
    (fun n => (hslots n).2) hy.counted hw hroom h0 hsteps
  have hres := At.components h.archive hfuel' hE hnamed (by simp) hrc hw.toAt h0 hwalk
  refine ⟨s, r, ?_, hres, hend⟩
  have hnonempty : mnt.mPath ++ path ≠ [] := by simp [hp]
  have hsome : y.state.mounts ≠ [] := by simp [hy.mounts]
  rw [State.traverse, if_neg hnonempty, if_neg hsome, hy.mounts, bestMount_singleton hp hpath]
  simp only [htable, Option.bind_eq_bind, Option.bind_some, List.drop_left, hwalk]

/-- The path of a file leads to an inode with its contents. -/
theorem traverse_finds (hne : components path ≠ []) {f : File}
    (hf : Finds files (joined (components path)) f) : ∃ s obj i,
      y.state.traverse (Tar.tarEnv m a fuel slots) (mnt.mPath ++ path) = some (s, .ok obj) ∧
      Roaming (Tar.tarEnv m a fuel slots) y.state s mnt.mFs obj i ∧ Room k s ∧
      walkRef obj i = some obj ∧
      Tar.contents m i.data = f.content ∧ i.data.mContentsLength.toNat = f.content.length := by
  have hcs := component_of_mem h0
  obtain ⟨s, r, hrun, hres, hend⟩ := traverse_named h hfuel hslots hy hr hroom hpath h0
  cases r with
  | error e =>
    obtain ⟨c, hc⟩ := h.lookup hfuel (joined_plain hne hcs).1.no_nul hf
    exact absurd hc (hres c)
  | ok obj =>
    obtain ⟨i, hat, hnamed⟩ := hres
    obtain ⟨i', hw, hroom'⟩ := hend obj rfl
    obtain rfl := Option.some.inj (hat.inode.symm.trans hw.inode)
    have hnum : i.iNum ≠ rootInode := fun he => hne (hnamed.root.1 he)
    obtain ⟨d, hd⟩ := (hw.wf.sound obj i hw.inode).loaded hnum
    obtain ⟨hcontents, hlength⟩ := hnamed.contents h hfuel hcs hne hd hf
    exact ⟨s, obj, i, hrun, hw, hroom', if_neg hnum, hcontents, hlength⟩

end Finds

/-! ## Giving back -/

section Close

variable {D : Type} {E : Env D} {s₀ s : State D} {fs obj : Nat} {i : Inode D}

/-- The same mounts and open files. The inodes are still there, and the count of each has changed by
its children only. They stay when their memory counted more than one reference. -/
structure GivesBack (s s' : State D) : Prop where
  mounts : s'.mounts = s.mounts
  files : s'.fileDescs = s.fileDescs
  inodes : ∀ b i, s.inodes b = some i → ∃ k, s'.inodes b = some { i with iRc := k } ∧
    k.toNat + children s.nextInode s.inodes b = i.iRc.toNat + children s'.nextInode s'.inodes b

/-- An inode that `traverse` has returned is opened, and then the file and it are released. -/
theorem State.Roaming.opened (hw : Roaming E s₀ s fs obj i) {e : Nat → Nat} (he : s₀.Counted e)
    {k : Nat} (hroom : Room (k + 1) s) (href : walkRef obj i = some obj)
    (hnone : s.fileDescs s.nextFile = none) : ∃ s' j, s.openInode obj = some (s', s.nextFile) ∧
      s'.fileDescs s.nextFile = some { rc := 1, ownerInode := obj, fPos := 0 } ∧
      s'.inodes obj = some j ∧ j.data = i.data ∧
      ∃ s₁ s₂, (∀ d : FileDesc, d.ownerInode = obj → d.rc = 1 →
        { s' with fileDescs := update s'.fileDescs s.nextFile (some d) }.releaseFile s.nextFile =
          some s₁) ∧ s₁.release obj = some s₂ ∧ Room k s₂ ∧ GivesBack s₀ s₂ := by
  obtain ⟨htake, hwf⟩ := hw.wf.takeRefLocked hw.inode (hroom.pos hw.wf hw.inode)
  let s' : State D :=
    { s with
      inodes := take s.inodes obj i
      fileDescs := update s.fileDescs s.nextFile (some { rc := 1, ownerInode := obj, fPos := 0 })
      nextFile := s.nextFile + 1 }
  have hopen : s.openInode obj = some (s', s.nextFile) := by
    rw [State.openInode, htake]
    rfl
  have hwf' (fds : Forest FileDesc) : Wf E { s' with fileDescs := fds } :=
    ⟨hwf.bound, hwf.sound, hwf.indexed, hwf.mounted⟩
  let s₁ : State D := { s with nextFile := s.nextFile + 1 }
  -- the open file had the reference that it took
  have hclose (d : FileDesc) (howner : d.ownerInode = obj) (hrc : d.rc = 1) :
      { s' with fileDescs := update s'.fileDescs s.nextFile (some d) }.releaseFile s.nextFile =
      some s₁ := by
    obtain ⟨t, hrelease, hwf₁⟩ := (hwf' (update s'.fileDescs s.nextFile (some d))).release
      (take_released hw.inode (hw.wf.sound obj i hw.inode).count
        (hroom.mono (Nat.le_add_left 1 k) obj i hw.inode))
    have ht : t = s.table := hwf₁.indexed.eq hw.wf.indexed
    subst ht
    have hback : update (update s'.fileDescs s.nextFile (some d)) s.nextFile none =
        s.fileDescs := by
      rw [update_idem]
      show update (update s.fileDescs s.nextFile _) s.nextFile none = s.fileDescs
      rw [update_idem, ← hnone, update_eq_self]
    rw [State.releaseFile]
    dsimp only
    rw [update_self, Option.bind_eq_bind, Option.bind_some, hrc, if_pos (by decide),
      if_pos (by decide), howner, hrelease, Option.bind_eq_bind, Option.bind_some]
    dsimp only
    rw [hback]
  obtain ⟨x, hx, hcounted⟩ := hw.counted e he
  rw [href] at hcounted
  have hcounted' : s₁.Counted fun c => e c + x c + one (some obj) c :=
    hcounted.congr fun c => Nat.add_right_comm ..
  obtain ⟨f', hr⟩ := hcounted'.exists_released (hroom.mono (Nat.zero_le _))
  obtain ⟨t, hlast, -⟩ := (show Wf E s₁ from
    ⟨hw.wf.bound, hw.wf.sound, hw.wf.indexed, hw.wf.mounted⟩).release hr
  have hreleased := keeps_released (s := s₁) hr t
  refine ⟨s', Counted.setRc (i.iRc + 1) i, hopen, update_self .., update_self .., rfl, s₁, _,
    hclose, hlast, Room.released (s := s₁) (hroom.mono (Nat.le_succ k)) hr t, ?_, ?_,
    fun b d hd => ?_⟩
  · show s.mounts = s₀.mounts
    rw [hw.frame]
  · show s.fileDescs = s₀.fileDescs
    rw [hw.frame]
  · have hbefore : d.iRc.toNat = e b + children s₀.nextInode s₀.inodes b := he.count b d hd
    have hcounted₂ := Balanced.released hr hcounted'
    obtain ⟨c, hc⟩ := he.kept hcounted₂ (fun c => Nat.le_add_right ..)
      (hw.keeps.trans ⟨hreleased.le, hreleased.same⟩) hd
    have hafter : c.toNat = e b + x b + children s.nextInode f' b := hcounted₂.count b _ hc
    rw [hx.1 b (he.lt hd)] at hafter
    refine ⟨c, hc, ?_⟩
    show _ = _ + children s.nextInode f' b
    omega

end Close

/-! ## The whole way -/

/-- The image of some files is mounted at `p`, and a client came to `y` without asking for the mount
point itself. Each inode can get another `k` references, also the new ones, whose count is what
their memory held. -/
structure Serving (m : ByteMem) (a fuel : Nat) (files : List File) (slots : Nat → Slot TarInode)
    (p : Str) (k : Nat) (y : Client TarInode) : Prop where
  image : HasBytes m a (image files)
  length_lt : (Fs.image files).length < 2 ^ 32
  fuel_le : files.length + 101 ≤ fuel
  countable : Countable k slots
  room : Room k y.state
  run : ∃ fs y₀ cs, Client.boot (Tar.tarEnv m a fuel slots) p fs = some y₀ ∧
    y₀.run (Tar.tarEnv m a fuel slots) cs = some y ∧
    ∀ k, .traverse (p ++ List.replicate k slash) ∉ cs

theorem Client.run_append {D : Type} {E : Env D} {y : Client D} (cs ds : List Call) :
    y.run E (cs ++ ds) = (y.run E cs).bind fun y => y.run E ds := by
  induction cs generalizing y with
  | nil => rfl
  | cons c cs ih =>
    rw [List.cons_append, Client.run, Client.run, Option.bind_assoc]
    exact congrArg _ (funext fun y => ih)

theorem components_replicate (k : Nat) : components (List.replicate k slash) = [] := by
  induction k with
  | zero => exact components_nil
  | succ k ih => rw [List.replicate_succ, components_slash, ih]

section Serving

variable {m : ByteMem} {a fuel : Nat} {files : List File} {slots : Nat → Slot TarInode} {p : Str}
  {k : Nat} {y : Client TarInode} {path : Str}
  (h : Serving m a fuel files slots p (k + (path.length + 1)) y)
  (hpath : p.length = 1 ∨ path.head? = some slash) (h0 : (0 : BitVec 8) ∉ path)
  (hne : components path ≠ []) {f : File} (hf : Finds files (joined (components path)) f)
include h hpath h0 hne hf

/-- The inode of a path is opened. What was taken can be given back, and the client goes on. -/
theorem Serving.opened : ∃ s obj s' d j,
    y.state.traverse (Tar.tarEnv m a fuel slots) (p ++ path) = some (s, .ok obj) ∧
    s.openInode obj = some (s', d) ∧
    s'.fileDescs d = some { rc := 1, ownerInode := obj, fPos := 0 } ∧ s'.inodes obj = some j ∧
    Tar.contents m j.data = f.content ∧ j.data.mContentsLength.toNat = f.content.length ∧
    ∃ s₁ s₂, (∀ e : FileDesc, e.ownerInode = obj → e.rc = 1 →
      { s' with fileDescs := update s'.fileDescs d (some e) }.releaseFile d = some s₁) ∧
      s₁.release obj = some s₂ ∧ GivesBack y.state s₂ ∧
      Serving m a fuel files slots p k ⟨s₂, y.held⟩ := by
  have hstored := stored_image h.image h.length_lt
  have hfuel : (files.map File.entry).length + 101 ≤ fuel := by
    rw [List.length_map]
    exact h.fuel_le
  have hnoroot : NoRoot (Tar.tarEnv m a fuel slots) := tarEnv_noRoot hstored.archive hfuel
  have hrc := h.countable.nonZero m a fuel
  have hle := h.countable.le m a fuel
  obtain ⟨fs, y₀, cs, hboot, hrun, hpaths⟩ := h.run
  obtain ⟨x₀, -, hinv₀⟩ := Client.Inv.boot hrc hle hboot
  obtain ⟨hrooted, x, hinv⟩ :=
    (Client.rooted_boot hboot).run hrc hle hnoroot hpaths hinv₀ hrun
  have hk : k + 1 + path.length = k + (path.length + 1) := by omega
  obtain ⟨s, obj, i, htraverse, hw, hroom, href, hcontents, hlength⟩ :=
    traverse_finds hstored h.fuel_le (k := k + 1) (by rw [hk]; exact h.countable) hinv hrooted
      (by rw [hk]; exact h.room) hpath h0 hne hf
  have hnone : s.fileDescs s.nextFile = none := by
    rw [hw.frame]
    exact hinv.files _ (Nat.le_refl _)
  obtain ⟨s', j, hopen, hdesc, hj, hdata, s₁, s₂, hclose, hlast, hroom', hback⟩ :=
    hw.opened hinv.counted hroom href hnone
  refine ⟨s, obj, s', s.nextFile, j, htraverse, hopen, hdesc, hj, by rw [hdata]; exact hcontents,
    by rw [hdata]; exact hlength, s₁, s₂, hclose, hlast, hback, h.image, h.length_lt, h.fuel_le,
    h.countable.mono (Nat.le_add_right ..), hroom', fs, y₀, cs ++ [.traverse (p ++ path),
      .openInode obj, .releaseFile s.nextFile, .releaseInode obj], hboot, ?_, fun l hl => ?_⟩
  · have hself : s'.releaseFile s.nextFile = some s₁ := by
      have hclosed := hclose { rc := 1, ownerInode := obj, fPos := 0 } rfl rfl
      rwa [← hdesc, update_eq_self] at hclosed
    rw [Client.run_append, hrun]
    simp only [Client.run, Client.call, htraverse, hopen, hself, hlast, Option.bind_eq_bind,
      Option.bind_some, List.mem_cons_self, if_true, List.erase_cons_head]
  · rcases List.mem_append.1 hl with hl | hl
    · exact hpaths l hl
    · have heq : p ++ List.replicate l slash = p ++ path := by simpa using hl
      rw [← List.append_cancel_left heq, components_replicate] at hne
      exact hne rfl

/-- A client opens a file of the mounted image by its path, reads the contents in pieces, gives back
what it took, and can go on. -/
theorem open_image (hsize : f.content.length < 2 ^ 31) : ∃ s obj s' d,
    y.state.traverse (Tar.tarEnv m a fuel slots) (p ++ path) = some (s, .ok obj) ∧
    s.openInode obj = some (s', d) ∧
    ∀ calls, ∃ s₁ s₂ s₃, readCalls m d s' [] calls = some (s₁, f.content.take (requested calls)) ∧
      s₁.releaseFile d = some s₂ ∧ s₂.release obj = some s₃ ∧ GivesBack y.state s₃ ∧
      Serving m a fuel files slots p k ⟨s₃, y.held⟩ := by
  obtain ⟨s, obj, s', d, j, htraverse, hopen, hdesc, hj, hcontents, hlength, s₂, s₃, hclose, hlast,
    hback, hserving⟩ := h.opened hpath h0 hne hf
  refine ⟨s, obj, s', d, htraverse, hopen, fun calls => ?_⟩
  have hstart : Upto m j.data obj 0 ⟨{ rc := 1, ownerInode := obj, fPos := 0 }, []⟩ :=
    ⟨rfl, rfl, rfl, rfl⟩
  have hupto := hstart.run (by rwa [hlength]) calls
  rw [Nat.zero_add] at hupto
  refine ⟨_, s₂, s₃, ?_, hclose _ hupto.owner hupto.rc, hlast, hback, hserving⟩
  rw [State.readCalls_eq hdesc hj calls, hupto.received, hcontents]

end Serving

/-- The file `a` of two bytes. -/
def twoLetters : File where
  name := [0x61]
  content := [0x68, 0x69]
  length_le := by decide
  no_nul := by decide
  size_lt := by decide

theorem boot_room {D : Type} {E : Env D} {k : Nat} (hslot : (E.slots 0).rc.toNat + k < 2 ^ 31)
    {p : Str} {fs : Nat} {y : Client D} (hboot : Client.boot E p fs = some y) : Room k y.state := by
  obtain ⟨s, hmount, hboot⟩ := Option.bind_eq_some_iff.1 hboot
  cases hboot
  exact mount_room hslot hmount

/-- What a new block of kmem holds leaves room for so many references. -/
theorem countable_freshSlots {k : Nat} (hk : k < 0x3EBEBEBF) : Countable k Client.freshSlots := by
  intro n
  have hrc : (Client.freshSlots n).rc.toNat = 0x41414141 := rfl
  omega

/-- The file is read twice, where new inodes count what a new block of kmem holds. -/
theorem open_image_twoLetters :
    ∃ (m : ByteMem) (y y' : Client TarInode) (s s₁ s' s₁' : State TarInode) (d d' : Nat),
    Serving m 0 102 [twoLetters] Client.freshSlots [slash] 6 y ∧
      readCalls m d s [] [.read 1, .pread 2 0, .read 9] = some (s₁, [0x68, 0x69]) ∧
      Serving m 0 102 [twoLetters] Client.freshSlots [slash] 3 y' ∧
      readCalls m d' s' [] [.read 1, .pread 2 0, .read 9] = some (s₁', [0x68, 0x69]) := by
  have hboot : ∃ y, Client.boot
      (Tar.tarEnv (memoryOf (image [twoLetters])) 0 102 Client.freshSlots) [slash] 0 = some y :=
    ⟨_, rfl⟩
  obtain ⟨y, hboot⟩ := hboot
  have hlt : (image [twoLetters]).length < 2 ^ 32 := by
    rw [image_length]
    decide
  have hserving : Serving (memoryOf (image [twoLetters])) 0 102 [twoLetters] Client.freshSlots
      [slash] 6 y :=
    ⟨hasBytes_memoryOf _, hlt, Nat.le_refl _, countable_freshSlots (by decide),
      boot_room (by decide) hboot, 0, y, [], hboot, rfl, by simp⟩
  have h0 : (0 : BitVec 8) ∉ [slash, 0x61] := by decide
  have hfinds : Finds [twoLetters] (joined (components [slash, 0x61])) twoLetters :=
    ⟨by decide, [], [], rfl, by simp⟩
  obtain ⟨s, obj, s', d, -, -, hread⟩ :=
    open_image (k := 3) hserving (Or.inl rfl) h0 (by decide) hfinds (by decide)
  obtain ⟨s₁, s₂, s₃, hbytes, -, -, -, hagain⟩ := hread [.read 1, .pread 2 0, .read 9]
  obtain ⟨-, obj', s'', d', -, -, hread'⟩ :=
    open_image (k := 0) hagain (Or.inl rfl) h0 (by decide) hfinds (by decide)
  obtain ⟨s₁', -, -, hbytes', -⟩ := hread' [.read 1, .pread 2 0, .read 9]
  exact ⟨_, y, _, s', s₁, s'', s₁', d, d', hserving, hbytes, hagain, hbytes'⟩

end TinyLittleOs.Fs
