import TinyLittleOs.Fs.OpenFiles
import TinyLittleOs.Devices.Tty
import TinyLittleOs.Scheduler.ElfLoads

/-!
# The main task

`show_splash` and `main_task` of `kmain.cpp`, from the path of a file in the initrd to the screen
and to the pages of the task.
-/

namespace TinyLittleOs.Kmain

open Lib Fs Fs.State Devices Scheduler

/-- The characters of a string, which are all ASCII here. -/
def str (s : String) : Str := s.toList.map fun c => BitVec.ofNat 8 c.toNat

/-- `traverse`, `open` and the two assertions on them. -/
def openPath (E : Env TarInode) (s : Fs.State TarInode) (path : Str) :
    Option (Fs.State TarInode × Nat × Nat) := do
  let (s, r) ← s.traverse E path
  let a ← r.toOption
  let (s, f) ← s.openInode a
  some (s, a, f)

/-! ## The splash screen -/

/-- `tty_driver::write` of a `string_buf`. -/
def write (s : Str) (t : Tty) : Except BadIndex Tty := s.foldlM (fun t c => t.put c) t

/-- `f->read(buf, 4096)`, and the bytes in `buf` that the assertion lets through. -/
def readSplash (m : ByteMem) (s : Fs.State TarInode) (f : Nat) :
    Option (Fs.State TarInode × Str) := do
  let d ← s.fileDescs f
  let i ← s.inodes d.ownerInode
  let (readLen, buf, d) := d.read (Tar.tarRead m i.data) 4096
  if readLen.toInt ≤ 4096 ∧ 0 ≤ readLen.toInt then
    some ({ s with fileDescs := Function.update s.fileDescs f (some d) }, buf.take readLen.toNat)
  else none

def showSplash (m : ByteMem) (E : Env TarInode) (s : Fs.State TarInode) (t : Tty) :
    Option (Fs.State TarInode × Tty) := do
  let (s, a, f) ← openPath E s (str "/initrd/splash.txt")
  let (s, buf) ← readSplash m s f
  let t ← (write buf t).toOption
  let s ← s.releaseFile f
  let s ← s.release a
  some (s, t)

/-! ## The shell -/

/-- The open file of an inode, as the loader sees it. A count or a position that has no room in
`size_t` and `uint64_t` is the largest. -/
def tarFile (m : ByteMem) (i : TarInode) : Scheduler.FileDesc Unit where
  pread count pos _ :=
    let (res, buf) := Tar.tarRead m i (BitVec.ofNat 32 (min count (2 ^ 32 - 1)))
      (BitVec.ofNat 64 (min pos (2 ^ 64 - 1)))
    (.bytes (buf.take res.toNat), ())

/-- `main_task` up to the assertion that the shell was loaded: its entry, and the machine. -/
def loadShell (m : ByteMem) (E : Env TarInode) (fuel : Nat) (s : Fs.State TarInode)
    (machine : Memory.Machine) : Option (Option Nat × Memory.Machine) := do
  let (s, a, _) ← openPath E s (str "/initrd/shell.elf")
  let i ← s.inodes a
  let (e, entry, w) ← (loadElf (tarFile m i.data) fuel ⟨machine, (), []⟩).toOption
  if e = .ok () then some (entry, w.machine) else none

/-! ## What is shown -/

theorem write_shows {t : Tty} {T : Terminal} (h : Shows t T) (s : Str) :
    ∃ t', write s t = .ok t' ∧ Shows t' (s.foldl (fun T c => T.put c) T) := by
  induction s generalizing t T with
  | nil => exact ⟨t, rfl, h⟩
  | cons c s ih =>
    obtain ⟨t₁, hput, h₁, -⟩ := h.put c
    obtain ⟨t', hrest, h'⟩ := ih h₁
    refine ⟨t', ?_, h'⟩
    rw [write, List.foldlM_cons, hput]
    exact hrest

theorem readSplash_eq {m : ByteMem} {s : Fs.State TarInode} {obj d : Nat} {j : Inode TarInode}
    (hd : s.fileDescs d = some { rc := 1, ownerInode := obj, fPos := 0 })
    (hj : s.inodes obj = some j)
    (hlen : j.data.mContentsLength.toNat < 2 ^ 31) : ∃ e : Fs.FileDesc,
      e.ownerInode = obj ∧ e.rc = 1 ∧
      readSplash m s d = some ({ s with fileDescs := Function.update s.fileDescs d (some e) },
        (Tar.contents m j.data).take 4096) := by
  obtain ⟨n, q, hread, hn, -⟩ := FileDesc.read_eq (m := m) hlen
    (f := { rc := 1, ownerInode := obj, fPos := 0 }) (Nat.zero_le _) 4096
  have hcount : n.toNat = min 4096 (Tar.contents m j.data).length := by
    rw [hn, Tar.contents_length]
    rfl
  have hint : n.toInt = n.toNat := BitVec.toInt_eq_toNat_of_lt (by omega)
  have hbuf : (((Tar.contents m j.data).drop 0).take 4096).take n.toNat =
      (Tar.contents m j.data).take 4096 := by
    rw [List.drop_zero, hcount, ← List.length_take, List.take_length]
  refine ⟨{ rc := 1, ownerInode := obj, fPos := q }, rfl, rfl, ?_⟩
  simp only [readSplash, hd, hj, Option.bind_eq_bind, Option.bind_some]
  rw [hread]
  dsimp only
  rw [if_pos ⟨by omega, by omega⟩]
  exact congrArg (fun x => some (_, x)) hbuf

section Serving

variable {m : ByteMem} {a fuel : Nat} {files : List File} {slots : Nat → Slot TarInode} {k : Nat}
  {y : Client TarInode} (h : Serving m a fuel files slots (str "/initrd") (k + 12) y) {f : File}
include h

/-- The splash screen is the first 4096 bytes of its file, and what it took is given back. -/
theorem showSplash_shows (hf : Finds files (str "splash.txt") f) (hsize : f.content.length < 2 ^ 31)
    {t : Tty} {T : Terminal} (ht : Shows t T) :
    ∃ s' t', showSplash m (Tar.tarEnv m a fuel slots) y.state t = some (s', t') ∧
      GivesBack y.state s' ∧ Serving m a fuel files slots (str "/initrd") k ⟨s', y.held⟩ ∧
      Shows t' ((f.content.take 4096).foldl (fun T c => T.put c) T) := by
  have hpath : str "/initrd/splash.txt" = str "/initrd" ++ str "/splash.txt" := by decide
  have hname : joined (components (str "/splash.txt")) = str "splash.txt" := by decide
  have h0 : (0 : BitVec 8) ∉ str "/splash.txt" := by decide
  rw [← hname] at hf
  have hlen : (str "/splash.txt").length + 1 = 12 := by decide
  rw [← hlen] at h
  obtain ⟨s, obj, s', d, j, htraverse, hopen, hdesc, hj, hcontents, hlength, s₁, s₂, hclose,
    hrelease, hback, hserving⟩ := h.opened (Or.inr (by decide)) h0 (by decide) hf
  obtain ⟨e, howner, hrc, hread⟩ := readSplash_eq hdesc hj (by rwa [hlength])
  obtain ⟨t', hwrite, ht'⟩ := write_shows ht (f.content.take 4096)
  have hreleaseFile := hclose e howner hrc
  rw [hcontents] at hread
  refine ⟨s₂, t', ?_, hback, hserving, ht'⟩
  simp only [showSplash, openPath, hpath, htraverse, Except.toOption, hopen, hread,
    hwrite, hreleaseFile,
    hrelease, Option.bind_eq_bind, Option.bind_some]

end Serving

/-- A splash screen of two letters. -/
def splashFile : File where
  name := str "splash.txt"
  content := str "hi"
  length_le := by decide
  no_nul := by decide
  size_lt := by decide

/-- A shell with one segment. -/
def shellFile : File where
  name := str "shell.elf"
  content := twoBytes
  length_le := by decide
  no_nul := by decide
  size_lt := by decide

def initrd : List File := [splashFile, shellFile]

/-- The memory of new inodes is that of new blocks of kmem. -/
theorem serving_initrd {k : Nat} (hk : k < 0x3EBEBEBF) :
    ∃ y, Serving (memoryOf (image initrd)) 0 103 initrd Client.freshSlots (str "/initrd") k y := by
  have hboot : ∃ y, Client.boot (Tar.tarEnv (memoryOf (image initrd)) 0 103 Client.freshSlots)
      (str "/initrd") 0 = some y := ⟨_, rfl⟩
  obtain ⟨y, hboot⟩ := hboot
  have hlt : (image initrd).length < 2 ^ 32 := by
    rw [image_length]
    decide
  exact ⟨y, hasBytes_memoryOf _, hlt, Nat.le_refl _, countable_freshSlots hk,
    boot_room (countable_freshSlots hk 0).2 hboot, 0, y, [], hboot, rfl, by simp⟩

theorem showSplash_shows_two :
    ∃ (y y' : Client TarInode) (t t' : Tty),
    showSplash (memoryOf (image initrd))
      (Tar.tarEnv (memoryOf (image initrd)) 0 103 Client.freshSlots) y.state t =
      some (y'.state, t') ∧
    Serving (memoryOf (image initrd)) 0 103 initrd Client.freshSlots (str "/initrd") 11 y' ∧
    Shows t' ((str "hi").foldl (fun T c => T.put c) Terminal.initial) := by
  obtain ⟨y, h⟩ := serving_initrd (k := 23) (by decide)
  have ht := shows_initial ⟨0, 0, 0, fun _ => 0, fun _ => 0, 0, fun _ => 0⟩
  obtain ⟨t, -, ht⟩ := ht
  have hf : Finds initrd (str "splash.txt") splashFile := ⟨rfl, [], [shellFile], rfl, by simp⟩
  obtain ⟨s', t', hrun, -, hserving, hshows⟩ := showSplash_shows (k := 11) h hf (by decide) ht
  exact ⟨y, ⟨s', y.held⟩, t, t', hrun, hserving, hshows⟩

/-! ## What is loaded -/

/-- Reading an inode serves its contents. -/
theorem serves_tarFile {m : ByteMem} {i : TarInode} (hlen : i.mContentsLength.toNat < 2 ^ 31) :
    Serves (Tar.contents m i) (tarFile m i) := by
  intro count pos r hcount
  obtain ⟨n, hread, hn⟩ := Tar.tarRead_eq (m := m) hlen (BitVec.ofNat 32 (min count (2 ^ 32 - 1)))
    (BitVec.ofNat 64 (min pos (2 ^ 64 - 1)))
  rw [BitVec.toNat_ofNat, BitVec.toNat_ofNat, Nat.mod_eq_of_lt (by omega),
    Nat.mod_eq_of_lt (by omega)]
    at hread hn
  have hlength : (Tar.contents m i).length < 2 ^ 31 := by rwa [Tar.contents_length]
  rw [← Tar.contents_length (m := m)] at hn
  have hdrop : (Tar.contents m i).drop (min pos (2 ^ 64 - 1)) = (Tar.contents m i).drop pos := by
    by_cases hpos : pos ≤ 2 ^ 64 - 1
    · rw [Nat.min_eq_left hpos]
    · rw [List.drop_of_length_le (by omega), List.drop_of_length_le (by omega)]
  have hbuf : (((Tar.contents m i).drop pos).take (min count (2 ^ 32 - 1))).take n.toNat =
      ((Tar.contents m i).drop pos).take (min count (2 ^ 32 - 1)) := by
    apply List.take_of_length_le
    rw [List.length_take, List.length_drop]
    omega
  have hresult : ((tarFile m i).pread count pos r).1 =
      .bytes (((Tar.contents m i).drop pos).take (min count (2 ^ 32 - 1))) := by
    rw [tarFile]
    dsimp only
    rw [hread]
    dsimp only
    rw [hdrop, hbuf]
  constructor
  · intro hpos
    refine ⟨_, hresult, ?_, ?_, List.take_prefix _ _⟩
    · apply List.ne_nil_of_length_pos
      rw [List.length_take, List.length_drop]
      omega
    · rw [List.length_take]
      omega
  · intro hpos
    rw [hresult, List.drop_of_length_le hpos, List.take_nil]

/-- The entry is the one in the header. -/
theorem loadElf_entry {ρ : Type} {g : Scheduler.FileDesc ρ} {content : List (BitVec 8)}
    (hg : Serves content g)
    {fuel : Nat} {s : Memory.Machine} {r : ρ} {entry : Option Nat} {w : World ρ}
    (hload : loadElf g fuel ⟨s, r, []⟩ = .ok (.ok (), entry, w)) :
    entry = some (Ehdr.parse (chunk content 0 sizeofEhdr)).entry := by
  obtain ⟨r', hr⟩ := readHeader_eq hg 0 (show 0 < sizeofEhdr by decide) r
  rw [loadElf, hr] at hload
  split_ifs at hload with hlength
  · dsimp only at hload
    split at hload
    · cases hload
    · cases hload
      rfl
  · cases hload

section Shell

variable {m : ByteMem} {a fuel : Nat} {files : List File} {slots : Nat → Slot TarInode}
  {y : Client TarInode} (h : Serving m a fuel files slots (str "/initrd") 11 y) {f : File}
  (hf : Finds files (str "shell.elf") f) (hsize : f.content.length < 2 ^ 31)
include h hf hsize

/-- The shell that is loaded is its file. -/
theorem loadShell_eq : ∃ g : Scheduler.FileDesc Unit, Serves f.content g ∧ ∀ loops machine,
    loadShell m (Tar.tarEnv m a fuel slots) loops y.state machine =
      (loadElf g loops ⟨machine, (), []⟩).toOption.bind fun x =>
        if x.1 = .ok () then some (x.2.1, x.2.2.machine) else none := by
  have hpath : str "/initrd/shell.elf" = str "/initrd" ++ str "/shell.elf" := by decide
  have hname : joined (components (str "/shell.elf")) = str "shell.elf" := by decide
  have h0 : (0 : BitVec 8) ∉ str "/shell.elf" := by decide
  rw [← hname] at hf
  have hlen : 0 + ((str "/shell.elf").length + 1) = 11 := by decide
  rw [← hlen] at h
  obtain ⟨s, obj, s', d, j, htraverse, hopen, hdesc, hj, hcontents, hlength, -⟩ :=
    h.opened (Or.inr (by decide)) h0 (by decide) hf
  have hserves : Serves (Tar.contents m j.data) (tarFile m j.data) :=
    serves_tarFile (by rwa [hlength])
  rw [hcontents] at hserves
  refine ⟨_, hserves, fun loops machine => ?_⟩
  simp only [loadShell, openPath, hpath, htraverse, Except.toOption, hopen, hj, Option.bind_eq_bind,
    Option.bind_some]

variable {w : HmemSystem} (hw : w.Running) (hclear : ClearPlan f.content w.machine)
  (huser : UserPlan f.content w.machine)
include hw hclear huser

/-- The main task gets to its shell exactly when the file of the shell has a plan to its end and the
pages can be mapped. Then it enters the shell where the header says, and the segments are in the
task's pages. -/
theorem loadShell_spec :
    ((∃ loops x, loadShell m (Tar.tarEnv m a fuel slots) loops y.state w.machine = some x) ↔
      ∃ loops l s', elfPlan f.content loops = some (l, true) ∧ mapPages l w.machine = .ok s') ∧
    ∀ loops entry s', loadShell m (Tar.tarEnv m a fuel slots) loops y.state w.machine =
      some (entry, s') →
      entry = some (Ehdr.parse (chunk f.content 0 sizeofEhdr)).entry ∧
      ∀ p ∈ phdrs f.content, p.type = 1 → ∀ k < 4096 * p.loopCount,
        ∃ q, s'.translate (p.addrStart + k) = some q ∧ s'.mem q = p.byte f.content k := by
  obtain ⟨g, hserves, hshell⟩ := loadShell_eq h hf hsize
  have hsome (loops : Nat) (entry : Option Nat) (s' : Memory.Machine) :
      loadShell m (Tar.tarEnv m a fuel slots) loops y.state w.machine = some (entry, s') ↔
        ∃ w', loadElf g loops ⟨w.machine, (), []⟩ = .ok (.ok (), entry, w') ∧ w'.machine = s' := by
    rw [hshell]
    constructor
    · intro hx
      obtain ⟨⟨e, entry', w'⟩, hload, hx⟩ := Option.bind_eq_some_iff.1 hx
      split_ifs at hx with he
      cases hx
      dsimp only at he
      subst he
      exact ⟨w', eq_ok_of_toOption hload, rfl⟩
    · rintro ⟨w', hload, rfl⟩
      rw [hload, Except.toOption, Option.bind_some, if_pos rfl]
  constructor
  · constructor
    · rintro ⟨loops, ⟨entry, s'⟩, hx⟩
      obtain ⟨w', hload, -⟩ := (hsome loops entry s').1 hx
      obtain ⟨l, b, new, t, hplan, he, hmap, -⟩ := loadElf_loads hw hserves hclear huser hload
      cases b with
      | false => cases he
      | true => exact ⟨loops, l, t, hplan, hmap⟩
    · rintro ⟨loops, l, t, hplan, hmap⟩
      obtain ⟨entry, w', hload⟩ := loadElf_of_mapPages hw hserves (r := ()) hclear huser hplan hmap
      exact ⟨loops, (entry, w'.machine), (hsome loops entry _).2 ⟨w', hload, rfl⟩⟩
  · intro loops entry s' hx
    obtain ⟨w', hload, rfl⟩ := (hsome loops entry s').1 hx
    refine ⟨loadElf_entry hserves hload, fun p hp ht k hk => ?_⟩
    obtain ⟨q, hq, hbyte, -⟩ := loadElf_bytes hw hserves hclear huser hload hp ht hk
    exact ⟨q, hq, hbyte⟩

end Shell

theorem loadShell_spec_two : ∃ (m : ByteMem) (E : Env TarInode) (s : Fs.State TarInode)
    (machine s' : Memory.Machine) (entry : Option Nat) (q : Nat),
    (∃ loops, loadShell m E loops s machine = some (entry, s')) ∧ s'.translate 0x08048000 = some q ∧
      s'.mem q = 0x45 := by
  obtain ⟨y, h⟩ := serving_initrd (k := 11) (by decide)
  obtain ⟨w, hw⟩ := UserSystem.smallFresh_exists
  obtain ⟨hclear, huser, t, hmap, -⟩ := small_plan hw (by decide) (by decide)
  have hf : Finds initrd (str "shell.elf") shellFile := by
    refine ⟨rfl, [splashFile], [], rfl, fun x hx => ?_⟩
    rw [List.mem_singleton.1 hx]
    decide
  obtain ⟨hiff, hbytes⟩ := loadShell_spec h hf (by decide) hw.running hclear huser
  obtain ⟨loops, ⟨entry, s'⟩, hshell⟩ := hiff.2 ⟨2, _, t, twoBytes_plan 0, hmap⟩
  obtain ⟨-, hsegments⟩ := hbytes loops entry s' hshell
  have hp : twoBytesPhdr ∈ phdrs shellFile.content := by
    rw [shellFile, twoBytes_phdrs]
    exact List.mem_cons_self
  obtain ⟨q, hq, hbyte⟩ := hsegments twoBytesPhdr hp rfl 0 (by decide)
  exact ⟨_, _, y.state, w.machine, s', entry, q, ⟨loops, hshell⟩, hq, hbyte⟩

end TinyLittleOs.Kmain
