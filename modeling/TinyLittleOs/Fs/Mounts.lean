import TinyLittleOs.Fs.Vfs
import Mathlib.Data.List.MinMax

/-!
# Where a walk starts

The search of `traverse` through the mount points. Of the mounts that a path lies in, it takes the
one with the longest path, in whatever order they were made.
-/

namespace TinyLittleOs.Fs

open Lib Function State

variable {D : Type} {E : Env D}

/-- The calls of `mount`, one after the other. -/
def mountAll (E : Env D) (ms : List MountPoint) : Option (State D) :=
  ms.foldlM (fun s mnt => s.mount E mnt.mPath mnt.mFs) State.empty

/-- A path that starts with a slash, and ends with one only when it is `/`. -/
structure Canonical (p : Str) : Prop where
  head : p.head? = some slash
  last : p ≠ [slash] → p.getLast? ≠ some slash

/-- The path is the one of the mount, goes on behind it with a slash, or is below the mount `/`. -/
def Matches (p path : Str) : Prop :=
  p = path ∨ p ++ [slash] <+: path ∨ p = [slash] ∧ path.head? = some slash

instance (p path : Str) : Decidable (Matches p path) :=
  inferInstanceAs
    (Decidable (p = path ∨ p ++ [slash] <+: path ∨ p = [slash] ∧ path.head? = some slash))

theorem Canonical.ne_nil {p : Str} (h : Canonical p) : p ≠ [] := by
  rintro rfl
  cases h.head

theorem Canonical.eq_slash {p : Str} (h : Canonical p) (hlen : p.length = 1) : p = [slash] := by
  obtain ⟨c, rfl⟩ := List.length_eq_one_iff.1 hlen
  rw [Option.some.inj h.head]

theorem Matches.isPrefix {p path : Str} (h : Matches p path) : p <+: path := by
  rcases h with rfl | h | ⟨rfl, h⟩
  · exact List.prefix_rfl
  · exact (List.prefix_append p [slash]).trans h
  · cases path with
    | nil => cases h
    | cons c path => simp [Option.some.inj h]

/-! ## The search -/

/-- The two tests of the loop and the comparison accept the paths that match. -/
theorem Canonical.matches_iff {p : Str} (h : Canonical p) (path : Str) :
    Matches p path ↔ p <+: path ∧
      (p.length = 1 ∨ path.length = p.length ∨ path[p.length]? = some slash) := by
  constructor
  · intro hm
    refine ⟨hm.isPrefix, ?_⟩
    rcases hm with rfl | ⟨t, rfl⟩ | ⟨rfl, -⟩
    · exact .inr (.inl rfl)
    · exact .inr (.inr (by simp))
    · exact .inl rfl
  · rintro ⟨⟨t, rfl⟩, hlen | hlen | hslash⟩
    · refine .inr (.inr ⟨h.eq_slash hlen, ?_⟩)
      rw [List.head?_append_of_ne_nil _ h.ne_nil, h.head]
    · have ht : t = [] := by
        rw [List.length_append] at hlen
        exact List.eq_nil_of_length_eq_zero (by omega)
      exact .inl (by rw [ht, List.append_nil])
    · rw [List.getElem?_append_right (Nat.le_refl _), Nat.sub_self] at hslash
      cases t with
      | nil => cases hslash
      | cons c t =>
        obtain rfl := Option.some.inj hslash
        exact .inr (.inl ⟨t, by simp⟩)

theorem bestMountStep_eq {path : Str} {mnt : MountPoint} (h : Canonical mnt.mPath)
    (best : Option MountPoint) : bestMountStep path best mnt =
      if Matches mnt.mPath path then
        List.argAux (fun b c : MountPoint => c.mPath.length < b.mPath.length) best mnt
      else best := by
  have hpos := List.length_pos_iff.2 h.ne_nil
  rw [bestMountStep]
  by_cases hm : Matches mnt.mPath path
  · obtain ⟨hpre, hslash⟩ := (h.matches_iff path).1 hm
    have hle := hpre.length_le
    rw [if_pos hm, if_neg (not_not_intro hslash), if_pos (List.isPrefixOf_iff_prefix.2 hpre)]
    cases best with
    | none =>
      rw [if_neg]
      · rfl
      · simp only [Option.map_none, Option.getD_none]
        omega
    | some b =>
      simp only [List.argAux, Option.map_some, Option.getD_some]
      by_cases hlt : b.mPath.length < mnt.mPath.length
      · rw [if_neg (by omega), if_pos hlt]
      · rw [if_pos (by omega), if_neg hlt]
  · rw [if_neg hm]
    rw [h.matches_iff path, not_and_or] at hm
    split_ifs with _ hslash hpre
    · rfl
    · exact absurd (List.isPrefixOf_iff_prefix.1 hpre) (hm.resolve_right (not_not_intro hslash))
    · rfl
    · rfl

/-- The search takes the longest of the mounts that match. -/
theorem bestMount_eq_argmax {ms : List MountPoint} (h : ∀ mnt ∈ ms, Canonical mnt.mPath)
    (path : Str) :
    bestMount ms path =
      (ms.filter fun mnt => Matches mnt.mPath path).argmax fun mnt => mnt.mPath.length := by
  rw [List.argmax, List.foldl_filter, bestMount]
  apply List.foldl_ext
  intro best mnt hmnt
  rw [bestMountStep_eq (h mnt hmnt)]
  by_cases hm : Matches mnt.mPath path
  · rw [if_pos hm, if_pos (decide_eq_true hm)]
  · rw [if_neg hm, if_neg (by simpa using hm)]

/-- Two mounts of one path that are as long as each other have the same path. -/
theorem Matches.eq_of_length {p q path : Str} (hp : Matches p path) (hq : Matches q path)
    (h : p.length = q.length) : p = q :=
  (List.prefix_of_prefix_length_le hp.isPrefix hq.isPrefix (Nat.le_of_eq h)).eq_of_length h

/-! ## The mounts -/

/-- The mount points of `ms`, in some order, each with its root. -/
structure Mounted (s : State D) (ms : List MountPoint) : Prop where
  perm : s.mounts.Perm ms
  rooted : ∀ mnt ∈ ms, ∃ root, s.table mnt.mFs rootInode = some root

theorem mount_isSome_iff (s : State D) {p : Str} (hp : Canonical p) (fs : Nat) :
    (∃ s', s.mount E p fs = some s') ↔ p.length < pathNameMax := by
  simp only [State.mount, allocInodeStruct, takeParentStruct, Option.bind_eq_bind, Option.bind_some]
  have hshape : p.length = 1 ∨ p.getLast? ≠ some slash := by
    by_cases hroot : p = [slash]
    · exact .inl (by rw [hroot]; rfl)
    · exact .inr (hp.last hroot)
  split_ifs with h
  · exact iff_of_true ⟨_, rfl⟩ h.1
  · refine iff_of_false (by simp) fun hlen => h ⟨hlen, hp.ne_nil, hshape⟩

theorem Mounted.mount {s s' : State D} {ms : List MountPoint} (h : Mounted s ms) {mnt : MountPoint}
    (hrun : s.mount E mnt.mPath mnt.mFs = some s') : Mounted s' (mnt :: ms) := by
  simp only [State.mount, allocInodeStruct, takeParentStruct, Option.bind_eq_bind,
    Option.bind_some] at hrun
  split_ifs at hrun
  obtain rfl := Option.some.inj hrun
  constructor
  · refine .trans ?_ (h.perm.cons mnt)
    dsimp only
    cases s.mounts with
    | nil => exact .refl _
    | cons first rest => exact .swap ..
  · intro other hother
    by_cases hfs : other.mFs = mnt.mFs
    · exact ⟨s.nextInode, by simp [hfs]⟩
    · rcases List.mem_cons.1 hother with rfl | hother
      · exact absurd rfl hfs
      · obtain ⟨root, hroot⟩ := h.rooted other hother
        exact ⟨root, by simpa [update_of_ne hfs] using hroot⟩

theorem Mounted.mountAll {ms ms' : List MountPoint} {s s' : State D} (h : Mounted s ms')
    (hrun : ms.foldlM (fun s mnt => s.mount E mnt.mPath mnt.mFs) s = some s') :
    ∃ l, l.Perm (ms ++ ms') ∧ Mounted s' l := by
  induction ms generalizing s ms' with
  | nil =>
    obtain rfl := Option.some.inj hrun
    exact ⟨ms', .refl _, h⟩
  | cons mnt ms ih =>
    rw [List.foldlM_cons, Option.bind_eq_bind, Option.bind_eq_some_iff] at hrun
    obtain ⟨s₁, hmount, hrun⟩ := hrun
    obtain ⟨l, hperm, hl⟩ := ih (h.mount hmount) hrun
    exact ⟨l, hperm.trans List.perm_middle, hl⟩

theorem mounted_mountAll {ms : List MountPoint} {s : State D} (hrun : mountAll E ms = some s) :
    Mounted s ms := by
  have hempty : Mounted (State.empty : State D) [] := ⟨.refl _, by simp⟩
  obtain ⟨l, hperm, hl⟩ := hempty.mountAll hrun
  rw [List.append_nil] at hperm
  exact ⟨hl.perm.trans hperm, fun mnt hmnt => hl.rooted mnt (hperm.mem_iff.2 hmnt)⟩

theorem mountAll_isSome_iff {ms : List MountPoint} (h : ∀ mnt ∈ ms, Canonical mnt.mPath) :
    (∃ s, mountAll E ms = some s) ↔ ∀ mnt ∈ ms, mnt.mPath.length < pathNameMax := by
  rw [mountAll]
  generalize (State.empty : State D) = s
  induction ms generalizing s with
  | nil => exact iff_of_true ⟨s, rfl⟩ (by simp)
  | cons mnt ms ih =>
    have hfirst := mount_isSome_iff (E := E) s (h mnt List.mem_cons_self) mnt.mFs
    rw [List.foldlM_cons, List.forall_mem_cons, ← hfirst]
    have hrest := ih fun x hx => h x (List.mem_cons_of_mem mnt hx)
    constructor
    · rintro ⟨s', hs'⟩
      obtain ⟨s₁, hmount, hrun⟩ := Option.bind_eq_some_iff.1 hs'
      exact ⟨⟨s₁, hmount⟩, (hrest s₁).1 ⟨s', hrun⟩⟩
    · rintro ⟨⟨s₁, hmount⟩, hlens⟩
      obtain ⟨s', hs'⟩ := (hrest s₁).2 hlens
      exact ⟨s', Option.bind_eq_some_iff.2 ⟨s₁, hmount, hs'⟩⟩

theorem exists_longest (ms : List MountPoint) (path : Str) :
    (∀ mnt ∈ ms, ¬ Matches mnt.mPath path) ∨ ∃ mnt ∈ ms, Matches mnt.mPath path ∧
      ∀ other ∈ ms, Matches other.mPath path → other.mPath.length ≤ mnt.mPath.length := by
  cases hbest : (ms.filter fun x => Matches x.mPath path).argmax fun x => x.mPath.length with
  | none =>
    left
    intro mnt hmnt
    simpa using List.filter_eq_nil_iff.1 (List.argmax_eq_none.1 hbest) mnt hmnt
  | some best =>
    right
    obtain ⟨hmem, hm⟩ := List.mem_filter.1 (List.argmax_mem hbest)
    refine ⟨best, hmem, of_decide_eq_true hm, fun other hother hmatch => ?_⟩
    have hfilter : other ∈ ms.filter fun x => Matches x.mPath path :=
      List.mem_filter.2 ⟨hother, decide_eq_true hmatch⟩
    have hle := List.le_of_mem_argmax hfilter hbest
    exact hle

section Longest

variable {ms : List MountPoint} (hcanon : ∀ mnt ∈ ms, Canonical mnt.mPath)
  (hdistinct : (ms.map (·.mPath)).Nodup)
include hcanon

theorem Mounted.bestMount_none {s : State D} (h : Mounted s ms) {path : Str}
    (hnone : ∀ mnt ∈ ms, ¬ Matches mnt.mPath path) : bestMount s.mounts path = none := by
  rw [bestMount_eq_argmax fun mnt hmnt => hcanon mnt (h.perm.mem_iff.1 hmnt),
    List.argmax_eq_none, List.filter_eq_nil_iff]
  intro mnt hmnt
  simpa using hnone mnt (h.perm.mem_iff.1 hmnt)

include hdistinct

/-- The longest mount is found, whatever the order. -/
theorem Mounted.bestMount_some {s : State D} (h : Mounted s ms) {path : Str} {mnt : MountPoint}
    (hmem : mnt ∈ ms) (hm : Matches mnt.mPath path)
    (hlongest : ∀ other ∈ ms, Matches other.mPath path → other.mPath.length ≤ mnt.mPath.length) :
    bestMount s.mounts path = some mnt := by
  rw [bestMount_eq_argmax fun x hx => hcanon x (h.perm.mem_iff.1 hx)]
  have hfilter : mnt ∈ s.mounts.filter fun x => Matches x.mPath path :=
    List.mem_filter.2 ⟨h.perm.mem_iff.2 hmem, decide_eq_true hm⟩
  cases hbest : (s.mounts.filter fun x => Matches x.mPath path).argmax fun x => x.mPath.length with
  | none =>
    rw [List.argmax_eq_none.1 hbest] at hfilter
    cases hfilter
  | some best =>
    obtain ⟨hbestMem, hbestMatches⟩ := List.mem_filter.1 (List.argmax_mem hbest)
    have hle := List.le_of_mem_argmax hfilter hbest
    have hge := hlongest best (h.perm.mem_iff.1 hbestMem) (of_decide_eq_true hbestMatches)
    have hpath := hm.eq_of_length (of_decide_eq_true hbestMatches) (Nat.le_antisymm hle hge)
    rw [List.inj_on_of_nodup_map hdistinct (h.perm.mem_iff.1 hbestMem) hmem hpath.symm]

end Longest

/-- The walk starts at the longest mount that the path lies in, whatever the order of the mounts. -/
theorem traverse_longest (E : Env D) (ms : List MountPoint)
    (hcanon : ∀ mnt ∈ ms, Canonical mnt.mPath)
    (hdistinct : (ms.map (·.mPath)).Nodup) :
    ((∃ s, mountAll E ms = some s) ↔ ∀ mnt ∈ ms, mnt.mPath.length < pathNameMax) ∧
    ∀ s, mountAll E ms = some s → ∀ path, path ≠ [] →
      ((∀ mnt ∈ ms, ¬ Matches mnt.mPath path) → s.traverse E path = some (s, .error .noEntry)) ∧
      (∀ mnt ∈ ms, Matches mnt.mPath path →
        (∀ other ∈ ms, Matches other.mPath path → other.mPath.length ≤ mnt.mPath.length) →
        ∃ root, s.table mnt.mFs rootInode = some root ∧ s.traverse E path =
          walk E mnt.mFs (path.length + 1) s (path.drop mnt.mPath.length) root) ∧
      ∀ ms' s', ms'.Perm ms → mountAll E ms' = some s' →
        bestMount s'.mounts path = bestMount s.mounts path := by
  refine ⟨mountAll_isSome_iff hcanon, fun s hs path hpath => ⟨fun hnone => ?_,
    fun mnt hmem hm hlongest => ?_, fun ms' s' hperm hs' => ?_⟩⟩
  · have hbest := (mounted_mountAll hs).bestMount_none hcanon hnone
    rw [State.traverse, if_neg hpath, hbest]
    split_ifs <;> rfl
  · have hmounted := mounted_mountAll hs
    have hbest := hmounted.bestMount_some hcanon hdistinct hmem hm hlongest
    obtain ⟨root, hroot⟩ := hmounted.rooted mnt hmem
    have hne : s.mounts ≠ [] := by
      intro hnil
      rw [hnil] at hbest
      cases hbest
    refine ⟨root, hroot, ?_⟩
    rw [State.traverse, if_neg hpath, if_neg hne, hbest]
    simp only [hroot, Option.bind_eq_bind, Option.bind_some]
  · have hmounted := mounted_mountAll hs
    have hmounted' : Mounted s' ms := by
      have h := mounted_mountAll hs'
      exact ⟨h.perm.trans hperm, fun mnt hmnt => h.rooted mnt (hperm.mem_iff.2 hmnt)⟩
    rcases exists_longest ms path with hnone | ⟨mnt, hmem, hm, hlongest⟩
    · rw [hmounted.bestMount_none hcanon hnone, hmounted'.bestMount_none hcanon hnone]
    · rw [hmounted.bestMount_some hcanon hdistinct hmem hm hlongest,
        hmounted'.bestMount_some hcanon hdistinct hmem hm hlongest]

/-- File systems without files. -/
def noFiles : Env Unit where
  vfs _ := ⟨id, fun _ _ => some (), fun _ _ _ => some (.error .noEntry)⟩
  slots _ := ⟨1, ()⟩

/-- Of the mounts at `/`, `/a` and `/ab`, the path `/a/b` starts at the second. -/
theorem traverse_longest_three : ∃ s root,
    mountAll noFiles [⟨[0x2F], 0⟩, ⟨[0x2F, 0x61], 1⟩, ⟨[0x2F, 0x61, 0x62], 2⟩] = some s ∧
      s.traverse noFiles [0x2F, 0x61, 0x2F, 0x62] = walk noFiles 1 5 s [0x2F, 0x62] root := by
  have hcanon : ∀ mnt ∈ [(⟨[0x2F], 0⟩ : MountPoint), ⟨[0x2F, 0x61], 1⟩, ⟨[0x2F, 0x61, 0x62], 2⟩],
      Canonical mnt.mPath := by
    simp only [List.forall_mem_cons]
    exact ⟨⟨by decide, by decide⟩, ⟨by decide, by decide⟩, ⟨by decide, by decide⟩, by simp⟩
  obtain ⟨hmounts, hwalk⟩ := traverse_longest noFiles
    [⟨[0x2F], 0⟩, ⟨[0x2F, 0x61], 1⟩, ⟨[0x2F, 0x61, 0x62], 2⟩] hcanon (by decide)
  obtain ⟨s, hs⟩ := hmounts.2 (by decide)
  obtain ⟨root, -, hroot⟩ := (hwalk s hs [0x2F, 0x61, 0x2F, 0x62] (by decide)).2.1
    ⟨[0x2F, 0x61], 1⟩ (by simp) (by decide) (by decide)
  exact ⟨s, root, hs, hroot⟩

end TinyLittleOs.Fs
