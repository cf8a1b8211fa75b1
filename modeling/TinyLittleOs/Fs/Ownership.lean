import TinyLittleOs.Fs.Walk

/-!
# Who owns the result of `traverse`

The caller owns a reference when the path has a component beyond the mount point, and no count
overflows on the way. An inode whose count has overflowed is stuck: nothing takes or releases it any
more, so that a later release of the result stops the kernel.
-/

namespace TinyLittleOs.Fs

open Lib Function Forest Relation

variable {D : Type} {E : Env D}

namespace State

/-- The inode can get another reference. -/
def HasRoom (s : State D) (a : Nat) : Prop := ∀ i, s.inodes a = some i → i.iRc.toNat + 1 < 2 ^ 31

theorem not_hasRoom {s : State D} {a : Nat} :
    ¬ s.HasRoom a ↔ ∃ i, s.inodes a = some i ∧ 2 ^ 31 ≤ i.iRc.toNat + 1 := by
  simp [HasRoom]

/-- No count overflows on the way from `root` to `obj` along `p`: neither that of `obj`, nor that of
`root` where the first component needs a new inode. -/
structure Fits (E : Env D) (s : State D) (fs : Nat) (p : Str) (root obj : Nat) : Prop where
  result : s.HasRoom obj
  root : ∀ n, s.Finds E (p.dropWhile (· = slash)) root n → s.table fs n = none → s.HasRoom root

/-- The count of the inode has overflowed. -/
def Stuck (s : State D) (a : Nat) (i : Inode D) : Prop := s.inodes a = some i ∧ i.iRc.toInt ≤ 0

variable {s₀ s s' : State D} {fs curr a b n : Nat} {i : Inode D} {path p : Str}

/-- The count of an inode without room overflows. -/
theorem succ_overflows {x : BitVec 32} (h : 0 < x.toInt) (hfull : 2 ^ 31 ≤ x.toNat + 1) :
    (x + 1).toInt ≤ 0 := by
  rw [toInt_pos] at h
  have hsucc := toNat_succ (x := x) (by omega)
  by_contra hpos
  have := (toInt_pos (x := x + 1)).1 (by omega)
  omega

/-! ## Stuck inodes -/

theorem Got.stuck {m : BitVec 32} {q : Inode D} (hg : Got E s fs m curr q s' a) (h : Wf E s)
    (hq : s.inodes curr = some q) (hb : s.Stuck b i) : s'.Stuck b i := by
  have htake : ∀ (c : Nat) (j : Inode D), s.inodes c = some j → 0 < j.iRc.toInt →
      take s.inodes c j b = some i := by
    intro c j hj hpos
    have hne : b ≠ c := by
      rintro rfl
      obtain rfl := Option.some.inj (hb.1.symm.trans hj)
      exact absurd hb.2 (by omega)
    exact (update_of_ne hne ..).trans hb.1
  refine ⟨?_, hb.2⟩
  cases hg with
  | cached ht hi hfs hnum hpos => exact htake _ _ hi hpos
  | made ht hpos hd =>
    have hne : b ≠ s.nextInode := by
      rintro rfl
      have := h.bound _ (Nat.le_refl s.nextInode)
      simp [hb.1] at this
    exact (update_of_ne hne ..).trans (htake _ _ hq hpos)

/-- A new inode takes a reference to its parent. -/
theorem Got.parent {m : BitVec 32} {q : Inode D} (hg : Got E s fs m curr q s' a) (h : Wf E s)
    (hq : s.inodes curr = some q) (hnone : s.table fs m = none) :
    0 < q.iRc.toInt ∧ s'.inodes curr = some (Counted.setRc (q.iRc + 1) q) := by
  cases hg with
  | cached ht =>
    rw [hnone] at ht
    cases ht
  | @made d _ _ hpos =>
    have hne : curr ≠ s.nextInode := by
      rintro rfl
      have := h.bound _ (Nat.le_refl s.nextInode)
      simp [hq] at this
    have hother : update (take s.inodes curr q) s.nextInode (some (newInode E s fs m curr d)) curr =
        take s.inodes curr q curr := update_of_ne hne ..
    exact ⟨hpos, hother.trans (update_self ..)⟩

/-- A release that ends does not reach it. -/
theorem Stuck.frame {f : Forest (Inode D)} {x : Option Nat} {t : Nat → BitVec 32 → Option Nat}
    (hb : s.Stuck b i) (hr : Released s.inodes x f) :
    ({ s with inodes := f, table := t } : State D).Stuck b i := by
  have hkeep := (hr.frame (a := b) (fun j hj => ?_) none).1
  · exact ⟨hkeep.trans hb.1, hb.2⟩
  · obtain rfl := Option.some.inj (hb.1.symm.trans hj)
    exact hb.2

theorem Walking.round_stuck {k : Inode D} (h : Walking E s₀ s fs curr k) (hone : OneRef E)
    (hr : Round E fs (s, path, curr) (s', p, a)) (hb : s.Stuck b i) : s'.Stuck b i := by
  cases hr with
  | skip => exact hb
  | next hfinds hget hdrop =>
    have hg := h.wf.of_getInodeStruct h.inode hget
    obtain ⟨c, hc⟩ := hg.stays h.wf h.inode h.inode
    obtain ⟨f, t, hr, rfl, -⟩ := (hg.wf h.wf hone.nonZero h.inode).of_releaseUnlessRoot hc hdrop
    exact (hg.stuck h.wf h.inode hb).frame hr

theorem Walking.rounds_stuck {k : Inode D} (h : Walking E s₀ s fs curr k) (hone : OneRef E)
    (hroot : NoRoot E) (hr : ReflTransGen (Round E fs) (s, path, curr) (s', p, a))
    (hb : s.Stuck b i) : s'.Stuck b i := by
  generalize hy : (s', p, a) = y at hr
  induction hr generalizing s' p a with
  | refl =>
    cases hy
    exact hb
  | @tail x y hbefore hround ih =>
    obtain ⟨s₁, p₁, a₁⟩ := x
    subst hy
    obtain ⟨j, hj, -⟩ := h.rounds hone hroot hbefore
    exact hj.round_stuck hone hround (ih rfl)

/-! ## The first component -/

/-- The rounds skip slashes, and start with the first component. -/
theorem first_round (hr : ReflTransGen (Round E fs) (s, path, curr) (s', p, a))
    (hnamed : Named path) (hp : ¬ Named p) :
    ∃ m b s₁ s₂, s.Finds E (path.dropWhile (· = slash)) curr m ∧
      s.getInodeStruct E fs m curr = some (s₁, b) ∧ s₁.releaseUnlessRoot curr = some s₂ ∧
      ∃ q, ReflTransGen (Round E fs) (s₂, q, b) (s', p, a) := by
  generalize hx : (s, path, curr) = x at hr
  induction hr using ReflTransGen.head_induction_on generalizing s path curr with
  | refl =>
    cases hx
    exact absurd hnamed hp
  | @head x y hround hrest ih =>
    subst hx
    cases hround with
    | @skip _ rest =>
      have hrest' : Named rest := by simpa [Named] using hnamed
      obtain ⟨m, b, s₁, s₂, hfinds, hrun⟩ := ih hrest' rfl
      exact ⟨m, b, s₁, s₂, by simpa using hfinds, hrun⟩
    | @next _ s₁ s₂ _ _ b m hfinds hget hdrop =>
      obtain ⟨c, q, i, rfl, hc, hi, hlook⟩ := id hfinds
      have hself : (c :: q).dropWhile (· = slash) = c :: q :=
        List.dropWhile_cons_of_neg (by simpa using hc)
      exact ⟨m, b, s₁, s₂, by rwa [hself], hget, hdrop, _, hrest⟩

theorem Finds.unique {m m' : BitVec 32} (h : s.Finds E path curr m) (h' : s.Finds E path curr m') :
    m = m' := by
  obtain ⟨c, q, i, -, -, hi, hlook⟩ := h
  obtain ⟨c', q', i', -, -, hi', hlook'⟩ := h'
  obtain rfl := Option.some.inj (hi.symm.trans hi')
  rw [hlook] at hlook'
  cases hlook'
  rfl

/-! ## Whether the reference of the walk can be released -/

/-- A walk whose reference can be released has not met a full count. -/
theorem Walking.fits {root : Nat} {r : Inode D} (h : Walking E s s fs root r)
    (hone : OneRef E) (hroot : NoRoot E)
    (hrounds : ReflTransGen (Round E fs) (s, p, root) (s', [], a)) (hnamed : Named p)
    (hj : Released s'.inodes (some a) s.inodes) : Fits E s fs p root a where
  result i hi := by
    obtain ⟨d, hd, hpos, hpred⟩ := hj.pred hi
    replace hpred : i.iRc = Counted.rc d - 1 := hpred
    rw [toInt_pos] at hpos
    have := toNat_pred hpos.1
    rw [hpred]
    omega
  root m hfinds hnone := by
    by_contra hfull
    obtain ⟨q, hq, hle⟩ := not_hasRoom.1 hfull
    obtain rfl := Option.some.inj (h.inode.symm.trans hq)
    obtain ⟨m', b, s₁, s₂, hfinds', hget, hdrop, rest, hrest⟩ :=
      first_round hrounds hnamed (by simp [Named])
    obtain rfl := hfinds.unique hfinds'
    have hm : m ≠ rootInode := by
      obtain ⟨c, p', i, -, -, -, hlook⟩ := hfinds
      exact fun he => hroot _ _ _ _ (by rw [hlook, he])
    obtain ⟨k, hk, -⟩ := h.next hone hm hget hdrop
    -- the count of the root has overflowed behind the first round
    have hg := h.wf.of_getInodeStruct h.inode hget
    obtain ⟨hpos, hself⟩ := hg.parent h.wf h.inode hnone
    have hover : s₁.Stuck root (Counted.setRc (r.iRc + 1) r) :=
      ⟨hself, succ_overflows hpos hle⟩
    obtain ⟨f, t, hf, rfl, -⟩ := (hg.wf h.wf hone.nonZero h.inode).of_releaseUnlessRoot hself hdrop
    obtain ⟨hlast, hneg⟩ := hk.rounds_stuck hone hroot hrest (hover.frame hf)
    obtain ⟨hback, -⟩ := hj.frame (a := root) (fun d hd => by
      obtain rfl := Option.some.inj (hlast.symm.trans hd)
      exact hneg) none
    rw [hlast, h.inode, Option.some.injEq] at hback
    rw [← hback] at hneg
    exact absurd hpos (by omega)

/-- The walk, from `root` along `p₀`, has its reference or has taken a full count. -/
structure Going (E : Env D) (s₀ : State D) (fs : Nat) (p₀ : Str) (root : Nat)
    (y : State D × Str × Nat) (i : Inode D) : Prop where
  walking : Walking E s₀ y.1 fs y.2.2 i
  start : i.iNum = rootInode → y.1 = s₀ ∧ y.2.2 = root ∧
    y.2.1.dropWhile (· = slash) = p₀.dropWhile (· = slash)
  owned : Walking.Owned s₀ y.1 y.2.2 i ∨
    i.iNum ≠ rootInode ∧ ¬ s₀.HasRoom y.2.2 ∧ y.1.Stuck y.2.2 i

theorem Going.next {p₀ : Str} {root : Nat} {s₁ s₂ : State D} {m : BitVec 32}
    (h : Going E s₀ fs p₀ root (s, path, curr) i) (hone : OneRef E) (hroot : NoRoot E)
    (hfit : ∀ n, s₀.Finds E (p₀.dropWhile (· = slash)) root n → s₀.table fs n = none →
      s₀.HasRoom root)
    (hfinds : s.Finds E path curr m) (hget : s.getInodeStruct E fs m curr = some (s₁, a))
    (hdrop : s₁.releaseUnlessRoot curr = some s₂) :
    ∃ j, Going E s₀ fs p₀ root (s₂, path.drop (untilSlash path), a) j := by
  obtain ⟨hw, hstart, hown⟩ := h
  dsimp only at hw hstart hown
  have hm : m ≠ rootInode := by
    obtain ⟨c, p', k, -, -, -, hlook⟩ := hfinds
    exact fun he => hroot _ _ _ _ (by rw [hlook, he])
  obtain ⟨j, hj, hnum⟩ := hw.next hone hm hget hdrop
  refine ⟨j, hj, fun he => absurd (hnum.symm.trans he) hm, ?_⟩
  have hg := hw.wf.of_getInodeStruct hw.inode hget
  have hwf := hg.wf hw.wf hone.nonZero hw.inode
  obtain ⟨k, hk⟩ := hg.stays hw.wf hw.inode hw.inode
  obtain ⟨f, t, hr, rfl, -⟩ := hwf.of_releaseUnlessRoot hk hdrop
  rw [walkRef_setRc] at hr
  have hroot_of_stuck : ∀ q, s₁.Stuck curr q → i.iNum = rootInode := by
    intro q hq
    by_contra hne
    rw [walkRef_of_ne hne] at hr
    obtain ⟨b, hb, hpos⟩ := hr.live
    obtain rfl := Option.some.inj (hq.1.symm.trans hb)
    exact absurd hpos (by have := hq.2; show ¬ 0 < q.iRc.toInt; omega)
  have hnext : Released s₁.inodes (some a) s.inodes → Walking.Owned s₀ s curr i →
      Walking.Owned s₀ { s₁ with inodes := f, table := t } a j := by
    intro hback hown
    obtain ⟨g, hg', hg''⟩ := hback.comm hown
    obtain rfl := hg'.det hr
    rwa [Walking.Owned, walkRef_of_ne (hnum ▸ hm)]
  rcases hown with hown | ⟨hnotroot, -, hstuck⟩
  · cases hg with
    | @cached _ q ht hq hfs hqnum hpos =>
      by_cases hlt : q.iRc.toNat + 1 < 2 ^ 31
      · exact .inl (hnext (take_released hq (hw.wf.sound a q hq).count hlt) hown)
      · -- the release of the inode before does not look at the count
        have hneg := succ_overflows hpos (by omega)
        obtain ⟨hold, hlast⟩ := hr.of_full hq hneg hown
        have hj' : f a = some j := hj.inode
        rw [hlast, Option.some.injEq] at hj'
        refine .inr ⟨hnum ▸ hm, not_hasRoom.2 ⟨q, hold, by omega⟩, ?_⟩
        rw [← hj']
        exact ⟨hlast, hneg⟩
    | made ht hpos hd =>
      by_cases hlt : i.iRc.toNat + 1 < 2 ^ 31
      · exact .inl (hnext (new_released (hw.wf.bound _ (Nat.le_refl _)) hw.inode
          (hw.wf.sound curr i hw.inode).count hlt (hone _) rfl) hown)
      · obtain ⟨hpos, hself⟩ := Got.parent (.made ht hpos hd) hw.wf hw.inode ht
        have hnum := hroot_of_stuck _ ⟨hself, succ_overflows hpos (by omega)⟩
        obtain ⟨rfl, rfl, hpath⟩ := hstart hnum
        have hself : path.dropWhile (· = slash) = path := by
          obtain ⟨c, q, -, rfl, hc, -⟩ := hfinds
          exact List.dropWhile_cons_of_neg (by simpa using hc)
        rw [hself] at hpath
        exact absurd (hfit m (hpath ▸ hfinds) ht i hw.inode) hlt
  · exact absurd (hroot_of_stuck i (hg.stuck hw.wf hw.inode hstuck)) hnotroot

theorem Going.rounds {p₀ : Str} {root : Nat} (h : Going E s₀ fs p₀ root (s₀, p₀, root) i)
    (hone : OneRef E) (hroot : NoRoot E)
    (hfit : ∀ n, s₀.Finds E (p₀.dropWhile (· = slash)) root n → s₀.table fs n = none →
      s₀.HasRoom root)
    (hr : ReflTransGen (Round E fs) (s₀, p₀, root) (s', p, a)) :
    ∃ j, Going E s₀ fs p₀ root (s', p, a) j := by
  generalize hy : (s', p, a) = y at hr
  induction hr generalizing s' p a with
  | refl =>
    cases hy
    exact ⟨i, h⟩
  | @tail x y _ hround ih =>
    obtain ⟨s₁, p₁, a₁⟩ := x
    subst hy
    obtain ⟨j, hj⟩ := ih rfl
    cases hround with
    | skip =>
      refine ⟨j, hj.walking, fun he => ?_, hj.owned⟩
      simpa using hj.start he
    | next hfinds hget hdrop => exact hj.next hone hroot hfit hfinds hget hdrop

end State

namespace Client

open State

/-- A release of the result of `traverse` leads from `s'` back to `s`, and the root stays. -/
def OwnsReference (s s' : State D) (fs obj : Nat) : Prop :=
  ∃ s'' root, s'.release obj = some s'' ∧ Same s s'' ∧ s''.table fs rootInode = some root

/-- The caller of `traverse` owns a reference to the result exactly when the path has a component
beyond the mount point, and no count overflows on the way. -/
theorem traverse_ownsReference_iff (hone : OneRef E) (hroot : NoRoot E) {y : Client D}
    (hy : Reachable E y) {path : Str} {s' : State D} {obj : Nat}
    (hrun : y.state.traverse E path = some (s', .ok obj)) :
    ∃ mnt root, bestMount y.state.mounts path = some mnt ∧
      y.state.table mnt.mFs rootInode = some root ∧
      (OwnsReference y.state s' mnt.mFs obj ↔ Named (path.drop mnt.mPath.length) ∧
        Fits E y.state mnt.mFs (path.drop mnt.mPath.length) root obj) := by
  have h := hy.wf hone hroot
  rcases traverse_rounds hrun with ⟨-, e, he⟩ | ⟨fs, p, root, s₁, p₁, a, hstart, hrounds, hend⟩
  · cases he
  obtain ⟨mnt, hbest, rfl, rfl, htable⟩ := hstart
  rcases hend with ⟨hobj, rfl, rfl⟩ | ⟨⟨e, he⟩, -⟩
  swap
  · cases he
  cases hobj
  obtain ⟨r, hr, hwalk⟩ := h.walking htable
  obtain ⟨i, hi, hiff⟩ := hwalk.rounds hone hroot hrounds
  refine ⟨mnt, root, hbest, htable, ?_, ?_⟩
  · rintro ⟨s'', root', hrelease, hsame, -⟩
    obtain ⟨f', t, hreleased, rfl, -⟩ := hi.wf.of_release hrelease
    have hback : f' = y.state.inodes := congrArg State.inodes hsame
    subst hback
    have hnamed : Named (path.drop mnt.mPath.length) := by
      by_contra hnot
      -- the walk took no reference to the root
      have hnum := (hiff.2 ⟨hr, hnot⟩).1
      have hself := hi.undo s'.inodes
      rw [walkRef_root hnum] at hself
      exact hreleased.ne (hself (.none _)).symm
    exact ⟨hnamed, hwalk.fits hone hroot hrounds hnamed hreleased⟩
  · rintro ⟨hnamed, hfits⟩
    have hnum : i.iNum ≠ rootInode := by
      intro he
      have hnil : ¬ Named [] := by simp [Named]
      exact (hiff.1 ⟨he, hnil⟩).2 hnamed
    have hgoing : Going E y.state mnt.mFs (path.drop mnt.mPath.length) root
        (y.state, path.drop mnt.mPath.length, root) r :=
      ⟨hwalk, fun _ => ⟨rfl, rfl, rfl⟩, .inl (Walking.owned_start hr)⟩
    obtain ⟨j, hj⟩ := hgoing.rounds hone hroot hfits.root hrounds
    obtain rfl := Option.some.inj (hi.inode.symm.trans hj.walking.inode)
    have hown := hj.owned.resolve_right fun hstuck => hstuck.2.1 hfits.result
    obtain ⟨s'', hstop⟩ := hi.exists_stop hown
    obtain ⟨hsame, -⟩ := hi.stop h hstop
    rw [State.releaseUnlessRoot, hi.inode, Option.bind_eq_bind, Option.bind_some,
      if_pos hnum] at hstop
    refine ⟨s'', root, hstop, hsame, ?_⟩
    rw [hsame]
    exact htable

theorem traverse_ownsReference_oneName :
    ∃ y s' obj, Reachable oneName y ∧
      y.state.traverse oneName [slash, 0x61] = some (s', .ok obj) ∧
      OwnsReference y.state s' 0 obj := by
  have hy : ∃ s, State.empty.mount oneName [slash] 0 = some s ∧ s.mounts = [⟨[slash], 0⟩] ∧
      s.table 0 rootInode = some 0 ∧ (∃ i, s.inodes 0 = some i ∧ i.iRc = 1) ∧ s.inodes 1 = none ∧
      ∃ s', s.traverse oneName [slash, 0x61] = some (s', .ok 1) :=
    ⟨_, rfl, rfl, rfl, ⟨_, rfl, rfl⟩, rfl, _, rfl⟩
  obtain ⟨s, hmount, hmounts, htable, ⟨r, hr, hrc⟩, hnew, s', hrun⟩ := hy
  have hreach : Reachable oneName ⟨s, []⟩ := .mount .empty (fun _ => rfl) hmount
  obtain ⟨mnt, root, hbest, hroot, hiff⟩ :=
    traverse_ownsReference_iff (fun _ => rfl) oneName_noRoot hreach hrun
  rw [hmounts] at hbest
  cases hbest
  obtain rfl := Option.some.inj (htable.symm.trans hroot)
  have hfits : Fits oneName s 0 [0x61] 0 1 := by
    refine ⟨fun i hi => ?_, fun n _ _ i hi => ?_⟩
    · rw [hnew] at hi
      cases hi
    · obtain rfl := Option.some.inj (hr.symm.trans hi)
      rw [hrc]
      decide
  exact ⟨_, s', 1, hreach, hrun, hiff.2 ⟨by decide, hfits⟩⟩

/-- The path of the mount point leads to the root, whose only reference a release drops. -/
theorem traverse_mount_path :
    ∃ y s' obj, Reachable oneName y ∧ y.state.traverse oneName [slash] = some (s', .ok obj) ∧
      ¬ OwnsReference y.state s' 0 obj := by
  have hy : ∃ s s' s'', State.empty.mount oneName [slash] 0 = some s ∧
      s.traverse oneName [slash] = some (s', .ok 0) ∧ s'.release 0 = some s'' ∧
      s''.table 0 rootInode = none :=
    ⟨_, _, _, rfl, rfl, rfl, rfl⟩
  obtain ⟨s, s', s'', hmount, hrun, hrelease, hgone⟩ := hy
  refine ⟨⟨s, []⟩, s', 0, .mount .empty (fun _ => rfl) hmount, hrun, ?_⟩
  rintro ⟨t, root, hrelease', -, hstays⟩
  rw [hrelease, Option.some.injEq] at hrelease'
  rw [← hrelease', hgone] at hstays
  cases hstays

end Client

end TinyLittleOs.Fs
