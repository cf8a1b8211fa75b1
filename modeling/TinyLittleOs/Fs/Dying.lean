import TinyLittleOs.Fs.Releases

/-!
# Inodes whose count has dropped to 0

A state has live inodes and dying ones. The counts of the live ones are the references to them, also
from the steps that a release still has to make. A dying one is in the table until its release
removes it there.
-/

namespace TinyLittleOs.Fs

open Lib Function Forest Relation

variable {D : Type} {E : Env D}

namespace Rest

/-- The reference that is released behind the step. -/
def owed (d : Forest (Inode D)) : Rest → Option Nat
  | decrement obj => some obj
  | remove obj => (d obj).bind Inode.iParentRef
  | free _ => none

/-- The inode whose count was dropped to 0 before the step. -/
def dying : Rest → Option Nat
  | decrement _ => none
  | remove obj => some obj
  | free obj => some obj

@[simp] theorem dying_decrement (a : Nat) (ops : List Rest) :
    (decrement a :: ops).filterMap dying = ops.filterMap dying := rfl

@[simp] theorem dying_remove (a : Nat) (ops : List Rest) :
    (remove a :: ops).filterMap dying = a :: ops.filterMap dying := rfl

@[simp] theorem dying_free (a : Nat) (ops : List Rest) :
    (free a :: ops).filterMap dying = a :: ops.filterMap dying := rfl

end Rest

/-- The references of the mounts, of what the releases will release, and of the results of
`traverse` which are not roots. -/
def refs (base : Nat → Nat) (d : Forest (Inode D)) (ops : List Rest) (hs : List Nat) (a : Nat) :
    Nat :=
  base a + (ops.map (Rest.owed d)).count (some a) + (hs.filter fun b => base b = 0).count a

theorem refs_cons (base : Nat → Nat) (d : Forest (Inode D)) (op : Rest) (ops : List Rest)
    (hs : List Nat) (a : Nat) :
    refs base d (op :: ops) hs a = refs base d ops hs a + one (op.owed d) a := by
  simp only [refs, one, List.map_cons, List.count_cons, beq_iff_eq]
  omega

/-- Another dying inode does not count. -/
theorem refs_congr {base : Nat → Nat} {d d' : Forest (Inode D)} {ops : List Rest} {hs : List Nat}
    (h : ∀ a ∈ ops.filterMap Rest.dying, d' a = d a) (a : Nat) :
    refs base d' ops hs a = refs base d ops hs a := by
  have howed : ops.map (Rest.owed d') = ops.map (Rest.owed d) := by
    apply List.map_congr_left
    intro op hop
    cases op with
    | decrement b => rfl
    | free b => rfl
    | remove b =>
      have hb : d' b = d b := h b (List.mem_filterMap.2 ⟨_, hop, rfl⟩)
      rw [Rest.owed, Rest.owed, hb]
  rw [refs, refs, howed]

/-- The parts of a state: the live inodes are those of `l`, and the dying ones are `d`, with the
entries `t`. -/
structure Parts (E : Env D) (base : Nat → Nat) (s : State D) (ops : List Rest) (hs : List Nat)
    (l : State D) (d : Forest (Inode D)) (t : Nat → BitVec 32 → Option Nat) : Prop where
  eq : s = l.join d t
  wf : State.Wf E l
  pos : ∀ a i, l.inodes a = some i → 0 < i.iRc.toInt
  apart : l.Apart d t
  counted : l.Counted (refs base d ops hs)
  indexed : ∀ fs n a, t fs n = some a ↔
    .remove a ∈ ops ∧ ∃ i, d a = some i ∧ i.ownerFs = fs ∧ i.iNum = n
  dying : ∀ a, a ∈ ops.filterMap Rest.dying → d a ≠ none
  unique : (ops.filterMap Rest.dying).Nodup
  roots : ∀ a, 0 < base a → ∃ i, l.inodes a = some i ∧ i.iNum = rootInode
  mounted : ∀ mnt ∈ l.mounts, ∃ a i, 0 < base a ∧ l.inodes a = some i ∧ i.ownerFs = mnt.mFs ∧
    i.iNum = rootInode

namespace Parts

variable {base : Nat → Nat} {s s' : State D} {ops ops' : List Rest} {hs hs' : List Nat}
  {l : State D}
  {d : Forest (Inode D)} {t : Nat → BitVec 32 → Option Nat} {a : Nat}

theorem perm (h : Parts E base s ops hs l d t) (hops : ops.Perm ops') (hhs : hs.Perm hs') :
    Parts E base s ops' hs' l d t := by
  have hdying := hops.filterMap Rest.dying
  refine ⟨h.eq, h.wf, h.pos, h.apart, h.counted.congr fun a => ?_, fun fs n a => ?_, fun a ha => ?_,
    hdying.nodup_iff.1 h.unique, h.roots, h.mounted⟩
  · rw [refs, refs, ((hops.map (Rest.owed d)).count_eq _).symm, ((hhs.filter _).count_eq _).symm]
  · rw [← hops.mem_iff]
    exact h.indexed fs n a
  · exact h.dying a (hdying.mem_iff.2 ha)

/-- An inode with a reference is live. -/
theorem live (h : Parts E base s ops hs l d t) (ha : 0 < refs base d ops hs a) :
    ∃ i, l.inodes a = some i ∧ s.inodes a = some i ∧ 0 < i.iRc.toInt := by
  have hlive := h.counted.live_iff.2 (Nat.lt_of_lt_of_le ha (Nat.le_add_right ..))
  obtain ⟨i, hi⟩ := Option.ne_none_iff_exists'.1 hlive
  refine ⟨i, hi, ?_, h.pos a i hi⟩
  rw [h.eq]
  exact State.join_live hi

/-- No inode was made behind the last one. -/
theorem bound (h : Parts E base s ops hs l d t) (ha : s.nextInode ≤ a) : s.inodes a = none := by
  rw [h.eq] at ha ⊢
  rw [State.join_inodes, h.wf.bound a ha, h.apart.bound a ha, Option.none_or]

theorem live_of_held (h : Parts E base s ops hs l d t) (ha : a ∈ hs) :
    ∃ i, l.inodes a = some i ∧ s.inodes a = some i ∧ 0 < i.iRc.toInt := by
  apply h.live
  by_cases hbase : base a = 0
  · have hmem : a ∈ hs.filter fun b => base b = 0 := List.mem_filter.2 ⟨ha, by simpa using hbase⟩
    have := List.count_pos_iff.2 hmem
    rw [refs]
    omega
  · rw [refs]
    omega

/-- The root of a file system keeps the reference of the mount. -/
theorem base_of_root (h : Parts E base s ops hs l d t) (ha : 0 < base a) :
    ∃ i, s.inodes a = some i ∧ i.iNum = rootInode := by
  obtain ⟨i, hi, hroot⟩ := h.roots a ha
  refine ⟨i, ?_, hroot⟩
  rw [h.eq]
  exact State.join_live hi

/-- A dying inode is not one of the live ones. -/
theorem ne_of_dying (h : Parts E base s ops hs l d t) {i : Inode D}
    (ha : l.inodes a = some i) {b : Nat}
    (hb : b ∈ ops.filterMap Rest.dying) : b ≠ a := by
  rintro rfl
  exact h.dying b hb (h.apart.inode b i ha)

theorem keep (h : Parts E base s (.decrement a :: ops) hs l d t) {i : Inode D}
    (hi : l.inodes a = some i) (hrc : i.iRc ≠ 1)
    (hapart : State.Apart
      { l with inodes := update l.inodes a (some { i with iRc := i.iRc - 1 }) } d t)
    (hs' : s' =
      State.join { l with inodes := update l.inodes a (some { i with iRc := i.iRc - 1 }) } d t) :
    Parts E base s' ops hs { l with inodes := update l.inodes a (some { i with iRc := i.iRc - 1 }) }
      d t := by
  have hsound := h.wf.sound a i hi
  have hpos := toInt_pos.1 (h.pos a i hi)
  have hne : i.iRc.toNat ≠ 1 := fun he => hrc (BitVec.eq_of_toNat_eq he)
  have hpred := toNat_pred hpos.1
  have hpos' : 0 < (i.iRc - 1).toInt := by
    rw [toInt_pos]
    omega
  have hcount : i.iRc - 1 ≠ 0 := by
    rw [ne_eq, BitVec.sub_eq_iff_eq_add]
    exact hrc
  have hstays (b : Nat) (j : Inode D) (hj : l.inodes b = some j) :
      ∃ k, update l.inodes a (some { i with iRc := i.iRc - 1 }) b = some k ∧
        k.ownerFs = j.ownerFs ∧ k.iNum = j.iNum := by
    by_cases hb : b = a
    · subst hb
      obtain rfl := Option.some.inj (hi.symm.trans hj)
      exact ⟨_, update_self .., rfl, rfl⟩
    · exact ⟨j, by rwa [update_of_ne hb], rfl, rfl⟩
  refine ⟨hs', h.wf.set hi ⟨hcount, hsound.older, hsound.loaded⟩ rfl rfl, fun b j hj => ?_, hapart,
    ?_, fun fs n b => ?_, h.dying, h.unique, fun b hb => ?_, fun mnt hmnt => ?_⟩
  · dsimp only at hj
    by_cases hb : b = a
    · rw [hb, update_self, Option.some.injEq] at hj
      rw [← hj]
      exact hpos'
    · rw [update_of_ne hb] at hj
      exact h.pos b j hj
  · refine h.counted.setCount hi (by omega) (by omega) ?_ fun c hc => ?_
    · rw [refs_cons, Rest.owed, one_self]
      show (i.iRc - 1).toNat + _ = i.iRc.toNat + _
      omega
    · rw [refs_cons, Rest.owed, one_of_ne (Ne.symm hc), Nat.add_zero]
  · rw [h.indexed, List.mem_cons]
    simp only [reduceCtorEq, false_or]
  · obtain ⟨j, hj, hroot⟩ := h.roots b hb
    obtain ⟨k, hk, -, hnum⟩ := hstays b j hj
    exact ⟨k, hk, hnum.trans hroot⟩
  · obtain ⟨b, j, hb, hj, hfs, hroot⟩ := h.mounted mnt hmnt
    obtain ⟨k, hk, hkfs, hknum⟩ := hstays b j hj
    exact ⟨b, k, hb, hk, hkfs.trans hfs, hknum.trans hroot⟩

section Last

variable {i : Inode D}

/-- The live inodes other than `a` are not in its entry. -/
theorem entry_ne (h : Parts E base s ops hs l d t) (hi : l.inodes a = some i) {b : Nat}
    {j : Inode D} (hb : b ≠ a) (hj : l.inodes b = some j) :
    ¬ (j.ownerFs = i.ownerFs ∧ j.iNum = i.iNum) := by
  intro he
  have hentry := (h.wf.indexed ..).2 ⟨j, hj, rfl, rfl⟩
  have hkey : l.table i.ownerFs i.iNum = some a := (h.wf.indexed ..).2 ⟨i, hi, rfl, rfl⟩
  rw [he.1, he.2, hkey, Option.some.injEq] at hentry
  exact hb hentry.symm

/-- The inode and its entry are dying ones instead of live ones. -/
theorem join_last (h : Parts E base s ops hs l d t) (hi : l.inodes a = some i) (x : Inode D) :
    ({ s with inodes := update s.inodes a (some x) } : State D) =
      State.join { l.removeEntry i with inodes := update l.inodes a none } (update d a (some x))
        (update t i.ownerFs (update (t i.ownerFs) i.iNum (some a))) := by
  have hkey : l.table i.ownerFs i.iNum = some a := (h.wf.indexed ..).2 ⟨i, hi, rfl, rfl⟩
  rw [h.eq, State.join, State.join]
  congr 1
  · funext b
    by_cases hb : b = a <;> simp [hb]
  · funext fs n
    have hremoved : (l.removeEntry i).table fs n =
        if fs = i.ownerFs ∧ n = i.iNum then none else l.table fs n := State.entry_apply ..
    rw [State.entry_apply]
    show (l.table fs n).or (t fs n) = ((l.removeEntry i).table fs n).or _
    rw [hremoved]
    split_ifs with he
    · rw [he.1, he.2, hkey, Option.none_or, Option.some_or]
    · rfl

theorem indexed_last (h : Parts E base s (.decrement a :: ops) hs l d t)
    (hi : l.inodes a = some i) {x : Inode D} (hfs : x.ownerFs = i.ownerFs)
    (hnum : x.iNum = i.iNum) (fs : Nat) (n : BitVec 32) (b : Nat) :
    update t i.ownerFs (update (t i.ownerFs) i.iNum (some a)) fs n = some b ↔
      .remove b ∈ .remove a :: ops ∧
        ∃ j, update d a (some x) b = some j ∧ j.ownerFs = fs ∧ j.iNum = n := by
  have hmiss : t i.ownerFs i.iNum = none := h.apart.entry a i hi
  have hother (c : Nat) (hc : .remove c ∈ ops) : update d a (some x) c = d c :=
    update_of_ne (h.ne_of_dying hi (List.mem_filterMap.2 ⟨_, List.mem_cons_of_mem _ hc, rfl⟩)) ..
  rw [State.entry_apply, List.mem_cons]
  split_ifs with he
  · constructor
    · intro hb
      cases hb
      exact ⟨.inl rfl, x, update_self .., hfs.trans he.1.symm, hnum.trans he.2.symm⟩
    · rintro ⟨hb | hb, j, hj, hjfs, hjnum⟩
      · cases hb
        rfl
      · rw [hother b hb] at hj
        have hentry := (h.indexed fs n b).2 ⟨List.mem_cons_of_mem _ hb, j, hj, hjfs, hjnum⟩
        rw [he.1, he.2, hmiss] at hentry
        cases hentry
  · rw [h.indexed]
    constructor
    · rintro ⟨hb, j, hj, hkeys⟩
      have hmem : .remove b ∈ ops := by simpa using hb
      exact ⟨.inr hmem, j, by rwa [hother b hmem], hkeys⟩
    · rintro ⟨hb | hb, j, hj, hjfs, hjnum⟩
      · cases hb
        rw [update_self] at hj
        cases hj
        exact absurd ⟨hjfs.symm.trans hfs, hjnum.symm.trans hnum⟩ he
      · rw [hother b hb] at hj
        exact ⟨List.mem_cons_of_mem _ hb, j, hj, hjfs, hjnum⟩

/-- A root has the reference of its mount besides. -/
theorem base_last (h : Parts E base s (.decrement a :: ops) hs l d t) (hi : l.inodes a = some i)
    (hrc : i.iRc = 1) : base a = 0 := by
  have hcount := h.counted.count a i hi
  rw [refs_cons, Rest.owed, one_self, refs, show Counted.rc i = i.iRc from rfl, hrc] at hcount
  replace hcount : 1 = _ := hcount
  omega

/-- The count drops to 0, and the inode is still in the table. -/
theorem last (h : Parts E base s (.decrement a :: ops) hs l d t) (hi : l.inodes a = some i)
    (hrc : i.iRc = 1)
    (hs' : s' = { s with inodes := update s.inodes a (some { i with iRc := 0 }) }) :
    Parts E base s' (.remove a :: ops) hs { l.removeEntry i with inodes := update l.inodes a none }
      (update d a (some { i with iRc := 0 }))
      (update t i.ownerFs (update (t i.ownerFs) i.iNum (some a))) := by
  have hother (b : Nat) (hb : b ∈ ops.filterMap Rest.dying) : b ≠ a :=
    h.ne_of_dying hi (b := b) hb
  have hbase := h.base_last hi hrc
  have hlive (b : Nat) (hb : 0 < base b) : update l.inodes a none b = l.inodes b :=
    update_of_ne (by rintro rfl; omega) ..
  have hold (b : Nat) (j : Inode D) (hj : update l.inodes a none b = some j) :
      b ≠ a ∧ l.inodes b = some j := by
    have hb : b ≠ a := by
      rintro rfl
      simp at hj
    rw [update_of_ne hb] at hj
    exact ⟨hb, hj⟩
  have hd : ∀ b ∈ ops.filterMap Rest.dying, update d a (some { i with iRc := 0 }) b = d b :=
    fun b hb => update_of_ne (hother b hb) ..
  refine ⟨hs'.trans (h.join_last hi _), ⟨fun b hb => ?_,
    fun b j hj => h.wf.sound b j (hold b j hj).2, h.wf.indexed.remove hi, h.wf.mounted⟩,
    fun b j hj => h.pos b j (hold b j hj).2, ⟨fun b j hj => ?_, fun b j hj => ?_, fun b hb => ?_⟩,
    ?_, h.indexed_last hi rfl rfl, fun b hb => ?_, ?_, fun b hb => ?_, fun mnt hmnt => ?_⟩
  · have hnone : l.inodes b = none := h.wf.bound b hb
    show update l.inodes a none b = none
    by_cases hba : b = a
    · rw [hba, update_self]
    · rwa [update_of_ne hba]
  · obtain ⟨hb, hj⟩ := hold b j hj
    rw [update_of_ne hb]
    exact h.apart.inode b j hj
  · obtain ⟨hb, hj⟩ := hold b j hj
    rw [State.entry_apply, if_neg (h.entry_ne hi hb hj)]
    exact h.apart.entry b j hj
  · have hlt : a < b := Nat.lt_of_lt_of_le (h.counted.lt hi) hb
    rw [update_of_ne (Nat.ne_of_gt hlt)]
    exact h.apart.bound b hb
  · have hbefore : Balanced l.nextInode l.inodes fun c => refs base d ops hs c + one (some a) c :=
      h.counted.congr fun c => (refs_cons base d (.decrement a) ops hs c).symm
    refine (hbefore.erase hi hrc).congr fun c => ?_
    rw [refs_cons, refs_congr hd, Rest.owed, update_self]
    rfl
  · rw [Rest.dying_remove, List.mem_cons] at hb
    rcases hb with rfl | hb
    · simp
    · rw [hd b hb]
      exact h.dying b hb
  · rw [Rest.dying_remove, List.nodup_cons]
    exact ⟨fun ha => hother a ha rfl, h.unique⟩
  · obtain ⟨j, hj, hroot⟩ := h.roots b hb
    exact ⟨j, (hlive b hb).trans hj, hroot⟩
  · obtain ⟨b, j, hb, hj, hfs, hroot⟩ := h.mounted mnt hmnt
    exact ⟨b, j, hb, (hlive b hb).trans hj, hfs, hroot⟩

end Last

/-- The inode is removed from the table. -/
theorem remove (h : Parts E base s (.remove a :: ops) hs l d t) {i : Inode D}
    (hi : s.inodes a = some i) :
    Parts E base (s.removeEntry i)
      (i.iParentRef.elim [] (fun p => [.decrement p]) ++ .free a :: ops) hs l d
      (update t i.ownerFs (update (t i.ownerFs) i.iNum none)) := by
  have hdead : l.inodes a = none := by
    by_contra hne
    obtain ⟨j, hj⟩ := Option.ne_none_iff_exists'.1 hne
    exact h.ne_of_dying hj (b := a) (by simp) rfl
  rw [h.eq, State.join_dying hdead] at hi
  have hkey : t i.ownerFs i.iNum = some a := (h.indexed ..).2 ⟨by simp, i, hi, rfl, rfl⟩
  have hunique := h.unique
  rw [Rest.dying_remove, List.nodup_cons] at hunique
  have hdying : (i.iParentRef.elim [] (fun p => [Rest.decrement p]) ++ .free a :: ops).filterMap
      Rest.dying =
      (Rest.remove a :: ops).filterMap Rest.dying := by
    cases i.iParentRef <;> rfl
  have hmem (b : Nat) : .remove b ∈ i.iParentRef.elim [] (fun p => [.decrement p]) ++
      .free a :: ops ↔
      .remove b ∈ ops := by
    cases i.iParentRef <;> simp
  refine ⟨?_, h.wf, h.pos, ⟨h.apart.inode, fun b j hj => ?_, h.apart.bound⟩,
    h.counted.congr fun c => ?_, fun fs n b => ?_, fun b hb => ?_, ?_, h.roots, h.mounted⟩
  · have hlkey : l.table i.ownerFs i.iNum = none := by
      by_contra hne
      obtain ⟨b, hb⟩ := Option.ne_none_iff_exists'.1 hne
      obtain ⟨j, hj, hfs, hnum⟩ := (h.wf.indexed ..).1 hb
      have hentry := h.apart.entry b j hj
      rw [hfs, hnum, hkey] at hentry
      cases hentry
    rw [h.eq, State.removeEntry, State.join, State.join]
    congr 1
    funext fs n
    rw [State.entry_apply, State.entry_apply]
    split_ifs with he
    · rw [he.1, he.2, hlkey]
      rfl
    · rfl
  · rw [State.entry_apply]
    split_ifs
    · rfl
    · exact h.apart.entry b j hj
  · rw [refs_cons, Rest.owed, hi, Option.bind_some]
    cases hp : i.iParentRef with
    | none => rw [Option.elim_none, List.nil_append, refs_cons, Rest.owed]
    | some p =>
      rw [Option.elim_some, List.singleton_append, refs_cons, refs_cons, Rest.owed, Rest.owed]
      rfl
  · rw [State.entry_apply, hmem]
    split_ifs with he
    · refine iff_of_false (by simp) ?_
      rintro ⟨hb, j, hj, hfs, hnum⟩
      have hentry := (h.indexed fs n b).2 ⟨List.mem_cons_of_mem _ hb, j, hj, hfs, hnum⟩
      rw [he.1, he.2, hkey, Option.some.injEq] at hentry
      subst hentry
      exact hunique.1 (List.mem_filterMap.2 ⟨_, hb, rfl⟩)
    · rw [h.indexed, List.mem_cons]
      constructor
      · rintro ⟨hb | hb, j, hj, hfs, hnum⟩
        · cases hb
          obtain rfl := Option.some.inj (hi.symm.trans hj)
          exact absurd ⟨hfs.symm, hnum.symm⟩ he
        · exact ⟨hb, j, hj, hfs, hnum⟩
      · rintro ⟨hb, hj⟩
        exact ⟨.inr hb, hj⟩
  · rw [hdying] at hb
    exact h.dying b hb
  · rw [hdying]
    exact h.unique

/-- The memory of the inode is freed. -/
theorem free (h : Parts E base s (.free a :: ops) hs l d t) :
    Parts E base { s with inodes := update s.inodes a none } ops hs l (update d a none) t := by
  have hdead : l.inodes a = none := by
    by_contra hne
    obtain ⟨j, hj⟩ := Option.ne_none_iff_exists'.1 hne
    exact h.ne_of_dying hj (b := a) (by simp) rfl
  have hunique := h.unique
  rw [Rest.dying_free, List.nodup_cons] at hunique
  have hd : ∀ b ∈ ops.filterMap Rest.dying, update d a none b = d b :=
    fun b hb => update_of_ne (by rintro rfl; exact hunique.1 hb) ..
  refine ⟨?_, h.wf, h.pos, ⟨fun b j hj => ?_, h.apart.entry, fun b hb => ?_⟩,
    h.counted.congr fun c => ?_, fun fs n b => ?_, fun b hb => ?_, hunique.2, h.roots, h.mounted⟩
  · rw [h.eq, State.join, State.join]
    congr 1
    funext b
    by_cases hb : b = a <;> simp [hb, hdead]
  · by_cases hb : b = a
    · rw [hb, update_self]
    · rw [update_of_ne hb]
      exact h.apart.inode b j hj
  · by_cases hba : b = a
    · rw [hba, update_self]
    · rw [update_of_ne hba]
      exact h.apart.bound b hb
  · rw [refs_congr hd, refs_cons, Rest.owed, one_none, Nat.add_zero]
  · rw [h.indexed, List.mem_cons]
    simp only [reduceCtorEq, false_or]
    apply and_congr_right
    intro hb
    rw [hd b (List.mem_filterMap.2 ⟨_, hb, rfl⟩)]
  · rw [hd b hb]
    exact h.dying b (List.mem_cons_of_mem _ hb)

/-- A step of a release. -/
theorem exec {op : Rest} {more : List Rest} (h : Parts E base s (op :: ops) hs l d t)
    (hrun : op.exec s = some (s', more)) :
    ∃ l' d' t', Parts E base s' (more ++ ops) hs l' d' t' := by
  cases op with
  | decrement a =>
    have hpos : 0 < refs base d (.decrement a :: ops) hs a := by
      rw [refs_cons, Rest.owed, one_self]
      exact Nat.succ_pos _
    obtain ⟨i, hi, hsi, hrc⟩ := h.live hpos
    obtain ⟨⟨s₁, last⟩, hlocked, hrun⟩ := Option.bind_eq_some_iff.1 hrun
    cases hrun
    rw [State.releaseRefLocked, hsi, Option.bind_eq_bind, Option.bind_some, if_pos hrc] at hlocked
    cases hlocked
    by_cases hone : i.iRc = 1
    · rw [hone]
      exact ⟨_, _, _, h.last hi hone rfl⟩
    · have hmore : (i.iRc - 1 == 0) = false := by
        rw [beq_eq_false_iff_ne, ne_eq, BitVec.sub_eq_iff_eq_add]
        exact hone
      rw [hmore]
      refine ⟨_, _, _, h.keep hi hone (h.apart.setRc hi _) ?_⟩
      rw [h.eq, State.join_update (h.apart.inode a i hi)]
      rfl
  | remove a =>
    obtain ⟨i, hi, hrun⟩ := Option.bind_eq_some_iff.1 hrun
    cases hrun
    rw [List.append_assoc]
    exact ⟨_, _, _, h.remove hi⟩
  | free a =>
    cases hrun
    exact ⟨_, _, _, h.free⟩

/-- A task calls `release` for a result of `traverse` which is not a root. -/
theorem release (h : Parts E base s ops (a :: hs) l d t) (ha : base a = 0) :
    Parts E base s (.decrement a :: ops) hs l d t := by
  refine ⟨h.eq, h.wf, h.pos, h.apart, h.counted.congr fun c => ?_, fun fs n b => ?_, h.dying,
    h.unique, h.roots, h.mounted⟩
  · rw [refs_cons, Rest.owed, refs, refs, List.filter_cons_of_pos (by simpa using ha),
      List.count_cons,
      one]
    simp only [beq_iff_eq, Option.some.injEq, Nat.add_assoc]
  · rw [h.indexed, List.mem_cons]
    simp only [reduceCtorEq, false_or]

/-! ## Traversals -/

variable {path p p₁ : Str} {fs root : Nat} {s₁ : State D}

/-- No release is between the decrement to 0 and the removal from the table. -/
def Settled (ops : List Rest) : Prop := ∀ a, .remove a ∉ ops

theorem no_entry (h : Parts E base s ops hs l d t) (hsettled : Settled ops) (fs : Nat)
    (n : BitVec 32) : t fs n = none := by
  by_contra hne
  obtain ⟨a, ha⟩ := Option.ne_none_iff_exists'.1 hne
  exact hsettled a ((h.indexed fs n a).1 ha).1

/-- Another two references fit each live inode. -/
theorem room (h : Parts E base s ops hs l d t) (hroom : State.Room 2 s) : State.Room 2 l := by
  intro a i hi
  refine hroom a i ?_
  rw [h.eq]
  exact State.join_live hi

theorem root_live (h : Parts E base s ops hs l d t) (hstart : s.StartsAt path fs p root) :
    l.table fs rootInode = some root ∧ 0 < base root := by
  obtain ⟨mnt, hbest, rfl, -, htable⟩ := hstart
  rw [h.eq] at hbest htable
  obtain ⟨a, i, hbase, hi, hfs, hnum⟩ := h.mounted mnt (State.bestMount_mem hbest)
  have hentry := (h.wf.indexed ..).2 ⟨i, hi, hfs, hnum⟩
  rw [State.join_table, hentry, Option.some_or, Option.some.injEq] at htable
  subst htable
  exact ⟨hentry, hbase⟩

theorem rounds (h : Parts E base s ops hs l d t) (hone : State.OneRef E) (hroot : State.NoRoot E)
    (hsettled : Settled ops) (hroom : State.Room 2 s) (hstart : s.StartsAt path fs p root)
    (hrounds : ReflTransGen (State.Round E fs) (s, p, root) (s₁, p₁, a)) :
    ∃ l₁ i, s₁ = l₁.join d t ∧ State.Walking E l l₁ fs a i ∧ State.Walking.Owned l l₁ a i ∧
      l₁.Apart d t := by
  obtain ⟨i, hi, hwalking⟩ := h.wf.walking (h.root_live hstart).1
  rw [h.eq] at hrounds
  exact hwalking.rounds_join (State.Walking.owned_start hi) (h.room hroom) hone hroot h.apart
    (h.no_entry hsettled) hrounds

/-- A traversal takes references to live inodes. -/
theorem gets_live (h : Parts E base s ops hs l d t) (hone : State.OneRef E) (hroot : State.NoRoot E)
    (hsettled : Settled ops) (hroom : State.Room 2 s) {n : BitVec 32} {curr : Nat}
    (hgets : s.Gets E path s₁ fs n curr) :
    ∃ i, s₁.inodes ((s₁.table fs n).getD curr) = some i ∧ 0 < i.iRc.toInt := by
  obtain ⟨root, p, p₁, hstart, hrounds, hfinds⟩ := hgets
  obtain ⟨l₁, i, rfl, hwalking, hown, hapart⟩ :=
    h.rounds hone hroot hsettled hroom hstart hrounds
  have hroom₁ := hown.room (h.room hroom)
  rw [State.join_table, h.no_entry hsettled, Option.or_none]
  cases ht : l₁.table fs n with
  | none =>
    exact ⟨i, State.join_live hwalking.inode, hroom₁.pos hwalking.wf hwalking.inode⟩
  | some r =>
    obtain ⟨j, hj, -⟩ := (hwalking.wf.indexed fs n r).1 ht
    exact ⟨j, State.join_live hj, hroom₁.pos hwalking.wf hj⟩

/-- Other live inodes, with the references that go with them. -/
theorem walked (h : Parts E base s ops hs l d t) {l' : State D} {hs' : List Nat}
    (hwf : State.Wf E l')
    (hpos : ∀ a i, l'.inodes a = some i → 0 < i.iRc.toInt) (hapart : l'.Apart d t)
    (hcounted : l'.Counted (refs base d ops hs'))
    (hmounts : l'.mounts = l.mounts)
    (hstays : ∀ a i, l.inodes a = some i → ∃ j, l'.inodes a = some j ∧ j.ownerFs = i.ownerFs ∧
      j.iNum = i.iNum) : Parts E base (l'.join d t) ops hs' l' d t := by
  refine ⟨rfl, hwf, hpos, hapart, hcounted, h.indexed, h.dying, h.unique, fun a ha => ?_,
    fun mnt hmnt => ?_⟩
  · obtain ⟨i, hi, hroot⟩ := h.roots a ha
    obtain ⟨j, hj, -, hnum⟩ := hstays a i hi
    exact ⟨j, hj, hnum.trans hroot⟩
  · rw [hmounts] at hmnt
    obtain ⟨a, i, hbase, hi, hfs, hroot⟩ := h.mounted mnt hmnt
    obtain ⟨j, hj, hjfs, hnum⟩ := hstays a i hi
    exact ⟨a, j, hbase, hj, hjfs.trans hfs, hnum.trans hroot⟩

/-- The results of `traverse` that a task gets. -/
def results (hs : List Nat) : Except Errno Nat → List Nat
  | .ok a => a :: hs
  | .error _ => hs

/-- A traversal while no dying inode is in the table. -/
theorem traverse (h : Parts E base s ops hs l d t) (hone : State.OneRef E) (hroot : State.NoRoot E)
    (hsettled : Settled ops) (hroom : State.Room 2 s) {r : Except Errno Nat}
    (hrun : s.traverse E path = some (s', r)) :
    ∃ l', Parts E base s' ops (results hs r) l' d t := by
  rcases State.traverse_rounds hrun with ⟨rfl, e, rfl⟩ | ⟨fs, p, root, s₁, p₁, a, hstart,
    hrounds, hend⟩
  · exact ⟨l, h⟩
  obtain ⟨l₁, i, rfl, hwalking, hown, hapart⟩ :=
    h.rounds hone hroot hsettled hroom hstart hrounds
  have hroom₁ := hown.room (h.room hroom)
  rcases hend with ⟨rfl, -, rfl⟩ | ⟨⟨e, rfl⟩, hstop⟩
  · refine ⟨l₁, h.walked hwalking.wf (fun _ _ => hroom₁.pos hwalking.wf) hapart ?_ ?_
      fun b j hj => ?_⟩
    · refine (hwalking.counted _ h.counted).congr fun c => ?_
      have hbase : 0 < base a ↔ i.iNum = rootInode := by
        constructor
        · intro ha
          obtain ⟨j, hj, hnum⟩ := h.roots a ha
          obtain ⟨k, hk, hjk, -⟩ := hown.stays hj
          obtain rfl := Option.some.inj (hwalking.inode.symm.trans hk)
          rw [hjk] at hnum
          exact hnum
        · intro hnum
          obtain ⟨mnt, hbest, rfl, -, -⟩ := hstart
          rw [h.eq] at hbest
          obtain ⟨b, j, hb, hj, hfs, hjnum⟩ := h.mounted mnt (State.bestMount_mem hbest)
          obtain ⟨k, hk, hjk, -⟩ := hown.stays hj
          rw [hjk] at hfs hjnum
          have hentry := (hwalking.wf.indexed ..).2 ⟨k, hk, hfs, hjnum⟩
          have hentry' := (hwalking.wf.indexed ..).2 ⟨i, hwalking.inode, hwalking.owner, hnum⟩
          obtain rfl := Option.some.inj (hentry.symm.trans hentry')
          exact hb
      rw [results, refs, refs, State.walkRef]
      split_ifs with hnum
      · rw [List.filter_cons_of_neg (by simpa using Nat.ne_of_gt (hbase.2 hnum)), one_none,
          Nat.add_zero]
      · rw [List.filter_cons_of_pos (by simpa using fun ha => hnum (hbase.1 ha)),
          List.count_cons, one]
        simp only [beq_iff_eq, Option.some.injEq, Nat.add_assoc]
    · rw [hwalking.frame]
    · obtain ⟨k, hk, hjk, -⟩ := hown.stays hj
      refine ⟨k, hk, ?_, ?_⟩ <;> rw [hjk] <;> rfl
  · obtain ⟨l₂, hstop'⟩ := hwalking.exists_stop hown
    obtain ⟨hsame, hwf, hcounted⟩ := hwalking.stop h.wf hstop'
    obtain ⟨hjoin, hapart'⟩ := State.releaseUnlessRoot_join hapart hstop'
    rw [hstop, Option.some.injEq] at hjoin
    rw [hjoin]
    refine ⟨l₂, h.walked hwf (fun b j hj => ?_) hapart' (hcounted _ h.counted) ?_
      fun b j hj => ⟨j, ?_, rfl, rfl⟩⟩
    · rw [hsame] at hj
      exact h.pos b j hj
    · rw [hsame]
    · rw [hsame]
      exact hj

end Parts

/-! ## Runs -/

/-- A struct with a count above 0. -/
def State.Live (s : State D) (a : Nat) : Prop := ∃ i, s.inodes a = some i ∧ 0 < i.iRc.toInt

/-- File systems are mounted, each of them once. -/
inductive State.Boots (E : Env D) : State D → Prop
  | empty : Boots E .empty
  | mount {s s' : State D} {p : Str} {fs : Nat} (hs : Boots E s) (hfs : ∀ n, s.table fs n = none)
      (hrun : s.mount E p fs = some s') : Boots E s'

theorem State.Boots.parts (hone : State.OneRef E) {s : State D} (h : State.Boots E s) :
    ∃ base, Parts E base s [] [] s (fun _ => none) fun _ _ => none := by
  induction h with
  | empty =>
    refine ⟨fun _ => 0, rfl, State.wf_empty, ?_,
      ⟨fun _ _ _ => rfl, fun _ _ _ => rfl, fun _ _ => rfl⟩, Balanced.empty, fun fs n a =>
      ?_, ?_, ?_,
      fun a ha => ?_, fun mnt hmnt => ?_⟩
    · intro a i hi
      cases hi
    · simp
    · simp
    · simp
    · exact absurd ha (Nat.lt_irrefl 0)
    · cases hmnt
  | @mount s s' p fs _ hfs hrun ih =>
    obtain ⟨base, h⟩ := ih
    have hwf := h.wf.mount hone.nonZero hfs hrun
    simp only [State.mount, State.allocInodeStruct, State.takeParentStruct, Option.bind_eq_bind,
      Option.bind_some] at hrun
    split_ifs at hrun with hpath
    cases hrun
    have hold (a : Nat) (i : Inode D) (hi : s.inodes a = some i) : a ≠ s.nextInode := by
      have := h.counted.lt hi
      omega
    refine ⟨fun a => base a + one (some s.nextInode) a, ?_, hwf, fun a i hi => ?_,
      ⟨fun _ _ _ => rfl, fun _ _ _ => rfl, fun _ _ => rfl⟩, ?_, fun fs n a => ?_, ?_, ?_,
      fun a ha => ?_, fun mnt hmnt => ?_⟩
    · simp [State.join]
    · dsimp only at hi
      by_cases hnew : a = s.nextInode
      · rw [hnew, update_self, Option.some.injEq] at hi
        rw [← hi]
        show 0 < (E.slots s.nextInode).rc.toInt
        rw [hone]
        decide
      · rw [update_of_ne hnew] at hi
        exact h.pos a i hi
    · have hnone : s.Counted fun c => base c + one none c := h.counted.congr fun c => by simp [refs]
      refine (hnone.new (hone _) rfl).congr fun c => ?_
      simp [refs]
    · simp
    · simp
    · simp
    · by_cases hnew : a = s.nextInode
      · exact ⟨_, by rw [hnew]; exact update_self .., rfl⟩
      · rw [one_of_ne (Ne.symm hnew)] at ha
        obtain ⟨i, hi, hroot⟩ := h.roots a ha
        exact ⟨i, (update_of_ne hnew ..).trans hi, hroot⟩
    · have hmem : mnt = ⟨p, fs⟩ ∨ mnt ∈ s.mounts := by
        dsimp only at hmnt
        cases hs : s.mounts with
        | nil => exact .inl (by simpa [hs] using hmnt)
        | cons first rest =>
          rw [hs, List.mem_cons, List.mem_cons] at hmnt
          rw [List.mem_cons]
          tauto
      rcases hmem with rfl | hmem
      · refine ⟨s.nextInode, _, ?_, update_self .., rfl, rfl⟩
        rw [one_self]
        exact Nat.succ_pos _
      · obtain ⟨a, i, hbase, hi, hkey⟩ := h.mounted mnt hmem
        exact ⟨a, i, Nat.lt_of_lt_of_le hbase (Nat.le_add_right ..),
          (update_of_ne (hold a i hi) ..).trans hi, hkey⟩

namespace Tasks

variable {y y' : Tasks D}

/-- A move that meets a condition. -/
def Moves (E : Env D) (ok : Tasks D → Turn → Prop) (y y' : Tasks D) : Prop :=
  ∃ a, ok y a ∧ y.step E a = some y'

/-- The states of the runs whose moves all meet a condition. -/
def Reachable (E : Env D) (ok : Tasks D → Turn → Prop) (y : Tasks D) : Prop :=
  ∃ s, State.Boots E s ∧ ReflTransGen (Moves E ok) ⟨s, []⟩ y

/-- What a task holds is not freed, and traversals take references to live inodes only: what they
find in the table, or the parent of a new inode. -/
structure Safe (E : Env D) (ok : Tasks D → Turn → Prop) (y : Tasks D) : Prop where
  held : ∀ a ∈ y.held, y.state.Live a
  found : ∀ k path, ok y (.traverse k path) → ∀ s fs n curr, y.state.Gets E path s fs n curr →
    s.Live ((s.table fs n).getD curr)

/-- No task calls `traverse` while a release is between its decrement to 0 and `ht->remove`, or
while an inode is within two references of the largest count. Roots are not released. -/
def Gentle (y : Tasks D) : Turn → Prop
  | .traverse _ _ => Parts.Settled y.pending ∧ State.Room 2 y.state
  | .release _ obj => ∀ i, y.state.inodes obj = some i → i.iNum ≠ rootInode
  | .spawn | .go _ => True

/-- One task of the list goes on. -/
theorem set_perm {x : Task} {k : Nat} (hx : y.tasks[k]? = some x) :
    ∃ ops hs, y.pending.Perm (x.todo ++ ops) ∧ y.held.Perm (x.held ++ hs) ∧ ∀ s x',
      (pending (D := D) ⟨s, y.tasks.set k x'⟩).Perm (x'.todo ++ ops) ∧
      (held (D := D) ⟨s, y.tasks.set k x'⟩).Perm (x'.held ++ hs) := by
  obtain ⟨hk, rfl⟩ := List.getElem?_eq_some_iff.1 hx
  have hself := (List.getElem_cons_eraseIdx_perm hk).symm
  refine ⟨(y.tasks.eraseIdx k).flatMap Task.todo, (y.tasks.eraseIdx k).flatMap Task.held,
    hself.flatMap_right _, hself.flatMap_right _, fun s x' => ?_⟩
  have hset := List.set_perm_cons_eraseIdx hk x'
  exact ⟨hset.flatMap_right _, hset.flatMap_right _⟩

/-- The invariant. -/
def Parted (E : Env D) (base : Nat → Nat) (y : Tasks D) : Prop :=
  ∃ l d t, Parts E base y.state y.pending y.held l d t

theorem Parted.step {base : Nat → Nat} {a : Turn} (h : y.Parted E base) (hone : State.OneRef E)
    (hroot : State.NoRoot E) (hgentle : y.Gentle a) (hrun : y.step E a = some y') :
    y'.Parted E base := by
  obtain ⟨l, d, t, h⟩ := h
  cases a with
  | spawn =>
    cases hrun
    refine ⟨l, d, t, ?_⟩
    simpa [pending, held] using h
  | traverse k path =>
    obtain ⟨x, hx, hrun⟩ := Option.bind_eq_some_iff.1 hrun
    obtain ⟨htodo, hrun⟩ := Option.ite_none_right_eq_some.1 hrun
    obtain ⟨⟨s, r⟩, htraverse, hrun⟩ := Option.bind_eq_some_iff.1 hrun
    obtain ⟨l', h'⟩ := h.traverse hone hroot hgentle.1 hgentle.2 htraverse
    cases r with
    | error e =>
      cases hrun
      exact ⟨l', d, t, h'⟩
    | ok obj =>
      cases hrun
      obtain ⟨ops, hs, hops, hhs, hset⟩ := set_perm hx
      obtain ⟨hops', hhs'⟩ := hset s ⟨[], obj :: x.held⟩
      rw [htodo] at hops
      exact ⟨l', d, t, h'.perm (hops.trans hops'.symm) ((hhs.cons obj).trans hhs'.symm)⟩
  | release k obj =>
    obtain ⟨x, hx, hrun⟩ := Option.bind_eq_some_iff.1 hrun
    obtain ⟨⟨htodo, hobj⟩, hrun⟩ := Option.ite_none_right_eq_some.1 hrun
    cases hrun
    obtain ⟨ops, hs, hops, hhs, hset⟩ := set_perm hx
    obtain ⟨hops', hhs'⟩ := hset y.state ⟨[.decrement obj], x.held.erase obj⟩
    rw [htodo] at hops
    have hperm := hhs.trans ((List.perm_cons_erase hobj).append_right hs)
    have hbase : base obj = 0 := by
      by_contra hne
      obtain ⟨i, hi, hnum⟩ := h.base_of_root (Nat.pos_of_ne_zero hne)
      exact hgentle i hi hnum
    exact ⟨l, d, t, ((h.perm hops hperm).release hbase).perm hops'.symm hhs'.symm⟩
  | go k =>
    obtain ⟨x, hx, hrun⟩ := Option.bind_eq_some_iff.1 hrun
    obtain ⟨ops, hs, hops, hhs, hset⟩ := set_perm hx
    cases htodo : x.todo with
    | nil =>
      rw [htodo] at hrun
      cases hrun
    | cons op rest =>
      rw [htodo] at hrun
      rw [htodo, List.cons_append] at hops
      obtain ⟨⟨s, more⟩, hexec, hrun⟩ := Option.bind_eq_some_iff.1 hrun
      cases hrun
      obtain ⟨hops', hhs'⟩ := hset s ⟨more ++ rest, x.held⟩
      obtain ⟨l', d', t', h'⟩ := (h.perm hops hhs).exec hexec
      rw [← List.append_assoc] at h'
      exact ⟨l', d', t', h'.perm hops'.symm hhs'.symm⟩

theorem Reachable.parted (hone : State.OneRef E) (hroot : State.NoRoot E)
    (h : y.Reachable E Gentle) : ∃ base, y.Parted E base := by
  obtain ⟨s, hboots, hrun⟩ := h
  obtain ⟨base, hparts⟩ := hboots.parts hone
  refine ⟨base, ?_⟩
  induction hrun with
  | refl => exact ⟨_, _, _, hparts⟩
  | tail _ hmove ih =>
    obtain ⟨a, ha, hs⟩ := hmove
    exact ih.step hone hroot ha hs

/-- As long as no task traverses while another one has an inode without references to remove, or one
with almost `2 ^ 31` of them, and no root is released, traversals take references to live inodes
only, and what a task holds is not freed. -/
theorem Reachable.safe (hone : State.OneRef E) (hroot : State.NoRoot E)
    (h : y.Reachable E Gentle) : y.Safe E Gentle := by
  obtain ⟨base, l, d, t, h⟩ := h.parted hone hroot
  refine ⟨fun a ha => ?_, fun k path hclear s fs n curr hgets => ?_⟩
  · obtain ⟨i, -, hi⟩ := h.live_of_held ha
    exact ⟨i, hi⟩
  · exact h.gets_live hone hroot hclear.1 hclear.2 hgets

/-- The moves of a list. -/
def run (E : Env D) (ok : Tasks D → Turn → Prop) [∀ y a, Decidable (ok y a)] :
    List Turn → Tasks D → Option (Tasks D)
  | [], y => some y
  | a :: as, y => if ok y a then (y.step E a).bind (run E ok as) else none

theorem reachable_run {ok ok' : Tasks D → Turn → Prop} [∀ y a, Decidable (ok' y a)]
    (hok : ∀ y a, y.Reachable E ok → ok' y a → ok y a) {as : List Turn} (h : y.Reachable E ok)
    (hs : run E ok' as y = some y') : y'.Reachable E ok := by
  induction as generalizing y with
  | nil =>
    cases hs
    exact h
  | cons a as ih =>
    obtain ⟨ha, hs⟩ := Option.ite_none_right_eq_some.1 hs
    obtain ⟨y₁, hstep, hs⟩ := Option.bind_eq_some_iff.1 hs
    have hmove : Moves E ok y y₁ := ⟨a, hok y a h ha, hstep⟩
    obtain ⟨s, hboots, hrun⟩ := h
    exact ih ⟨s, hboots, hrun.tail hmove⟩ hs

/-- The moves of the example, where no inode has a number above 8. -/
def Quiet (y : Tasks D) : Turn → Prop
  | .traverse _ _ => y.pending = [] ∧ y.state.nextInode ≤ 8 ∧
      ∀ a < 8, ∀ i ∈ y.state.inodes a, i.iRc.toNat + 2 < 2 ^ 31
  | .release _ obj => ∀ i ∈ y.state.inodes obj, i.iNum ≠ rootInode
  | .spawn | .go _ => True

instance (y : Tasks D) : ∀ a, Decidable (y.Quiet a)
  | .traverse _ _ => inferInstanceAs (Decidable (_ ∧ _ ∧ _))
  | .release _ _ => inferInstanceAs (Decidable (∀ i ∈ _, _))
  | .spawn | .go _ => inferInstanceAs (Decidable True)

theorem Quiet.gentle (hone : State.OneRef E) (hroot : State.NoRoot E) {a : Turn}
    (hy : y.Reachable E Gentle) (h : y.Quiet a) : y.Gentle a := by
  cases a with
  | traverse k path =>
    obtain ⟨hnone, hnext, hroom⟩ := h
    obtain ⟨base, l, d, t, hparts⟩ := hy.parted hone hroot
    refine ⟨fun b hb => ?_, fun b i hi => ?_⟩
    · rw [hnone] at hb
      cases hb
    · by_cases hb : b < 8
      · exact hroom b hb i hi
      · rw [hparts.bound (by omega)] at hi
        cases hi
  | release k obj => exact fun i hi => h i hi
  | spawn => trivial
  | go k => trivial

/-- Two tasks have the inode of `/a`, and one of them releases it. -/
theorem safe_oneName : ∃ y : Tasks Unit, y.held = [1] ∧ y.state.Live 1 ∧
    y.Safe Client.oneName Gentle := by
  have hrun : ((State.empty.mount Client.oneName [slash] 0).bind fun s => run Client.oneName Quiet
      [.spawn, .spawn, .traverse 0 [slash, 0x61], .traverse 1 [slash, 0x61], .release 0 1, .go 0]
      ⟨s, []⟩).any (fun y => decide (y.held = [1])) = true := by
    decide +kernel
  obtain ⟨y, hy, hheld⟩ := (Option.any_eq_true _ _).1 hrun
  obtain ⟨s, hmount, hturns⟩ := Option.bind_eq_some_iff.1 hy
  have hreach : Reachable Client.oneName Gentle ⟨s, []⟩ :=
    ⟨s, .mount .empty (fun _ => rfl) hmount, .refl⟩
  have hsafe := (reachable_run (fun _ _ => Quiet.gentle (fun _ => rfl) Client.oneName_noRoot) hreach
    hturns).safe (fun _ => rfl)
    Client.oneName_noRoot
  have hone : y.held = [1] := of_decide_eq_true hheld
  exact ⟨y, hone, hsafe.held 1 (by simp [hone]), hsafe⟩

/-- Task 0 has dropped the count of `/a` to 0, and task 1 traverses `/a`. -/
theorem traverse_finds_dying : ¬ ∀ y : Tasks Unit, y.Reachable Client.oneName (fun _ _ => True) →
    y.Safe Client.oneName fun _ _ => True := by
  intro hclaim
  have hrun : ((State.empty.mount Client.oneName [slash] 0).bind fun s => run Client.oneName
      (fun _ _ => True) [.spawn, .spawn, .traverse 0 [slash, 0x61], .release 0 1, .go 0]
      ⟨s, []⟩).any
      (fun y => decide (y.state.mounts = [⟨[slash], 0⟩] ∧ y.state.table 0 rootInode = some 0 ∧
        (y.state.inodes 0).map Inode.iNum = some rootInode ∧ y.state.table 0 3 = some 1 ∧
        (y.state.inodes 1).map Inode.iRc = some 0)) = true := by
    decide +kernel
  obtain ⟨y, hy, hend⟩ := (Option.any_eq_true _ _).1 hrun
  obtain ⟨hmounts, hroot, hnum, hentry, hrc⟩ := of_decide_eq_true hend
  obtain ⟨s, hmount, hturns⟩ := Option.bind_eq_some_iff.1 hy
  have hreach : Reachable Client.oneName (fun _ _ => True) ⟨s, []⟩ :=
    ⟨s, .mount .empty (fun _ => rfl) hmount, .refl⟩
  have hsafe := hclaim y (reachable_run (fun _ _ _ _ => trivial) hreach hturns)
  obtain ⟨i, hi, hinum⟩ := Option.map_eq_some_iff.1 hnum
  have hfinds : y.state.Finds Client.oneName [0x61] 0 3 := by
    refine ⟨0x61, [], i, rfl, by decide, hi, ?_⟩
    simp only [Client.oneName, hinum]
    decide
  have hgets : y.state.Gets Client.oneName [slash, 0x61] y.state 0 3 0 := by
    refine ⟨0, [0x61], [0x61], ⟨⟨[slash], 0⟩, ?_, rfl, rfl, hroot⟩, .refl, hfinds⟩
    rw [hmounts]
    decide
  obtain ⟨j, hj, hpos⟩ := hsafe.found 1 [slash, 0x61] trivial y.state 0 3 0 hgets
  rw [hentry, Option.getD_some] at hj
  rw [hj] at hrc
  have hzero : j.iRc = 0 := Option.some.inj hrc
  rw [hzero] at hpos
  cases hpos

end Tasks

end TinyLittleOs.Fs
