import TinyLittleOs.Scheduler.TaskRuns

/-!
# Locks where preemption is forbidden

What one step of the scheduler can do, for callers that may have raised the preemption counter. The
owner of a mutex is a task that has called `lock`, and has not called `unlock` yet.
-/


namespace TinyLittleOs.Scheduler

open Lib Function

variable {ι μ : Type} [DecidableEq ι] [DecidableEq μ]

/-- How often the functions of the scheduler have raised the counter. -/
def Pc.depth : Pc μ → Nat
  | .lock _ | .locked _ | .blocking _ | .unlock _ | .unlocked _ | .exiting => 1
  | .unborn | .outside | .yielding _ | .waiting _ | .dead => 0

omit [DecidableEq μ] in
theorem Pc.depth_eq_zero {p : Pc μ} (h : ¬ p.Critical) : p.depth = 0 := by
  cases p <;> simp_all [Pc.Critical, Pc.depth]

namespace State

variable {s s' : State ι μ} {idle t : ι} {l : List ι} {Q : μ → List ι} {m : μ}
  {p : Pc μ} {fuel : Nat}

/-- Where a task in `lock` or `unlock` goes next, other than to `yield`. -/
inductive Follows (s : State ι μ) : Pc μ → Pc μ → Prop
  | take {m : μ} : s.mOwner m = none → Follows s (.lock m) (.locked m)
  | block {m : μ} {t : ι} : s.mOwner m = some t → t ≠ s.currentTask →
      Follows s (.lock m) (.blocking m)
  | locked {m : μ} : Follows s (.locked m) .outside
  | yield {m : μ} : Follows s (.blocking m) (.yielding m)
  | wake {m : μ} : Follows s (.waiting m) .outside
  | unlock {m : μ} : Follows s (.unlock m) (.unlocked m)
  | unlocked {m : μ} : Follows s (.unlocked m) .outside

/-- The current task goes on to `p`. -/
structure GoesOn (s s' : State ι μ) (p : Pc μ) : Prop where
  follows : s.Follows (s.pc s.currentTask) p
  current : s'.currentTask = s.currentTask
  pc : s'.pc = update s.pc s.currentTask p
  freeStack : s'.freeStack = s.freeStack
  counter : s'.preemptCounter + (s.pc s.currentTask).depth = s.preemptCounter + p.depth

/-- The current task calls `yield`, and `t` runs. -/
structure SwitchesTo (s s' : State ι μ) (t : ι) : Prop where
  yielding : ∃ m, s.pc s.currentTask = .yielding m ∧ s'.pc = update s.pc s.currentTask (.waiting m)
  current : s'.currentTask = t
  freeStack : s'.freeStack = s.freeStack
  zero : s.preemptCounter = 0
  counter : s'.preemptCounter = 0

theorem run_cases (hoff : ¬ s.OnFreeStack) (hexit : s.pc s.currentTask ≠ .exiting)
    (h : s.run fuel = some s') : (∃ p, s.GoesOn s' p) ∨ ∃ t, s.SwitchesTo s' t := by
  rw [State.run, if_neg hoff] at h
  cases hpc : s.pc s.currentTask with
  | lock m =>
    rw [hpc] at h
    dsimp only [State.tryLock] at h
    split at h
    · cases h
    · rename_i hself
      split at h <;> cases h
      · rename_i hm
        exact .inl ⟨.locked m, hpc ▸ .take hm, rfl, rfl, rfl, hpc ▸ rfl⟩
      · rename_i hm
        obtain ⟨t, ht⟩ := Option.ne_none_iff_exists'.1 hm
        have hne : t ≠ s.currentTask := fun he => hself (he ▸ ht)
        exact .inl ⟨.blocking m, hpc ▸ .block ht hne, rfl, rfl, rfl, hpc ▸ rfl⟩
  | locked m =>
    rw [hpc] at h
    obtain ⟨s₁, hdown, h⟩ := Option.bind_eq_some_iff.1 h
    obtain ⟨hpos, rfl⟩ := preemptDown_eq_some.1 hdown
    cases h
    refine .inl ⟨.outside, hpc ▸ .locked, rfl, rfl, rfl, ?_⟩
    rw [hpc]
    exact Nat.sub_add_cancel hpos
  | blocking m =>
    rw [hpc] at h
    obtain ⟨s₁, hdown, h⟩ := Option.bind_eq_some_iff.1 h
    obtain ⟨hpos, rfl⟩ := preemptDown_eq_some.1 hdown
    cases h
    refine .inl ⟨.yielding m, hpc ▸ .yield, rfl, rfl, rfl, ?_⟩
    rw [hpc]
    exact Nat.sub_add_cancel hpos
  | yielding m =>
    rw [hpc] at h
    obtain ⟨h0, h⟩ := yield_eq_some.1 h
    obtain ⟨t, -, rfl⟩ := pickNextTask_eq_some.1 h
    exact .inr ⟨t, ⟨m, hpc, rfl⟩, rfl, rfl, h0, h0⟩
  | waiting m =>
    rw [hpc] at h
    obtain ⟨-, h⟩ := Option.ite_none_right_eq_some.1 h
    cases h
    exact .inl ⟨.outside, hpc ▸ .wake, rfl, rfl, rfl, hpc ▸ rfl⟩
  | unlock m =>
    rw [hpc] at h
    dsimp only [State.tryUnlock] at h
    obtain ⟨hm, h⟩ := Option.ite_none_right_eq_some.1 h
    split at h
    · cases h
      exact .inl ⟨.unlocked m, hpc ▸ .unlock, rfl, rfl, rfl, hpc ▸ rfl⟩
    · split at h
      · cases h
      · obtain ⟨-, h⟩ := Option.ite_none_right_eq_some.1 h
        cases h
        exact .inl ⟨.unlocked m, hpc ▸ .unlock, rfl, rfl, rfl, hpc ▸ rfl⟩
  | unlocked m =>
    rw [hpc] at h
    obtain ⟨s₁, hdown, h⟩ := Option.bind_eq_some_iff.1 h
    obtain ⟨hpos, rfl⟩ := preemptDown_eq_some.1 hdown
    cases h
    refine .inl ⟨.outside, hpc ▸ .unlocked, rfl, rfl, rfl, ?_⟩
    rw [hpc]
    exact Nat.sub_add_cancel hpos
  | exiting => exact absurd hpc hexit
  | _ =>
    rw [hpc] at h
    cases h

/-- The timer switches where preemption is possible. -/
theorem tick_cases (h : s.step idle fuel .tick = some s') :
    s' = s ∨ s.preemptCounter = 0 ∧ ∃ t, s' = { s with currentTask := t } := by
  rw [State.step] at h
  split at h
  · rename_i h0
    obtain ⟨t, -, rfl⟩ := pickNextTask_eq_some.1 h
    exact .inr ⟨h0, t, rfl⟩
  · exact .inl (Option.some.inj h).symm

/-! ## Owners -/

/-- Between the `block_on` or the return of `lock` and the hand-over in `unlock`. -/
def Inside (s : State ι μ) (t : ι) (m : μ) : Prop :=
  s.holds t m ∨ (s.pc t).Waits m ∨ s.pc t = .locked m ∨ s.pc t = .unlock m

def Owned (s : State ι μ) : Prop := ∀ m t, s.mOwner m = some t → s.Inside t m

omit [DecidableEq ι] [DecidableEq μ] in
theorem Inside.congr (h : s.Inside t m) (hholds : s'.holds t m ↔ s.holds t m)
    (hpc : s'.pc t = s.pc t) : s'.Inside t m := by
  rw [Inside, hholds, hpc]
  exact h

omit [DecidableEq μ] in
/-- A task that is in no function of the scheduler goes into one. -/
theorem Owned.setPc_of_holds (h : s.Owned) (hholds : ∀ m, s.mOwner m = some t → s.holds t m) :
    (s.setPc t p).Owned := by
  intro m t' hm
  by_cases he : t' = t
  · rw [he] at hm ⊢
    exact .inl (hholds m hm)
  · exact (h m t' hm).congr Iff.rfl (update_of_ne he ..)

omit [DecidableEq ι] [DecidableEq μ] in
/-- The owner of a mutex in code where it is not in `lock` or `unlock` of it. -/
theorem Owned.holds (h : s.Owned) (hm : s.mOwner m = some t) (hwaits : ¬ (s.pc t).Waits m)
    (hlocked : s.pc t ≠ .locked m) (hunlock : s.pc t ≠ .unlock m) : s.holds t m := by
  rcases h m t hm with hh | hw | hl | hu
  · exact hh
  · exact absurd hw hwaits
  · exact absurd hl hlocked
  · exact absurd hu hunlock

omit [DecidableEq ι] [DecidableEq μ] in
theorem Owned.congr (h : s.Owned) (howner : s'.mOwner = s.mOwner) (hholds : s'.holds = s.holds)
    (hpc : s'.pc = s.pc) : s'.Owned := by
  intro m t hm
  rw [howner] at hm
  exact (h m t hm).congr (by rw [hholds]) (by rw [hpc])

/-- The current task gets to be the owner. -/
theorem Owned.setHolds (h : s.Owned) (hpc : ∀ m', s.mOwner m' = some t → m' ≠ m → s.holds t m') :
    ((s.setHolds t m True).setPc t p).Owned := by
  intro m' t' hm
  by_cases he : t' = t
  · rw [he] at hm ⊢
    refine .inl ?_
    by_cases hmm : m' = m
    · simp [State.setPc, State.setHolds, hmm]
    · simp only [State.setPc, State.setHolds, hmm, and_false, if_false]
      exact hpc m' hm hmm
  · refine (h m' t' hm).congr ?_ (update_of_ne he ..)
    simp [State.setPc, State.setHolds, he]

omit [DecidableEq ι] [DecidableEq μ] in
/-- The owner of another mutex than the one that the task is at. -/
theorem Owned.holds_of_ne (h : s.Owned) {m' : μ} (hm : s.mOwner m' = some t) (hne : m' ≠ m)
    (hpc : s.pc t = .lock m ∨ (s.pc t).Waits m ∨ s.pc t = .locked m ∨ s.pc t = .unlock m ∨
      s.pc t = .unlocked m) : s.holds t m' := by
  rcases hpc with he | (he | he | he) | he | he | he <;>
    refine h.holds hm ?_ ?_ ?_ <;> simp [he, Pc.Waits, Ne.symm hne]

/-- A task that waits goes on waiting. -/
theorem Owned.setWaits (h : s.Owned) (hpc : (s.pc t).Waits m) (hp : p.Waits m) :
    (s.setPc t p).Owned := by
  intro m' t' hm
  by_cases he : t' = t
  · rw [he] at hm ⊢
    by_cases hmm : m' = m
    · rw [hmm]
      have hself : (s.setPc t p).pc t = p := update_self ..
      refine .inr (.inl ?_)
      rwa [hself]
    · exact .inl (h.holds_of_ne hm hmm (.inr (.inl hpc)))
  · exact (h m' t' hm).congr Iff.rfl (update_of_ne he ..)

theorem Owned.tryLock (h : s.Owned) (hpc : s.pc s.currentTask = .lock m)
    (hs : s.tryLock m = some s') : s'.Owned := by
  have hholds (m' : μ) (hm : s.mOwner m' = some s.currentTask) : s.holds s.currentTask m' := by
    refine h.holds hm ?_ ?_ ?_ <;> simp [hpc, Pc.Waits]
  rw [State.tryLock] at hs
  split at hs
  · cases hs
  split at hs <;> cases hs
  · intro m' t hm
    by_cases hmm : m' = m
    · rw [hmm] at hm ⊢
      obtain rfl : s.currentTask = t := by
        simpa [State.setPc] using hm
      exact .inr (.inr (.inl (update_self ..)))
    · have hm' : s.mOwner m' = some t := by
        simpa only [State.setPc, update_of_ne hmm] using hm
      by_cases ht : t = s.currentTask
      · rw [ht] at hm' ⊢
        exact .inl (hholds m' hm')
      · exact (h m' t hm').congr Iff.rfl (update_of_ne ht ..)
  · have hblocked : (s.blockOn m).Owned := h.congr rfl rfl rfl
    exact hblocked.setPc_of_holds hholds

theorem Inv.tryUnlock_owned (hinv : s.Inv idle l Q) (h : s.Owned)
    (hpc : s.pc s.currentTask = .unlock m) (hs : s.tryUnlock m = some s') : s'.Owned := by
  have hkeep {m' : μ} {t : ι} (hmm : m' ≠ m) (hm : s.mOwner m' = some t) {s₁ : State ι μ}
      (hholds : s₁.holds = s.holds) (hpc₁ : s₁.pc = update s.pc s.currentTask (.unlocked m)) :
      s₁.Inside t m' := by
    by_cases ht : t = s.currentTask
    · rw [ht] at hm ⊢
      refine .inl ?_
      rw [hholds]
      exact h.holds_of_ne hm hmm (.inr (.inr (.inr (.inl hpc))))
    · refine (h m' t hm).congr (by rw [hholds]) ?_
      rw [hpc₁]
      exact update_of_ne ht ..
  rw [State.tryUnlock] at hs
  obtain ⟨-, hs⟩ := Option.ite_none_right_eq_some.1 hs
  split at hs
  · cases hs
    intro m' t hm
    by_cases hmm : m' = m
    · rw [hmm] at hm
      simp [State.setPc] at hm
    · refine hkeep hmm ?_ rfl rfl
      simpa only [State.setPc, update_of_ne hmm] using hm
  · rename_i hlonely
    obtain ⟨w, q, hq⟩ := List.exists_cons_of_ne_nil
      (mt hinv.locks.queues.lonely_mutex.2 hlonely)
    rw [hinv.locks.queues.next_mutex hq] at hs
    obtain ⟨-, hs⟩ := Option.ite_none_right_eq_some.1 hs
    cases hs
    intro m' t hm
    by_cases hmm : m' = m
    · -- the first waiter is the owner now
      rw [hmm] at hm ⊢
      obtain rfl : w = t := by
        simpa [State.setPc] using hm
      have hw : (s.pc w).Waits m := hinv.locks.waits w m (by simp [hq])
      have hne : w ≠ s.currentTask := by
        rintro rfl
        simp [hpc, Pc.Waits] at hw
      refine .inr (.inl ?_)
      simpa only [State.setPc, update_of_ne hne] using hw
    · refine hkeep hmm ?_ rfl rfl
      simpa only [State.setPc, update_of_ne hmm] using hm

theorem Inv.run_owned (hinv : s.Inv idle l Q) (h : s.Owned) (hoff : ¬ s.OnFreeStack)
    (hexit : s.pc s.currentTask ≠ .exiting) (hs : s.run fuel = some s') : s'.Owned := by
  rw [State.run, if_neg hoff] at hs
  cases hpc : s.pc s.currentTask with
  | lock m =>
    rw [hpc] at hs
    exact h.tryLock hpc hs
  | locked m =>
    rw [hpc] at hs
    obtain ⟨s₁, hdown, hs⟩ := Option.bind_eq_some_iff.1 hs
    obtain ⟨-, rfl⟩ := preemptDown_eq_some.1 hdown
    cases hs
    have hdown : Owned { s with preemptCounter := s.preemptCounter - 1 } := h.congr rfl rfl rfl
    exact hdown.setHolds fun m' hm hne => h.holds_of_ne hm hne (.inr (.inr (.inl hpc)))
  | blocking m =>
    rw [hpc] at hs
    obtain ⟨s₁, hdown, hs⟩ := Option.bind_eq_some_iff.1 hs
    obtain ⟨-, rfl⟩ := preemptDown_eq_some.1 hdown
    cases hs
    have hdown : Owned { s with preemptCounter := s.preemptCounter - 1 } := h.congr rfl rfl rfl
    exact hdown.setWaits (.inl hpc) (.inr (.inl rfl))
  | yielding m =>
    rw [hpc] at hs
    obtain ⟨-, hs⟩ := yield_eq_some.1 hs
    obtain ⟨t, -, rfl⟩ := pickNextTask_eq_some.1 hs
    have hwaits := h.setWaits (p := .waiting m) (.inr (.inl hpc)) (.inr (.inr rfl))
    exact hwaits.congr rfl rfl rfl
  | waiting m =>
    rw [hpc] at hs
    obtain ⟨-, hs⟩ := Option.ite_none_right_eq_some.1 hs
    cases hs
    exact h.setHolds fun m' hm hne => h.holds_of_ne hm hne (.inr (.inl (hpc ▸ .inr (.inr rfl))))
  | unlock m =>
    rw [hpc] at hs
    exact hinv.tryUnlock_owned h hpc hs
  | unlocked m =>
    rw [hpc] at hs
    obtain ⟨s₁, hdown, hs⟩ := Option.bind_eq_some_iff.1 hs
    obtain ⟨-, rfl⟩ := preemptDown_eq_some.1 hdown
    cases hs
    have hdown : Owned { s with preemptCounter := s.preemptCounter - 1 } := h.congr rfl rfl rfl
    refine hdown.setPc_of_holds fun m' hm => h.holds hm ?_ ?_ ?_ <;> simp [hpc, Pc.Waits]
  | exiting => exact absurd hpc hexit
  | _ =>
    rw [hpc] at hs
    cases hs

/-- The owners are right behind every step of a call of the file system. -/
theorem Inv.step_owned {a : Action ι μ} (hinv : s.Inv idle l Q) (h : s.Owned)
    (ha : a = .tick ∨ a = .run ∨ a = .preemptUp ∨ a = .preemptDown ∨ (∃ m, a = .lock m) ∨ ∃ m,
      a = .unlock m)
    (hoff : ¬ s.OnFreeStack) (hexit : s.pc s.currentTask ≠ .exiting)
    (hs : s.step idle fuel a = some s') : s'.Owned := by
  have hholds (hfree : s.Free idle) (m : μ) (hm : s.mOwner m = some s.currentTask) :
      s.holds s.currentTask m := by
    refine h.holds hm ?_ ?_ ?_ <;> simp [hfree.1, Pc.Waits]
  rcases ha with rfl | rfl | rfl | rfl | ⟨m, rfl⟩ | ⟨m, rfl⟩
  · rcases tick_cases hs with rfl | ⟨-, t, rfl⟩
    · exact h
    · exact h.congr rfl rfl rfl
  · exact hinv.run_owned h hoff hexit hs
  · obtain ⟨-, hs⟩ := Option.ite_none_right_eq_some.1 hs
    cases hs
    exact h.congr rfl rfl rfl
  · obtain ⟨-, hs⟩ := Option.ite_none_right_eq_some.1 hs
    obtain ⟨-, rfl⟩ := preemptDown_eq_some.1 hs
    exact h.congr rfl rfl rfl
  · obtain ⟨hfree, hs⟩ := Option.ite_none_right_eq_some.1 hs
    cases hs
    have hup : s.preemptUp.Owned := h.congr rfl rfl rfl
    exact hup.setPc_of_holds (hholds hfree)
  · obtain ⟨hfree, hs⟩ := Option.ite_none_right_eq_some.1 hs
    cases hs
    intro m' t hm
    by_cases ht : t = s.currentTask
    · rw [ht] at hm ⊢
      by_cases hmm : m' = m
      · rw [hmm]
        exact .inr (.inr (.inr (update_self ..)))
      · refine .inl ?_
        simp only [State.setPc, State.setHolds, hmm, and_false, if_false]
        exact hholds hfree m' hm
    · refine (h m' t hm).congr ?_ (update_of_ne ht ..)
      simp [State.setPc, State.setHolds, State.preemptUp, ht]

end State

end TinyLittleOs.Scheduler
