import TinyLittleOs.Scheduler.Locks
import Mathlib.Logic.Relation

/-!
# Runs of the tasks

Each step keeps the invariant, as long as no task exits in front of a blocked one. So the scheduler
enters a blocked task in no other way, and mutexes exclude, hand over in order and lose no waiter.
-/


namespace TinyLittleOs.Scheduler

open Lib Function

variable {ι μ : Type} [DecidableEq ι] [DecidableEq μ]

namespace State

variable {s s' : State ι μ} {idle : ι} {l : List ι} {Q : μ → List ι} {t : ι} {m : μ} {p : Pc μ}
  {fuel : Nat}

/-! ## The steps -/

omit [DecidableEq ι] [DecidableEq μ] in
theorem Inv.owner_of_waiting (h : s.Inv idle l Q) (hm : s.pc s.currentTask = .waiting m) :
    s.mOwner m = some s.currentTask := by
  refine h.locks.handed _ m ?_ (h.resumed m hm)
  rw [hm]
  exact Or.inr (Or.inr rfl)

omit [DecidableEq ι] [DecidableEq μ] in
/-- The idle task calls nothing. -/
theorem Inv.ne_idle (h : s.Inv idle l Q) (hpc : s.pc t ≠ .outside) : t ≠ idle := by
  rintro rfl
  exact hpc h.runQueue.idle

omit [DecidableEq μ] in
/-- The current task goes on, on its own stack. -/
theorem Inv.goOn {Q' : μ → List ι} (h : s.Inv idle l Q) (hoff : ¬ s.OnFreeStack)
    (hne : s.currentTask ≠ idle) (hp : p.Linked) (hscheduling : s'.scheduling = s.scheduling)
    (hcurrent : s'.currentTask = s.currentTask) (hfree : s'.freeStack = s.freeStack)
    (hpc : s'.pc = update s.pc s.currentTask p) (hcritical : p.Critical → 0 < s'.preemptCounter)
    (hlocks : s'.Locks Q') (hresumed : ∀ m, p = .waiting m → s.currentTask ∉ Q' m) :
    s'.Inv idle l Q' := by
  have hrun := h.runQueue.setPc h.runQueue.current hne hp
  refine ⟨⟨?_, ?_, ?_, ?_⟩, hlocks, ?_, ?_⟩
  · rw [hscheduling]
    exact hrun.ring
  · rw [hcurrent]
    exact hrun.current
  · rw [hpc]
    exact hrun.linked
  · rw [hpc]
    exact hrun.idle
  · refine h.preempting.goOn hcurrent hfree (fun t ht => ?_) (fun hc => ⟨hoff, ?_⟩)
      fun hon => absurd hon hoff
    · rw [hpc, update_of_ne ht]
    · rw [hpc, update_self] at hc
      exact hcritical hc
  · rw [hcurrent, hpc, update_self]
    exact hresumed

omit [DecidableEq ι] [DecidableEq μ] in
theorem preemptDown_eq_some : s.preemptDown = some s' ↔
    0 < s.preemptCounter ∧ s' = { s with preemptCounter := s.preemptCounter - 1 } := by
  rw [State.preemptDown]
  split
  · rename_i h0
    simp [h0]
  · rename_i h0
    simp [Nat.pos_of_ne_zero h0, eq_comm]

theorem pickNextTask_eq_some : s.pickNextTask fuel = some s' ↔
    ∃ t, s.pickLoop fuel s.currentTask = some t ∧ s' = { s with currentTask := t } := by
  simp only [State.pickNextTask, Option.bind_eq_bind, Option.bind_eq_some_iff, Option.some.injEq,
    @eq_comm _ _ s']

theorem yield_eq_some : s.yield fuel = some s' ↔
    s.preemptCounter = 0 ∧ s.pickNextTask fuel = some s' := by
  simp [State.yield]

/-- A switch to the task that the search finds. -/
theorem pickNextTask_inv (hrun : s.RunQueue idle l) (hlocks : s.Locks Q) (hpre : s.Preempting)
    (h0 : s.preemptCounter = 0) (hs : s.pickNextTask fuel = some s') :
    s'.Inv idle l Q ∧ ¬ s'.IsBlocked s'.currentTask := by
  obtain ⟨t, ht, rfl⟩ := pickNextTask_eq_some.1 hs
  have hfree := pickLoop_not_blocked ht
  refine ⟨⟨⟨hrun.ring, pickLoop_mem hrun.ring hrun.current ht, hrun.linked, hrun.idle⟩,
    hlocks.frame rfl rfl rfl rfl rfl rfl, ⟨fun t' hc => ?_, fun t' hd => ?_⟩, fun m hw hm => ?_⟩,
    hfree⟩
  · have := (hpre.current t' hc).2.2
    omega
  · have := (hpre.down t' hd).2
    omega
  · exact hfree (hlocks.isBlocked_iff.2 ⟨m, hm⟩)

theorem Inv.tryLock (h : s.Inv idle l Q) (hoff : ¬ s.OnFreeStack)
    (hpc : s.pc s.currentTask = .lock m) (hs : s.tryLock m = some s') :
    ∃ Q', s'.Inv idle l Q' := by
  have hne : s.currentTask ≠ idle := h.ne_idle (by simp [hpc])
  have hwaits : ∀ m, ¬ (s.pc s.currentTask).Waits m := by simp [hpc, Pc.Waits]
  have hcounter := (h.preempting.current s.currentTask (by simp [hpc, Pc.Critical])).2.2
  rw [State.tryLock] at hs
  split at hs
  · cases hs
  · split at hs
    · rename_i hm
      cases hs
      exact ⟨Q, h.goOn hoff hne (by simp [Pc.Linked]) rfl rfl rfl rfl (fun _ => hcounter)
        (h.locks.takeFree hm hwaits) (by simp)⟩
    · rename_i hm
      cases hs
      exact ⟨_, h.goOn hoff hne (by simp [Pc.Linked]) rfl rfl rfl rfl (fun _ => hcounter)
        (h.locks.blockOn hm hwaits) (by simp)⟩

theorem Inv.tryUnlock (h : s.Inv idle l Q) (hoff : ¬ s.OnFreeStack)
    (hpc : s.pc s.currentTask = .unlock m) (hs : s.tryUnlock m = some s') :
    ∃ Q', s'.Inv idle l Q' := by
  have hne : s.currentTask ≠ idle := h.ne_idle (by simp [hpc])
  have hcounter := (h.preempting.current s.currentTask (by simp [hpc, Pc.Critical])).2.2
  rw [State.tryUnlock] at hs
  split at hs
  · rename_i hm
    split at hs
    · rename_i hlonely
      cases hs
      exact ⟨Q, h.goOn hoff hne (by simp [Pc.Linked]) rfl rfl rfl rfl (fun _ => hcounter)
        (h.locks.leave hm hpc (h.locks.queues.lonely_mutex.1 hlonely)) (by simp)⟩
    · rename_i hlonely
      obtain ⟨w, q, hq⟩ := List.exists_cons_of_ne_nil (mt h.locks.queues.lonely_mutex.2 hlonely)
      rw [h.locks.queues.next_mutex hq] at hs
      dsimp only at hs
      split at hs
      · cases hs
        exact ⟨_, h.goOn hoff hne (by simp [Pc.Linked]) rfl rfl rfl rfl (fun _ => hcounter)
          (h.locks.handOver hm hpc hq) (by simp)⟩
      · cases hs
  · cases hs

omit [DecidableEq μ] in
/-- The exiting task leaves the run queue, and the next one is entered. -/
theorem Inv.finalize (h : s.Inv idle l Q) (hpc : s.pc s.currentTask = .exiting)
    (hnext : ¬ s.IsBlocked (s.scheduling.next s.currentTask)) : ∃ l', s.finalize.Inv idle l' Q := by
  have hne : s.currentTask ≠ idle := h.ne_idle (by simp [hpc])
  have hmem : s.currentTask ∈ l := (List.mem_cons.1 h.runQueue.current).resolve_left hne
  have hcritical := h.preempting.current s.currentTask (by simp [hpc, Pc.Critical])
  obtain ⟨a, b, rfl⟩ := List.append_of_mem hmem
  have hring := h.runQueue.ring
  have hnodup := hring.nodup
  have hother : s.scheduling.next s.currentTask ∈ idle :: (a ++ b) := by
    have hmem := hring.rotate.next_mem
    have hself : ¬ s.scheduling.Lonely s.currentTask := by simp [hring.rotate.lonely_iff]
    rw [List.mem_cons] at hmem
    rcases hmem with hbad | hmem
    · exact absurd hbad hself
    · simp only [List.mem_append, List.mem_cons] at hmem ⊢
      tauto
  have hfinal : s.finalize.pc = update s.pc s.currentTask .dead := rfl
  refine ⟨a ++ b, ⟨⟨hring.unlink, hother, fun t => ?_, ?_⟩, ?_, ⟨fun t hc => ?_, fun t hd => ?_⟩,
    fun m hw hm => ?_⟩⟩
  · rw [hfinal]
    by_cases ht : t = s.currentTask
    · subst ht
      have hout : s.currentTask ∉ idle :: (a ++ b) := by
        rw [List.nodup_cons, List.nodup_append, List.nodup_cons] at hnodup
        simp only [List.mem_cons, List.mem_append, not_or] at hnodup ⊢
        exact ⟨hne, fun ha => hnodup.2.2.2 _ ha _ (Or.inl rfl) rfl, hnodup.2.2.1.1⟩
      simp [hout, Pc.Linked]
    · rw [update_of_ne ht, ← h.runQueue.linked t]
      simp [ht]
  · rw [hfinal, update_of_ne (Ne.symm hne)]
    exact h.runQueue.idle
  · have hdead := h.locks.setPc_of_not_waits (t := s.currentTask) (p := .dead)
      (by simp [hpc, Pc.Waits]) (by simp [Pc.Waits]) (by simp) (by simp)
    exact hdead.frame rfl rfl rfl rfl rfl rfl
  · rw [hfinal] at hc
    by_cases ht : t = s.currentTask
    · subst ht
      rw [update_self] at hc
      exact hc.elim
    · rw [update_of_ne ht] at hc
      exact absurd (h.preempting.current t hc).1 ht
  · cases hd
    exact ⟨rfl, hcritical.2.2⟩
  · exact hnext (h.locks.isBlocked_iff.2 ⟨m, hm⟩)

omit [DecidableEq ι] [DecidableEq μ] in
/-- On `stack_free_stack`. -/
theorem Inv.runFree {f : FreePc} (h : s.Inv idle l Q) (hon : s.OnFreeStack)
    (hs : s.runFree f = some s') : s'.Inv idle l Q := by
  have hquiet : ∀ t, ¬ (s.pc t).Critical := fun t hc => (h.preempting.current t hc).2.1 hon
  have hrun := h.runQueue
  cases f with
  | down =>
    rw [State.runFree] at hs
    obtain ⟨s₁, hdown, hs⟩ := Option.bind_eq_some_iff.1 hs
    obtain ⟨-, rfl⟩ := preemptDown_eq_some.1 hdown
    cases hs
    exact ⟨⟨hrun.ring, hrun.current, hrun.linked, hrun.idle⟩,
      h.locks.frame rfl rfl rfl rfl rfl rfl,
      ⟨fun t hc => absurd hc (hquiet t), fun t hd => by cases hd⟩, h.resumed⟩
  | enter =>
    cases hs
    exact ⟨⟨hrun.ring, hrun.current, hrun.linked, hrun.idle⟩,
      h.locks.frame rfl rfl rfl rfl rfl rfl,
      ⟨fun t hc => absurd hc (hquiet t), fun t hd => by cases hd⟩, h.resumed⟩

omit [DecidableEq μ] in
/-- A new task comes behind the current one. -/
theorem Inv.linkTask (h : s.Inv idle l Q) (hfree : s.Free idle) (ht : s.pc t = .unborn) :
    ∃ l', Inv idle l' Q
      ({ s with scheduling := s.scheduling.addAfterSelf s.currentTask t }.setPc t .outside) := by
  have hout : t ∉ idle :: l := by
    rw [h.runQueue.linked, ht]
    simp [Pc.Linked]
  have hne : t ≠ s.currentTask := by
    rintro rfl
    exact hout h.runQueue.current
  have hidle : t ≠ idle := by
    rintro rfl
    exact hout List.mem_cons_self
  obtain ⟨k, hk, hperm⟩ := h.runQueue.ring.at_mem h.runQueue.current
  have hadded := hk.addAfterSelf (mt hperm.mem_iff.1 hout)
  have hstart : idle ∈ s.currentTask :: t :: k := by
    have hmem := hperm.mem_iff.2 (List.mem_cons_self (a := idle) (l := l))
    simp only [List.mem_cons] at hmem ⊢
    tauto
  obtain ⟨l', hl', hperm'⟩ := hadded.at_mem hstart
  have hmem : ∀ t', t' ∈ idle :: l' ↔ t' = t ∨ t' ∈ idle :: l := by
    intro t'
    rw [hperm'.mem_iff, ← hperm.mem_iff]
    simp only [List.mem_cons]
    tauto
  have hlocks := h.locks.setPc_of_not_waits (t := t) (p := .outside) (by simp [ht, Pc.Waits])
    (by simp [Pc.Waits]) (by simp) (by simp)
  refine ⟨l', ⟨⟨hl', ?_, fun t' => ?_, ?_⟩, ?_, ?_, fun m hw => ?_⟩⟩
  · exact (hmem _).2 (Or.inr h.runQueue.current)
  · rw [hmem]
    by_cases he : t' = t
    · subst he
      simp [State.setPc, Pc.Linked]
    · simp only [State.setPc, update_of_ne he, he, false_or]
      exact h.runQueue.linked t'
  · simp only [State.setPc, update_of_ne (Ne.symm hidle)]
    exact h.runQueue.idle
  · exact hlocks.frame rfl rfl rfl rfl rfl rfl
  · refine ⟨fun t' hc => ?_, h.preempting.down⟩
    by_cases he : t' = t
    · subst he
      simp [State.setPc, Pc.Critical] at hc
    · simp only [State.setPc, update_of_ne he] at hc
      exact h.preempting.current t' hc
  · simp only [State.setPc, update_of_ne (Ne.symm hne), hfree.1] at hw
    cases hw

/-- The rest of the call in which the current task is. -/
theorem Inv.run (h : s.Inv idle l Q)
    (hexit : ¬ s.OnFreeStack → s.pc s.currentTask = .exiting →
      ¬ s.IsBlocked (s.scheduling.next s.currentTask))
    (hs : s.run fuel = some s') : ∃ l' Q', s'.Inv idle l' Q' := by
  rw [State.run] at hs
  split at hs
  · rename_i hon
    obtain ⟨f, -, hs⟩ := Option.bind_eq_some_iff.1 hs
    exact ⟨l, Q, h.runFree hon hs⟩
  rename_i hoff
  split at hs
  · rename_i m hpc
    exact ⟨l, h.tryLock hoff hpc hs⟩
  · rename_i m hpc
    obtain ⟨s₁, hdown, hs⟩ := Option.bind_eq_some_iff.1 hs
    obtain ⟨-, rfl⟩ := preemptDown_eq_some.1 hdown
    cases hs
    have hholds := h.locks.setHolds_true (h.locks.locked _ m hpc) (by simp [hpc])
    have hout := hholds.setPc_of_not_waits (t := s.currentTask) (p := .outside)
      (by simp [State.setHolds, hpc, Pc.Waits]) (by simp [Pc.Waits]) (by simp) (by simp)
    exact ⟨l, Q, h.goOn hoff (h.ne_idle (by simp [hpc])) (by simp [Pc.Linked]) rfl rfl rfl rfl
      False.elim (hout.frame rfl rfl rfl rfl rfl rfl) (by simp)⟩
  · rename_i m hpc
    obtain ⟨s₁, hdown, hs⟩ := Option.bind_eq_some_iff.1 hs
    obtain ⟨-, rfl⟩ := preemptDown_eq_some.1 hdown
    cases hs
    have hlocks := h.locks.setWaits (t := s.currentTask) (m := m) (Or.inl hpc) (Or.inr (Or.inl rfl))
    exact ⟨l, Q, h.goOn hoff (h.ne_idle (by simp [hpc])) (by simp [Pc.Linked]) rfl rfl rfl rfl
      False.elim (hlocks.frame rfl rfl rfl rfl rfl rfl) (by simp)⟩
  · rename_i m hpc
    obtain ⟨h0, hs⟩ := yield_eq_some.1 hs
    have hlocks := h.locks.setWaits (t := s.currentTask) (m := m) (Or.inr (Or.inl hpc))
      (Or.inr (Or.inr rfl))
    have hrun := h.runQueue.setPc h.runQueue.current (h.ne_idle (by simp [hpc]))
      (p := .waiting m) (by simp [Pc.Linked])
    have hpre : (s.setPc s.currentTask (.waiting m)).Preempting := by
      refine h.preempting.goOn rfl rfl (fun t ht => update_of_ne ht ..) (fun hc => ?_)
        fun _ => Nat.le_refl _
      simp [State.setPc, Pc.Critical] at hc
    exact ⟨l, Q, (pickNextTask_inv hrun hlocks hpre h0 hs).1⟩
  · rename_i m hpc
    split at hs
    · rename_i hm
      cases hs
      have hholds := h.locks.setHolds_true hm (by simp [hpc])
      have hout := hholds.setPc (t := s.currentTask) (p := .outside) (fun m' hm' => ?_)
        (by simp [Pc.Waits]) (by simp) (by simp)
      · exact ⟨l, Q, h.goOn hoff (h.ne_idle (by simp [hpc])) (by simp [Pc.Linked]) rfl rfl rfl rfl
          False.elim (hout.frame rfl rfl rfl rfl rfl rfl) (by simp)⟩
      · have hw := h.locks.waits _ m' hm'
        obtain rfl : m' = m := by simpa [hpc, Pc.Waits, eq_comm] using hw
        exact absurd hm' (h.resumed m' hpc)
    · cases hs
  · rename_i m hpc
    exact ⟨l, h.tryUnlock hoff hpc hs⟩
  · rename_i m hpc
    obtain ⟨s₁, hdown, hs⟩ := Option.bind_eq_some_iff.1 hs
    obtain ⟨-, rfl⟩ := preemptDown_eq_some.1 hdown
    cases hs
    have hlocks := h.locks.setPc_of_not_waits (t := s.currentTask) (p := .outside)
      (by simp [hpc, Pc.Waits]) (by simp [Pc.Waits]) (by simp) (by simp)
    exact ⟨l, Q, h.goOn hoff (h.ne_idle (by simp [hpc])) (by simp [Pc.Linked]) rfl rfl rfl rfl
      False.elim (hlocks.frame rfl rfl rfl rfl rfl rfl) (by simp)⟩
  · rename_i hpc
    cases hs
    obtain ⟨l', h'⟩ := h.finalize hpc (hexit hoff hpc)
    exact ⟨l', Q, h'⟩
  all_goals cases hs

/-- The next task in the ring may run, when a task exits, and `stack_free_stack` is not in use. -/
def ExitsWell (s : State ι μ) (a : Action ι μ) : Prop :=
  a = .run → ¬ s.OnFreeStack → s.pc s.currentTask = .exiting →
    ¬ s.IsBlocked (s.scheduling.next s.currentTask) ∧ s.freeStack = none

instance (s : State ι μ) (a : Action ι μ) : Decidable (s.ExitsWell a) :=
  inferInstanceAs (Decidable (_ → _ → _ → _))

omit [DecidableEq μ] in
/-- A task in code of its own goes into a function, behind `preempt_up`. -/
theorem Inv.call (h : s.Inv idle l Q) (hfree : s.Free idle) (hp : p.Linked)
    (hlocks : (s.setPc s.currentTask p).Locks Q) (hwaits : ∀ m, ¬ p.Waits m) :
    (s.preemptUp.setPc s.currentTask p).Inv idle l Q := by
  refine h.goOn hfree.2.1 hfree.2.2 hp rfl rfl rfl rfl (fun _ => Nat.succ_pos _)
    (hlocks.frame rfl rfl rfl rfl rfl rfl) ?_
  rintro m rfl
  exact absurd (Or.inr (Or.inr rfl)) (hwaits m)

omit [DecidableEq μ] in
theorem Inv.setCounter (h : s.Inv idle l Q) (hfree : s.Free idle) (n : Nat) :
    Inv idle l Q { s with preemptCounter := n } := by
  refine h.goOn (p := .outside) hfree.2.1 hfree.2.2 (by simp [Pc.Linked]) rfl rfl rfl ?_
    False.elim (h.locks.frame rfl rfl rfl rfl rfl rfl) (by simp)
  rw [← hfree.1, update_eq_self]

theorem Inv.step {a : Action ι μ} (h : s.Inv idle l Q) (hexit : s.ExitsWell a)
    (hs : s.step idle fuel a = some s') : ∃ l' Q', s'.Inv idle l' Q' := by
  have hwaits : s.Free idle → ∀ m, ¬ (s.pc s.currentTask).Waits m := by
    intro hfree
    simp [hfree.1, Pc.Waits]
  cases a with
  | tick =>
    rw [State.step] at hs
    split at hs
    · rename_i h0
      exact ⟨l, Q, (pickNextTask_inv h.runQueue h.locks h.preempting h0 hs).1⟩
    · cases hs
      exact ⟨l, Q, h⟩
  | run => exact h.run (fun hoff hpc => (hexit rfl hoff hpc).1) hs
  | preemptUp =>
    obtain ⟨hfree, hs⟩ := Option.ite_none_right_eq_some.1 hs
    cases hs
    exact ⟨l, Q, h.setCounter hfree _⟩
  | preemptDown =>
    obtain ⟨hfree, hs⟩ := Option.ite_none_right_eq_some.1 hs
    obtain ⟨-, rfl⟩ := preemptDown_eq_some.1 hs
    exact ⟨l, Q, h.setCounter hfree _⟩
  | yield =>
    obtain ⟨hfree, hs⟩ := Option.ite_none_right_eq_some.1 hs
    obtain ⟨h0, hs⟩ := yield_eq_some.1 hs
    exact ⟨l, Q, (pickNextTask_inv h.runQueue h.locks h.preempting h0 hs).1⟩
  | lock m =>
    obtain ⟨hfree, hs⟩ := Option.ite_none_right_eq_some.1 hs
    cases hs
    have hlocks := h.locks.setPc_of_not_waits (p := .lock m) (hwaits hfree) (by simp [Pc.Waits])
      (by simp) (by simp)
    exact ⟨l, Q, h.call hfree (by simp [Pc.Linked]) hlocks (by simp [Pc.Waits])⟩
  | unlock m =>
    obtain ⟨hfree, hs⟩ := Option.ite_none_right_eq_some.1 hs
    cases hs
    have hlocks := (h.locks.setHolds_false (t := s.currentTask) (m := m)).setPc_of_not_waits
      (p := .unlock m) (hwaits hfree) (by simp [Pc.Waits]) (by simp)
      (by simp [State.setHolds])
    exact ⟨l, Q, h.goOn hfree.2.1 hfree.2.2 (by simp [Pc.Linked]) rfl rfl rfl rfl
      (fun _ => Nat.succ_pos _) (hlocks.frame rfl rfl rfl rfl rfl rfl) (by simp)⟩
  | linkTask t =>
    obtain ⟨⟨hfree, ht⟩, hs⟩ := Option.ite_none_right_eq_some.1 hs
    cases hs
    obtain ⟨l', h'⟩ := h.linkTask hfree ht
    exact ⟨l', Q, h'⟩
  | exit =>
    obtain ⟨hfree, hs⟩ := Option.ite_none_right_eq_some.1 hs
    cases hs
    have hlocks := h.locks.setPc_of_not_waits (p := .exiting) (hwaits hfree) (by simp [Pc.Waits])
      (by simp) (by simp)
    exact ⟨l, Q, h.call hfree (by simp [Pc.Linked]) hlocks (by simp [Pc.Waits])⟩

omit [DecidableEq μ] in
theorem Start.inv (h : s.Start idle l) : s.Inv idle l fun _ => [] := by
  have hpc : ∀ t, s.pc t = .outside ∨ s.pc t = .unborn := by
    intro t
    by_cases ht : t ∈ idle :: l
    · exact Or.inl (h.linked t ht)
    · exact Or.inr (h.unborn t ht)
  refine ⟨⟨h.ring, h.current, fun t => ?_, h.linked idle List.mem_cons_self⟩,
    ⟨⟨fun m => h.alone _, fun t _ => h.alone _, ?_⟩, fun m => ?_, ?_, fun t m hw => ?_,
      fun t m hl => ?_, fun t m hh => absurd hh (h.holds t m), fun t m hu => ?_, fun _ _ => rfl⟩,
    ⟨fun t hc => ?_, fun t hd => ?_⟩, ?_⟩
  · by_cases ht : t ∈ idle :: l
    · simp [ht, h.linked t ht, Pc.Linked]
    · simp [ht, h.unborn t ht, Pc.Linked]
  · simp
  · rw [h.blocked, h.handed, List.append_nil]
  · simp
  · rcases hpc t with he | he <;> simp [he, Pc.Waits] at hw
  · rcases hpc t with he | he <;> simp [he] at hl
  · rcases hpc t with he | he <;> simp [he] at hu
  · rcases hpc t with he | he <;> simp [he, Pc.Critical] at hc
  · rw [h.freeStack] at hd
    cases hd
  · simp

/-- A step that meets a condition. -/
def Moves (idle : ι) (ok : State ι μ → Action ι μ → Prop) (s s' : State ι μ) : Prop :=
  ∃ a fuel, ok s a ∧ s.step idle fuel a = some s'

/-- The states of the runs whose steps all meet a condition. -/
def Reachable (idle : ι) (ok : State ι μ → Action ι μ → Prop) (s : State ι μ) : Prop :=
  ∃ l s₀, State.Start idle l s₀ ∧ Relation.ReflTransGen (Moves idle ok) s₀ s

theorem Reachable.inv {ok : State ι μ → Action ι μ → Prop} (h : s.Reachable idle ok)
    (hok : ∀ s a, ok s a → s.ExitsWell a) : ∃ l Q, s.Inv idle l Q := by
  obtain ⟨l, s₀, hstart, hrun⟩ := h
  induction hrun with
  | refl => exact ⟨l, _, hstart.inv⟩
  | tail _ hmove ih =>
    obtain ⟨l', Q, hinv⟩ := ih
    obtain ⟨a, fuel, ha, hs⟩ := hmove
    exact hinv.step (hok _ a ha) hs

/-- The steps of a list. -/
def steps (idle : ι) (ok : State ι μ → Action ι μ → Prop) [∀ s a, Decidable (ok s a)]
    (fuel : Nat) : List (Action ι μ) → State ι μ → Option (State ι μ)
  | [], s => some s
  | a :: as, s =>
    if ok s a then (s.step idle fuel a).bind (steps idle ok fuel as) else none

theorem reachable_steps {ok : State ι μ → Action ι μ → Prop} [∀ s a, Decidable (ok s a)]
    {as : List (Action ι μ)} (h : s.Reachable idle ok)
    (hs : steps idle ok fuel as s = some s') : s'.Reachable idle ok := by
  induction as generalizing s with
  | nil =>
    cases hs
    exact h
  | cons a as ih =>
    obtain ⟨ha, hs⟩ := Option.ite_none_right_eq_some.1 hs
    obtain ⟨s₁, hstep, hs⟩ := Option.bind_eq_some_iff.1 hs
    obtain ⟨l, s₀, hstart, hrun⟩ := h
    exact ih ⟨l, s₀, hstart, hrun.tail ⟨a, fuel, ha, hstep⟩⟩ hs

/-! ## Which tasks are selected -/

/-- The steps that make another task the current one. -/
def Switches (s : State ι μ) : Action ι μ → Prop
  | .tick => s.preemptCounter = 0
  | .yield => True
  | .run => ¬ s.OnFreeStack ∧
      (s.pc s.currentTask = .exiting ∨ ∃ m, s.pc s.currentTask = .yielding m)
  | _ => False

theorem pickNextTask_not_blocked (h : s.pickNextTask fuel = some s') :
    ¬ s'.IsBlocked s'.currentTask := by
  obtain ⟨t, ht, rfl⟩ := pickNextTask_eq_some.1 h
  have hfree : ¬ s.IsBlocked t := pickLoop_not_blocked ht
  exact hfree

/-- As long as tasks exit in front of tasks that may run, every switch is to a task that may run,
and a task goes on behind its `yield` in `lock` as the owner. -/
theorem Reachable.switch_not_blocked (h : s.Reachable idle ExitsWell) :
    (∀ a fuel s', s.ExitsWell a → s.step idle fuel a = some s' → s.Switches a →
      ¬ s'.IsBlocked s'.currentTask) ∧
    ∀ m, s.pc s.currentTask = .waiting m → s.mOwner m = some s.currentTask := by
  obtain ⟨l, Q, hinv⟩ := h.inv fun _ _ ha => ha
  refine ⟨fun a fuel s' ha hs hswitch => ?_, fun m hm => hinv.owner_of_waiting hm⟩
  cases a with
  | tick =>
    have h0 : s.preemptCounter = 0 := hswitch
    rw [State.step, if_pos h0] at hs
    exact pickNextTask_not_blocked hs
  | yield =>
    obtain ⟨-, hs⟩ := Option.ite_none_right_eq_some.1 hs
    exact pickNextTask_not_blocked (yield_eq_some.1 hs).2
  | run =>
    obtain ⟨hoff, hpc | ⟨m, hpc⟩⟩ := hswitch
    · rw [State.step, State.run, if_neg hoff, hpc] at hs
      cases hs
      exact (ha rfl hoff hpc).1
    · rw [State.step, State.run, if_neg hoff, hpc] at hs
      exact pickNextTask_not_blocked (yield_eq_some.1 hs).2
  | _ => exact hswitch.elim

/-- The boot code has linked the tasks 1, 2, ..., `n` behind the idle task 0. -/
def booted (n : Nat) : State (Fin (n + 1)) Unit where
  scheduling := ⟨fun t => t + 1, fun t => t - 1⟩
  blocking := .alone
  mOwner := fun _ => none
  preemptCounter := 0
  currentTask := 0
  pc := fun _ => .outside
  freeStack := none
  holds := fun _ _ => False
  blocked := fun _ => []
  handed := fun _ => []

theorem booted_start : (booted 3).Start 0 [1, 2, 3] := by
  refine ⟨⟨by decide, ?_⟩, fun n => ⟨by simp, rfl, rfl⟩, fun _ => rfl, rfl, by decide,
    fun _ _ => rfl, fun t => ?_, rfl, fun _ _ => id, fun _ => rfl, fun _ => rfl⟩
  · simp only [Rings.Path]
    decide
  · revert t
    decide

theorem booted_reachable (ok : State (Fin 4) Unit → Action (Fin 4) Unit → Prop) :
    (booted 3).Reachable 0 ok := ⟨_, _, booted_start, .refl⟩

/-- Task 2 waited for task 1, which has exited since, and goes on. -/
theorem booted_switch :
    ∃ s s' : State (Fin 4) Unit, s.pc 1 = .dead ∧ s.pc s.currentTask = .waiting () ∧
    s.mOwner () = some s.currentTask ∧ s.step 0 9 .tick = some s' ∧
    ¬ s'.IsBlocked s'.currentTask := by
  have hrun : ((steps 0 ExitsWell 9 [.tick, .lock (), .run, .run, .tick, .lock (), .run, .run, .run,
      .tick, .tick, .unlock (), .run, .run, .exit, .run, .run, .run] (booted 3)).any fun s =>
      decide (
      s.pc 1 = .dead ∧ s.pc s.currentTask = .waiting () ∧ s.preemptCounter = 0 ∧
      (s.step 0 9 .tick).isSome)) = true := by
    decide +kernel
  obtain ⟨s, hs, hend⟩ := (Option.any_eq_true _ _).1 hrun
  obtain ⟨hdead, hpc, h0, hsome⟩ := of_decide_eq_true hend
  obtain ⟨s', hs'⟩ := Option.isSome_iff_exists.1 hsome
  obtain ⟨hswitch, howner⟩ :=
    Reachable.switch_not_blocked (reachable_steps (booted_reachable ExitsWell) hs)
  refine ⟨s, s', hdead, hpc, howner () hpc, hs', hswitch .tick 9 s' ?_ hs' h0⟩
  intro hrun
  cases hrun

/-- Task 1 takes the mutex, task 2 blocks on it, and task 1 exits. -/
theorem switch_blocked : ¬ ∀ (s s' : State (Fin 4) Unit) (a : Action (Fin 4) Unit) (fuel : Nat),
    s.Reachable 0 (fun _ _ => True) → s.step 0 fuel a = some s' → s.Switches a →
      ¬ s'.IsBlocked s'.currentTask := by
  intro hclaim
  have hrun : ((steps 0 (fun _ _ => True) 9 [.tick, .lock (), .run, .run, .tick, .lock (), .run,
      .run, .run, .tick, .tick, .exit] (booted 3)).any fun s => decide (¬ s.OnFreeStack ∧
      s.pc s.currentTask = .exiting ∧ s.finalize.IsBlocked s.finalize.currentTask)) = true := by
    decide +kernel
  obtain ⟨s, hs, hend⟩ := (Option.any_eq_true _ _).1 hrun
  obtain ⟨hoff, hpc, hblocked⟩ := of_decide_eq_true hend
  refine hclaim s s.finalize .run 0 (reachable_steps (booted_reachable _) hs) ?_ ⟨hoff, Or.inl hpc⟩
    hblocked
  rw [State.step, State.run, if_neg hoff, hpc]

/-! ## Mutexes -/

/-- What the callers may do: `lock` is called by others than the owner, where preemption is
possible, `unlock` by the owner, and no task exits. -/
def Allowed (idle : ι) (s : State ι μ) : Action ι μ → Prop
  | .tick => True
  | .run => s.pc s.currentTask ≠ .outside
  | .preemptUp => s.Free idle
  | .preemptDown => s.Free idle ∧ 0 < s.preemptCounter
  | .yield => s.Free idle ∧ s.preemptCounter = 0
  | .lock m => s.Free idle ∧ s.preemptCounter = 0 ∧ s.mOwner m ≠ some s.currentTask
  | .unlock m => s.Free idle ∧ s.mOwner m = some s.currentTask
  | .linkTask t => s.Free idle ∧ s.pc t = .unborn
  | .exit => False

instance (idle : ι) (s : State ι μ) : (a : Action ι μ) → Decidable (s.Allowed idle a)
  | .tick => inferInstanceAs (Decidable True)
  | .run => inferInstanceAs (Decidable (_ ≠ _))
  | .preemptUp => inferInstanceAs (Decidable (s.Free idle))
  | .preemptDown => inferInstanceAs (Decidable (_ ∧ _))
  | .yield => inferInstanceAs (Decidable (_ ∧ _))
  | .lock _ => inferInstanceAs (Decidable (_ ∧ _ ∧ _))
  | .unlock _ => inferInstanceAs (Decidable (_ ∧ _))
  | .linkTask _ => inferInstanceAs (Decidable (_ ∧ _))
  | .exit => inferInstanceAs (Decidable False)

/-- What the callers established for the current task, at its place. -/
def CalledWell (s : State ι μ) : Pc μ → Prop
  | .lock m => s.preemptCounter = 1 ∧ s.mOwner m ≠ some s.currentTask
  | .blocking _ => s.preemptCounter = 1
  | .yielding _ => s.preemptCounter = 0
  | .unlock m => s.mOwner m = some s.currentTask
  | .exiting => False
  | .unborn | .outside | .locked _ | .waiting _ | .unlocked _ | .dead => True

structure Orderly (s : State ι μ) : Prop where
  current : s.CalledWell (s.pc s.currentTask)
  freeStack : s.freeStack = none

omit [DecidableEq ι] [DecidableEq μ] in
theorem Orderly.off (h : s.Orderly) : ¬ s.OnFreeStack := by
  rw [OnFreeStack, h.freeStack]
  simp

omit [DecidableEq ι] [DecidableEq μ] in
/-- Where preemption is possible, the current task is in no critical region. -/
theorem Inv.orderly (h : s.Inv idle l Q) (h0 : s.preemptCounter = 0) (hfree : s.freeStack = none) :
    s.Orderly := by
  have hquiet : ¬ (s.pc s.currentTask).Critical := by
    intro hc
    have := (h.preempting.current _ hc).2.2
    omega
  refine ⟨?_, hfree⟩
  cases hpc : s.pc s.currentTask with
  | yielding m => exact h0
  | lock m => simp [hpc, Pc.Critical] at hquiet
  | blocking m => simp [hpc, Pc.Critical] at hquiet
  | unlock m => simp [hpc, Pc.Critical] at hquiet
  | exiting => simp [hpc, Pc.Critical] at hquiet
  | _ => trivial

omit [DecidableEq ι] [DecidableEq μ] in
theorem Orderly.exitsWell {a : Action ι μ} (h : s.Orderly) : s.ExitsWell a := by
  intro _ _ hpc
  have hcurrent := h.current
  rw [hpc] at hcurrent
  exact hcurrent.elim

/-- After a switch. -/
theorem Inv.orderly_pick {s₁ : State ι μ} (h : s'.Inv idle l Q) (h0 : s₁.preemptCounter = 0)
    (hfree : s₁.freeStack = none) (hs : s₁.pickNextTask fuel = some s') : s'.Orderly := by
  obtain ⟨t, -, rfl⟩ := pickNextTask_eq_some.1 hs
  exact h.orderly h0 hfree

omit [DecidableEq μ] in
/-- The current task goes on at a place where nothing is asked of it. -/
theorem Orderly.setPc {s₁ : State ι μ} (hfree : s₁.freeStack = none)
    (hp : (s₁.setPc s₁.currentTask p).CalledWell p) : (s₁.setPc s₁.currentTask p).Orderly := by
  refine ⟨?_, hfree⟩
  have hpc : (s₁.setPc s₁.currentTask p).pc (s₁.setPc s₁.currentTask p).currentTask = p :=
    update_self ..
  rw [hpc]
  exact hp

theorem Orderly.run (h : s.Orderly) (hinv' : s'.Inv idle l Q)
    (hs : s.run fuel = some s') : s'.Orderly := by
  have hcurrent := h.current
  rw [State.run, if_neg h.off] at hs
  cases hpc : s.pc s.currentTask with
  | lock m =>
    rw [hpc] at hs hcurrent
    dsimp only [State.tryLock] at hs
    rw [if_neg hcurrent.2] at hs
    split at hs <;> cases hs
    · exact Orderly.setPc h.freeStack trivial
    · exact Orderly.setPc h.freeStack hcurrent.1
  | locked m =>
    rw [hpc] at hs
    obtain ⟨s₁, hdown, hs⟩ := Option.bind_eq_some_iff.1 hs
    obtain ⟨-, rfl⟩ := preemptDown_eq_some.1 hdown
    cases hs
    exact Orderly.setPc h.freeStack trivial
  | blocking m =>
    rw [hpc] at hs hcurrent
    obtain ⟨s₁, hdown, hs⟩ := Option.bind_eq_some_iff.1 hs
    obtain ⟨-, rfl⟩ := preemptDown_eq_some.1 hdown
    cases hs
    have h1 : s.preemptCounter = 1 := hcurrent
    have h0 : s.preemptCounter - 1 = 0 := by omega
    exact Orderly.setPc h.freeStack h0
  | yielding m =>
    rw [hpc] at hs
    obtain ⟨h0, hs⟩ := yield_eq_some.1 hs
    exact hinv'.orderly_pick h0 h.freeStack hs
  | waiting m =>
    rw [hpc] at hs
    obtain ⟨-, hs⟩ := Option.ite_none_right_eq_some.1 hs
    cases hs
    exact Orderly.setPc h.freeStack trivial
  | unlock m =>
    rw [hpc] at hs hcurrent
    have hm : s.mOwner m = some s.currentTask := hcurrent
    dsimp only [State.tryUnlock] at hs
    rw [if_pos hm] at hs
    split at hs
    · cases hs
      exact Orderly.setPc h.freeStack trivial
    · split at hs
      · cases hs
      · obtain ⟨-, hs⟩ := Option.ite_none_right_eq_some.1 hs
        cases hs
        exact Orderly.setPc h.freeStack trivial
  | unlocked m =>
    rw [hpc] at hs
    obtain ⟨s₁, hdown, hs⟩ := Option.bind_eq_some_iff.1 hs
    obtain ⟨-, rfl⟩ := preemptDown_eq_some.1 hdown
    cases hs
    exact Orderly.setPc h.freeStack trivial
  | exiting =>
    rw [hpc] at hcurrent
    exact hcurrent.elim
  | _ =>
    rw [hpc] at hs
    cases hs

theorem Orderly.step {a : Action ι μ} (h : s.Orderly) (hinv : s.Inv idle l Q)
    (ha : s.Allowed idle a) (hs : s.step idle fuel a = some s') :
    ∃ l' Q', s'.Inv idle l' Q' ∧ s'.Orderly := by
  obtain ⟨l', Q', hinv'⟩ := hinv.step h.exitsWell hs
  refine ⟨l', Q', hinv', ?_⟩
  cases a with
  | tick =>
    rw [State.step] at hs
    split at hs
    · rename_i h0
      exact hinv'.orderly_pick h0 h.freeStack hs
    · cases hs
      exact h
  | run => exact h.run hinv' hs
  | preemptUp =>
    obtain ⟨hfree, hs⟩ := Option.ite_none_right_eq_some.1 hs
    cases hs
    exact ⟨by simp [State.preemptUp, hfree.1, CalledWell], h.freeStack⟩
  | preemptDown =>
    obtain ⟨hfree, hs⟩ := Option.ite_none_right_eq_some.1 hs
    obtain ⟨-, rfl⟩ := preemptDown_eq_some.1 hs
    exact ⟨by simp [hfree.1, CalledWell], h.freeStack⟩
  | yield =>
    obtain ⟨hfree, hs⟩ := Option.ite_none_right_eq_some.1 hs
    obtain ⟨h0, hs⟩ := yield_eq_some.1 hs
    exact hinv'.orderly_pick h0 h.freeStack hs
  | lock m =>
    obtain ⟨hfree, hs⟩ := Option.ite_none_right_eq_some.1 hs
    cases hs
    have h1 : s.preemptCounter + 1 = 1 := by rw [ha.2.1]
    exact Orderly.setPc h.freeStack ⟨h1, ha.2.2⟩
  | unlock m =>
    obtain ⟨hfree, hs⟩ := Option.ite_none_right_eq_some.1 hs
    cases hs
    exact Orderly.setPc h.freeStack ha.2
  | linkTask t =>
    obtain ⟨⟨hfree, ht⟩, hs⟩ := Option.ite_none_right_eq_some.1 hs
    cases hs
    have hne : s.currentTask ≠ t := by
      rintro rfl
      rw [hfree.1] at ht
      cases ht
    exact ⟨by simp [State.setPc, update_of_ne hne, hfree.1, CalledWell], h.freeStack⟩
  | exit => exact ha.elim

omit [DecidableEq ι] [DecidableEq μ] in
theorem Start.orderly (h : s.Start idle l) : s.Orderly := by
  refine ⟨?_, h.freeStack⟩
  rw [h.linked _ h.current]
  trivial

theorem Reachable.orderly (h : s.Reachable idle (Allowed idle)) :
    ∃ l Q, s.Inv idle l Q ∧ s.Orderly := by
  obtain ⟨l, s₀, hstart, hrun⟩ := h
  induction hrun with
  | refl => exact ⟨l, _, hstart.inv, hstart.orderly⟩
  | tail _ hmove ih =>
    obtain ⟨l', Q, hinv, horderly⟩ := ih
    obtain ⟨a, fuel, ha, hs⟩ := hmove
    exact horderly.step hinv ha hs

/-! ### The next step is always possible -/

/-- The idle task may always run. -/
theorem exists_pick (hrun : s.RunQueue idle l) (hlocks : s.Locks Q) (hfuel : l.length < fuel) :
    ∃ s', s.pickNextTask fuel = some s' := by
  have hidle : ¬ s.IsBlocked idle := by
    rw [hlocks.isBlocked_iff]
    rintro ⟨m, hm⟩
    have hw := hlocks.waits idle m hm
    simp [hrun.idle, Pc.Waits] at hw
  obtain ⟨t, ht⟩ := exists_pickLoop hrun.ring hrun.current List.mem_cons_self hidle hfuel
  exact ⟨_, pickNextTask_eq_some.2 ⟨t, ht, rfl⟩⟩

omit [DecidableEq ι] [DecidableEq μ] in
theorem exists_preemptDown (h : 0 < s.preemptCounter) : ∃ s', s.preemptDown = some s' :=
  ⟨_, preemptDown_eq_some.2 ⟨h, rfl⟩⟩

theorem Inv.exists_run (h : s.Inv idle l Q) (ho : s.Orderly) (hfuel : l.length < fuel)
    (ha : s.pc s.currentTask ≠ .outside) : ∃ s', s.run fuel = some s' := by
  have hcurrent := ho.current
  have hcritical := h.preempting.current s.currentTask
  rw [State.run, if_neg ho.off]
  cases hpc : s.pc s.currentTask with
  | lock m =>
    rw [hpc] at hcurrent
    dsimp only [State.tryLock]
    rw [if_neg hcurrent.2]
    split <;> exact ⟨_, rfl⟩
  | locked m =>
    obtain ⟨s₁, hs₁⟩ := exists_preemptDown (hcritical (by simp [hpc, Pc.Critical])).2.2
    simp [hs₁]
  | blocking m =>
    obtain ⟨s₁, hs₁⟩ := exists_preemptDown (hcritical (by simp [hpc, Pc.Critical])).2.2
    simp [hs₁]
  | yielding m =>
    rw [hpc] at hcurrent
    have hlocks := h.locks.setWaits (p := .waiting m) (Or.inr (Or.inl hpc)) (Or.inr (Or.inr rfl))
    have hrun := h.runQueue.setPc h.runQueue.current (h.ne_idle (by simp [hpc]))
      (p := .waiting m) (by simp [Pc.Linked])
    obtain ⟨s₁, hs₁⟩ := exists_pick hrun hlocks hfuel
    exact ⟨s₁, yield_eq_some.2 ⟨hcurrent, hs₁⟩⟩
  | waiting m =>
    have hm := h.owner_of_waiting hpc
    simp [hm]
  | unlock m =>
    rw [hpc] at hcurrent
    have hm : s.mOwner m = some s.currentTask := hcurrent
    dsimp only [State.tryUnlock]
    rw [if_pos hm]
    split
    · exact ⟨_, rfl⟩
    · rename_i hlonely
      obtain ⟨w, q, hq⟩ := List.exists_cons_of_ne_nil (mt h.locks.queues.lonely_mutex.2 hlonely)
      have hw : s.IsBlocked w := by
        rw [h.locks.isBlocked_iff]
        exact ⟨m, by simp [hq]⟩
      rw [h.locks.queues.next_mutex hq]
      dsimp only
      rw [if_pos hw]
      exact ⟨_, rfl⟩
  | unlocked m =>
    obtain ⟨s₁, hs₁⟩ := exists_preemptDown (hcritical (by simp [hpc, Pc.Critical])).2.2
    simp [hs₁]
  | exiting =>
    rw [hpc] at hcurrent
    exact hcurrent.elim
  | outside => exact absurd hpc ha
  | _ =>
    have hlinked := (h.runQueue.linked _).1 h.runQueue.current
    simp [hpc, Pc.Linked] at hlinked

theorem Inv.exists_step {a : Action ι μ} (h : s.Inv idle l Q) (ho : s.Orderly)
    (ha : s.Allowed idle a) (hfuel : l.length < fuel) : ∃ s', s.step idle fuel a = some s' := by
  cases a with
  | tick =>
    rw [State.step]
    split
    · exact exists_pick h.runQueue h.locks hfuel
    · exact ⟨s, rfl⟩
  | run => exact h.exists_run ho hfuel ha
  | preemptUp => exact ⟨_, if_pos ha⟩
  | preemptDown =>
    obtain ⟨s', hs'⟩ := exists_preemptDown ha.2
    exact ⟨s', (if_pos ha.1).trans hs'⟩
  | yield =>
    obtain ⟨s', hs'⟩ := exists_pick h.runQueue h.locks hfuel
    exact ⟨s', (if_pos ha.1).trans (yield_eq_some.2 ⟨ha.2, hs'⟩)⟩
  | lock m => exact ⟨_, if_pos ha.1⟩
  | unlock m => exact ⟨_, if_pos ha.1⟩
  | linkTask t => exact ⟨_, if_pos ha⟩
  | exit => exact ha.elim

/-- Mutexes exclude. A task that waited goes on as the owner, the waiters are handed the mutex in
the order in which they blocked, a mutex with waiters has an owner, and no `kassert` fails. -/
theorem Reachable.mutex_sound (h : s.Reachable idle (Allowed idle)) :
    (∀ m t t', s.holds t m → s.holds t' m → t = t') ∧
    (∀ m, s.pc s.currentTask = .waiting m → s.mOwner m = some s.currentTask) ∧
    (∀ m, ∃ waiters, s.blocked m = s.handed m ++ waiters ∧
      s.blocking.Cycle (.mutex m) (waiters.map .task)) ∧
    (∀ m, s.mOwner m = none → s.blocking.Lonely (.mutex m) ∧ ∀ t, ¬ (s.pc t).Waits m) ∧
    ∀ a, s.Allowed idle a → ∃ n, ∀ fuel, n ≤ fuel → ∃ s', s.step idle fuel a = some s' := by
  obtain ⟨l, Q, hinv, horderly⟩ := h.orderly
  have hlocks := hinv.locks
  refine ⟨fun m t t' ht ht' => ?_, fun m hm => hinv.owner_of_waiting hm,
    fun m => ⟨Q m, hlocks.order m, hlocks.queues.cycle m⟩, fun m hm => ⟨?_, fun t hw => ?_⟩,
    fun a ha => ⟨l.length + 1, fun fuel hfuel => hinv.exists_step horderly ha hfuel⟩⟩
  · have howner := (hlocks.holds t m ht).symm.trans (hlocks.holds t' m ht')
    exact Option.some.inj howner
  · exact hlocks.queues.lonely_mutex.2 (hlocks.owner m hm)
  · have hout : t ∉ Q m := by simp [hlocks.owner m hm]
    have howner := hlocks.handed t m hw hout
    rw [hm] at howner
    cases howner

/-- Tasks 2 and 3 wait for task 1, and task 2 goes on. -/
theorem booted_mutex : ∃ s : State (Fin 4) Unit, s.currentTask = 2 ∧
    s.mOwner () = some s.currentTask ∧ s.IsBlocked 3 ∧
    ∃ waiters, s.blocked () = s.handed () ++ waiters := by
  have hrun :
      ((steps 0 (Allowed 0) 9 [.tick, .lock (), .run, .run, .tick, .lock (), .run, .run, .run,
      .lock (), .run, .run, .run, .tick, .unlock (), .run, .run, .tick] (booted 3)).any fun s =>
      decide (s.currentTask = 2 ∧ s.pc s.currentTask = .waiting () ∧ s.IsBlocked 3)) = true := by
    decide +kernel
  obtain ⟨s, hs, hend⟩ := (Option.any_eq_true _ _).1 hrun
  obtain ⟨hcurrent, hpc, hblocked⟩ := of_decide_eq_true hend
  have hsound := Reachable.mutex_sound (reachable_steps (booted_reachable (Allowed 0)) hs)
  obtain ⟨waiters, hwaiters, -⟩ := hsound.2.2.1 ()
  exact ⟨s, hcurrent, hsound.2.1 () hpc, hblocked, waiters, hwaiters⟩

end State

end TinyLittleOs.Scheduler
