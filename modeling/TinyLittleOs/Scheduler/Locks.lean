import TinyLittleOs.Scheduler.Waiters

/-!
# The invariant of the tasks and the mutexes

Whatever the tasks do, the ring of a mutex holds the tasks that blocked on it and were not handed
it, each of them still in `lock`, and a task that left the ring is the owner. A task in a region
that forbids preemption is the current one.
-/


namespace TinyLittleOs.Scheduler

open Lib Function

variable {ι μ : Type}

namespace Pc

/-- Between `block_on` and the return of `lock`. -/
def Waits (m : μ) (p : Pc μ) : Prop := p = .blocking m ∨ p = .yielding m ∨ p = .waiting m

/-- Between `preempt_up` and `preempt_down`. -/
def Critical : Pc μ → Prop
  | .lock _ | .locked _ | .blocking _ | .unlock _ | .unlocked _ | .exiting => True
  | .unborn | .outside | .yielding _ | .waiting _ | .dead => False

/-- In the run queue. -/
def Linked (p : Pc μ) : Prop := p ≠ .unborn ∧ p ≠ .dead

end Pc

namespace State

variable [DecidableEq ι] [DecidableEq μ] {s s' : State ι μ} {idle : ι} {l : List ι}
  {Q : μ → List ι} {t : ι} {m : μ} {p : Pc μ} {fuel : Nat}

/-- The run queue is the ring of the tasks that were linked and have not exited. -/
structure RunQueue (idle : ι) (l : List ι) (s : State ι μ) : Prop where
  ring : s.scheduling.Cycle idle l
  current : s.currentTask ∈ idle :: l
  linked : ∀ t, t ∈ idle :: l ↔ (s.pc t).Linked
  idle : s.pc idle = .outside

/-- The owners and the waiters. -/
structure Locks (Q : μ → List ι) (s : State ι μ) : Prop where
  queues : Queues s.blocking Q
  order : ∀ m, s.blocked m = s.handed m ++ Q m
  waits : ∀ t m, t ∈ Q m → (s.pc t).Waits m
  handed : ∀ t m, (s.pc t).Waits m → t ∉ Q m → s.mOwner m = some t
  locked : ∀ t m, s.pc t = .locked m → s.mOwner m = some t
  holds : ∀ t m, s.holds t m → s.mOwner m = some t
  unlocking : ∀ t m, s.pc t = .unlock m → ¬ s.holds t m
  owner : ∀ m, s.mOwner m = none → Q m = []

/-- A task that forbids preemption is the current one. -/
structure Preempting (s : State ι μ) : Prop where
  current : ∀ t, (s.pc t).Critical → t = s.currentTask ∧ ¬ s.OnFreeStack ∧ 0 < s.preemptCounter
  down : ∀ t, s.freeStack = some (t, .down) → t = s.currentTask ∧ 0 < s.preemptCounter

/-- The invariant. The current task went on behind `yield` as the owner. -/
structure Inv (idle : ι) (l : List ι) (Q : μ → List ι) (s : State ι μ) : Prop where
  runQueue : s.RunQueue idle l
  locks : s.Locks Q
  preempting : s.Preempting
  resumed : ∀ m, s.pc s.currentTask = .waiting m → s.currentTask ∉ Q m

/-! ## The parts, when one task goes on -/

omit [DecidableEq μ] in
theorem RunQueue.setPc (h : s.RunQueue idle l) (ht : t ∈ idle :: l) (hidle : t ≠ idle)
    (hp : p.Linked) : (s.setPc t p).RunQueue idle l := by
  refine ⟨h.ring, h.current, fun t' => ?_, ?_⟩
  · by_cases he : t' = t
    · subst he
      simp only [State.setPc, update_self, ht, hp]
    · simp only [State.setPc, update_of_ne he]
      exact h.linked t'
  · simp only [State.setPc, update_of_ne (Ne.symm hidle)]
    exact h.idle

omit [DecidableEq μ] in
theorem Locks.setPc (h : s.Locks Q) (hwaits : ∀ m, t ∈ Q m → p.Waits m)
    (hhanded : ∀ m, p.Waits m → t ∉ Q m → s.mOwner m = some t)
    (hlocked : ∀ m, p = .locked m → s.mOwner m = some t)
    (hunlock : ∀ m, p = .unlock m → ¬ s.holds t m) : (s.setPc t p).Locks Q := by
  have hpc : ∀ P : ι → Pc μ → Prop, P t p → (∀ t', P t' (s.pc t')) →
      ∀ t', P t' ((s.setPc t p).pc t') := by
    intro P hnew hold t'
    by_cases he : t' = t
    · subst he
      simpa only [State.setPc, update_self] using hnew
    · simpa only [State.setPc, update_of_ne he] using hold t'
  exact ⟨h.queues, h.order, hpc (fun t p => ∀ m, t ∈ Q m → p.Waits m) hwaits h.waits,
    hpc (fun t p => ∀ m, p.Waits m → t ∉ Q m → s.mOwner m = some t) hhanded h.handed,
    hpc (fun t p => ∀ m, p = .locked m → s.mOwner m = some t) hlocked h.locked, h.holds,
    hpc (fun t p => ∀ m, p = .unlock m → ¬ s.holds t m) hunlock h.unlocking, h.owner⟩

omit [DecidableEq μ] in
/-- Only the current task and the counter change. -/
theorem Preempting.goOn (h : s.Preempting) (hcurrent : s'.currentTask = s.currentTask)
    (hfree : s'.freeStack = s.freeStack)
    (hpc : ∀ t, t ≠ s.currentTask → s'.pc t = s.pc t)
    (hcritical : (s'.pc s.currentTask).Critical → ¬ s.OnFreeStack ∧ 0 < s'.preemptCounter)
    (hdown : s.OnFreeStack → s.preemptCounter ≤ s'.preemptCounter) : s'.Preempting := by
  have hon : s'.OnFreeStack ↔ s.OnFreeStack := by
    rw [OnFreeStack, OnFreeStack, hcurrent, hfree]
  refine ⟨fun t ht => ?_, fun t ht => ?_⟩
  · by_cases he : t = s.currentTask
    · subst he
      rw [hon, hcurrent]
      exact ⟨rfl, hcritical ht⟩
    · rw [hpc t he] at ht
      exact absurd (h.current t ht).1 he
  · rw [hfree] at ht
    obtain ⟨rfl, hcounter⟩ := h.down t ht
    refine ⟨hcurrent.symm, Nat.lt_of_lt_of_le hcounter (hdown ?_)⟩
    rw [OnFreeStack, ht, Option.map_some]

omit [DecidableEq μ] in
/-- A task that waits neither before nor after. -/
theorem Locks.setPc_of_not_waits (h : s.Locks Q) (hold : ∀ m, ¬ (s.pc t).Waits m)
    (hnew : ∀ m, ¬ p.Waits m) (hlocked : ∀ m, p = .locked m → s.mOwner m = some t)
    (hunlock : ∀ m, p = .unlock m → ¬ s.holds t m) : (s.setPc t p).Locks Q := by
  refine h.setPc (fun m hm => ?_) (fun m hm => ?_) hlocked hunlock
  · exact absurd (h.waits t m hm) (hold m)
  · exact absurd hm (hnew m)

omit [DecidableEq μ] in
/-- A task that waits goes on waiting. -/
theorem Locks.setWaits (h : s.Locks Q) (hpc : (s.pc t).Waits m) (hp : p.Waits m) :
    (s.setPc t p).Locks Q := by
  have hsame : ∀ {p' : Pc μ}, p'.Waits m → ∀ m', p'.Waits m' → m' = m := by
    rintro p' hm m' (rfl | rfl | rfl) <;> simpa [Pc.Waits, eq_comm] using hm
  refine h.setPc (fun m' hm' => ?_) (fun m' hw hn => ?_) ?_ ?_
  · rw [hsame hpc m' (h.waits t m' hm')]
    exact hp
  · rw [hsame hp m' hw] at hn ⊢
    exact h.handed t m hpc hn
  · rintro m' rfl
    simp [Pc.Waits] at hp
  · rintro m' rfl
    simp [Pc.Waits] at hp

omit [DecidableEq ι] [DecidableEq μ] in
/-- The run queue, the counter and the choice of the current task do not matter. -/
theorem Locks.frame (h : s.Locks Q) (hblocking : s'.blocking = s.blocking)
    (howner : s'.mOwner = s.mOwner) (hpc : s'.pc = s.pc) (hholds : s'.holds = s.holds)
    (hblocked : s'.blocked = s.blocked) (hhanded : s'.handed = s.handed) : s'.Locks Q := by
  cases s
  cases s'
  dsimp only at *
  subst hblocking howner hpc hholds hblocked hhanded
  exact ⟨h.queues, h.order, h.waits, h.handed, h.locked, h.holds, h.unlocking, h.owner⟩

theorem Locks.setHolds_false (h : s.Locks Q) : (s.setHolds t m False).Locks Q := by
  refine ⟨h.queues, h.order, h.waits, h.handed, h.locked, fun t' m' hh => ?_,
    fun t' m' hu hh => ?_, h.owner⟩ <;>
    dsimp only [setHolds] at hh <;> split at hh
  · exact hh.elim
  · exact h.holds t' m' hh
  · exact hh.elim
  · exact h.unlocking t' m' hu hh

theorem Locks.setHolds_true (h : s.Locks Q) (hm : s.mOwner m = some t)
    (hpc : ∀ m, s.pc t ≠ .unlock m) : (s.setHolds t m True).Locks Q := by
  refine ⟨h.queues, h.order, h.waits, h.handed, h.locked, fun t' m' hh => ?_,
    fun t' m' hu hh => ?_, h.owner⟩ <;>
    dsimp only [setHolds] at hh <;> split at hh
  · rename_i he
    rw [he.1, he.2]
    exact hm
  · exact h.holds t' m' hh
  · rename_i he
    rw [he.1] at hu
    exact absurd hu (hpc m')
  · exact h.unlocking t' m' hu hh

omit [DecidableEq ι] [DecidableEq μ] in
theorem Locks.not_mem (h : s.Locks Q) (hpc : ∀ m, ¬ (s.pc t).Waits m) (m : μ) : t ∉ Q m :=
  fun hm => hpc m (h.waits t m hm)

omit [DecidableEq ι] [DecidableEq μ] in
theorem Locks.isBlocked_iff (h : s.Locks Q) : s.IsBlocked t ↔ ∃ m, t ∈ Q m :=
  h.queues.lonely_task

/-- The first of a free mutex. -/
theorem Locks.takeFree (h : s.Locks Q) (hm : s.mOwner m = none)
    (hpc : ∀ m, ¬ (s.pc t).Waits m) :
    Locks Q ({ s with mOwner := update s.mOwner m (some t) }.setPc t (.locked m)) := by
  have hother : ∀ t' m', s.mOwner m' = some t' → update s.mOwner m (some t) m' = some t' := by
    intro t' m' ho
    have hne : m' ≠ m := by
      rintro rfl
      rw [hm] at ho
      cases ho
    rwa [update_of_ne hne]
  refine Locks.setPc_of_not_waits (s := { s with mOwner := update s.mOwner m (some t) })
    ⟨h.queues, h.order, h.waits, fun t' m' hw hn => hother t' m' (h.handed t' m' hw hn),
      fun t' m' hl => hother t' m' (h.locked t' m' hl), fun t' m' hh =>
      hother t' m' (h.holds t' m' hh),
      h.unlocking, fun m' ho => ?_⟩ hpc ?_ ?_ ?_
  · by_cases he : m' = m
    · subst he
      simp at ho
    · dsimp only at ho
      rw [update_of_ne he] at ho
      exact h.owner m' ho
  · simp [Pc.Waits]
  · intro m' he
    cases he
    exact update_self ..
  · simp

/-- The current task joins the waiters. -/
theorem Locks.blockOn (h : s.Locks Q) (hm : s.mOwner m ≠ none)
    (hpc : ∀ m, ¬ (s.pc s.currentTask).Waits m) :
    Locks (update Q m (Q m ++ [s.currentTask]))
      ((s.blockOn m).setPc s.currentTask (.blocking m)) := by
  have hnot := h.not_mem hpc
  have hmem : ∀ t' m', t' ∈ update Q m (Q m ++ [s.currentTask]) m' →
      t' ∈ Q m' ∨ t' = s.currentTask ∧ m' = m := by
    intro t' m' hm'
    by_cases he : m' = m
    · subst he
      simpa using hm'
    · left
      rwa [update_of_ne he] at hm'
  have hpc' : ∀ t', t' ≠ s.currentTask →
      ((s.blockOn m).setPc s.currentTask (.blocking m)).pc t' = s.pc t' := by
    intro t' hne
    exact update_of_ne hne ..
  have hself : ((s.blockOn m).setPc s.currentTask (.blocking m)).pc s.currentTask = .blocking m :=
    update_self ..
  refine ⟨h.queues.blockOn hnot m, fun m' => ?_, fun t' m' hm' => ?_, fun t' m' hw hn => ?_,
    fun t' m' hl => ?_, h.holds, fun t' m' hu => ?_, fun m' ho => ?_⟩
  · by_cases he : m' = m
    · subst he
      simp only [State.setPc, State.blockOn, update_self, h.order, List.append_assoc]
    · simp only [State.setPc, State.blockOn, update_of_ne he, h.order]
  · rcases hmem t' m' hm' with hq | ⟨rfl, rfl⟩
    · have hne : t' ≠ s.currentTask := by
        rintro rfl
        exact hnot m' hq
      rw [hpc' t' hne]
      exact h.waits t' m' hq
    · rw [hself]
      exact Or.inl rfl
  · by_cases hne : t' = s.currentTask
    · subst hne
      rw [hself] at hw
      have he : m = m' := by simpa [Pc.Waits] using hw
      subst he
      simp at hn
    · rw [hpc' t' hne] at hw
      refine h.handed t' m' hw fun hq => hn ?_
      by_cases he : m' = m
      · subst he
        simp [hq]
      · rwa [update_of_ne he]
  · by_cases hne : t' = s.currentTask
    · subst hne
      rw [hself] at hl
      cases hl
    · rw [hpc' t' hne] at hl
      exact h.locked t' m' hl
  · by_cases hne : t' = s.currentTask
    · subst hne
      rw [hself] at hu
      cases hu
    · rw [hpc' t' hne] at hu
      exact h.unlocking t' m' hu
  · have he : m' ≠ m := by
      rintro rfl
      exact hm ho
    rw [update_of_ne he]
    exact h.owner m' ho

omit [DecidableEq μ] in
/-- While the owner is in `unlock`, all others that want the mutex are in the ring. -/
theorem Locks.of_unlock (h : s.Locks Q) (hm : s.mOwner m = some t) (hpc : s.pc t = .unlock m)
    (t' : ι) : ((s.pc t').Waits m → t' ∈ Q m) ∧ s.pc t' ≠ .locked m ∧ ¬ s.holds t' m := by
  have honly : s.mOwner m = some t' → t' = t := by
    intro ho
    rw [hm] at ho
    exact (Option.some.inj ho).symm
  refine ⟨fun hw => ?_, fun hl => ?_, fun hh => ?_⟩
  · by_contra hn
    rw [honly (h.handed t' m hw hn), hpc] at hw
    simp [Pc.Waits] at hw
  · rw [honly (h.locked t' m hl), hpc] at hl
    cases hl
  · rw [honly (h.holds t' m hh)] at hh
    exact h.unlocking t m hpc hh

/-- The owner leaves a mutex with no waiters. -/
theorem Locks.leave (h : s.Locks Q) (hm : s.mOwner m = some t) (hpc : s.pc t = .unlock m)
    (hq : Q m = []) :
    Locks Q ({ s with mOwner := update s.mOwner m none }.setPc t (.unlocked m)) := by
  have halone := h.of_unlock hm hpc
  refine Locks.setPc_of_not_waits (s := { s with mOwner := update s.mOwner m none })
    ⟨h.queues, h.order, h.waits, fun t' m' hw hn => ?_, fun t' m' hl => ?_, fun t' m' hh => ?_,
      h.unlocking, fun m' ho => ?_⟩ ?_ ?_ ?_ ?_
  · have hne : m' ≠ m := by
      rintro rfl
      exact hn ((halone t').1 hw)
    simpa only [update_of_ne hne] using h.handed t' m' hw hn
  · have hne : m' ≠ m := by
      rintro rfl
      exact (halone t').2.1 hl
    simpa only [update_of_ne hne] using h.locked t' m' hl
  · have hne : m' ≠ m := by
      rintro rfl
      exact (halone t').2.2 hh
    simpa only [update_of_ne hne] using h.holds t' m' hh
  · by_cases he : m' = m
    · rwa [he]
    · simp only [update_of_ne he] at ho
      exact h.owner m' ho
  all_goals simp [hpc, Pc.Waits]

/-- The owner hands the mutex to the first waiter. -/
theorem Locks.handOver {w : ι} {q : List ι} (h : s.Locks Q) (hm : s.mOwner m = some t)
    (hpc : s.pc t = .unlock m) (hq : Q m = w :: q) :
    Locks (update Q m q) ({ s with
      blocking := s.blocking.unlink (.task w)
      mOwner := update s.mOwner m (some w)
      handed := update s.handed m (s.handed m ++ [w]) }.setPc t (.unlocked m)) := by
  have halone := h.of_unlock hm hpc
  refine Locks.setPc_of_not_waits (s := { s with
      blocking := s.blocking.unlink (.task w)
      mOwner := update s.mOwner m (some w)
      handed := update s.handed m (s.handed m ++ [w]) })
    ⟨h.queues.unlinkFirst hq, fun m' => ?_, fun t' m' hm' => ?_, fun t' m' hw hn => ?_,
      fun t' m' hl => ?_, fun t' m' hh => ?_, h.unlocking, fun m' ho => ?_⟩ ?_ ?_ ?_ ?_
  · by_cases he : m' = m
    · subst he
      simp only [update_self, h.order, hq, List.append_assoc, List.singleton_append]
    · simp only [update_of_ne he, h.order]
  · apply h.waits t' m'
    by_cases he : m' = m
    · subst he
      rw [update_self] at hm'
      rw [hq]
      exact List.mem_cons_of_mem w hm'
    · rwa [update_of_ne he] at hm'
  · by_cases he : m' = m
    · subst he
      have hmem := (halone t').1 hw
      rw [update_self] at hn
      rw [hq, List.mem_cons] at hmem
      rw [hmem.resolve_right hn]
      exact update_self ..
    · rw [update_of_ne he] at hn
      simpa only [update_of_ne he] using h.handed t' m' hw hn
  · have hne : m' ≠ m := by
      rintro rfl
      exact (halone t').2.1 hl
    simpa only [update_of_ne hne] using h.locked t' m' hl
  · have hne : m' ≠ m := by
      rintro rfl
      exact (halone t').2.2 hh
    simpa only [update_of_ne hne] using h.holds t' m' hh
  · have he : m' ≠ m := by
      rintro rfl
      simp at ho
    simp only [update_of_ne he] at ho ⊢
    exact h.owner m' ho
  all_goals simp [hpc, Pc.Waits]

end State

end TinyLittleOs.Scheduler
