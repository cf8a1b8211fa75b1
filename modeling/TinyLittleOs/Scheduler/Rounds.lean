import TinyLittleOs.Scheduler.Waiters
import Mathlib.Logic.Relation

/-!
# Rounds of the scheduler

The run queue is the ring of the current task, however tasks are linked and unlinked. As long as one
of them is not blocked, `pick_next_task` ends, and consecutive calls go round the tasks that are not
blocked.
-/

namespace TinyLittleOs.Scheduler

open Lib Relation

variable {ι μ : Type} [DecidableEq ι] [DecidableEq μ]

namespace State

/-- `link_task`, but for the reference. -/
def linkTask (t : ι) (s : State ι μ) : State ι μ :=
  { s with scheduling := s.scheduling.addAfterSelf s.currentTask t }

omit [DecidableEq μ] in
/-- `unlink_task`, but for the reference. -/
def unlinkTask (t : ι) (s : State ι μ) : State ι μ := { s with scheduling := s.scheduling.unlink t }

/-- The tasks that calls of `pick_next_task` in a row choose. -/
def picks (fuel : Nat) : Nat → State ι μ → Option (List ι)
  | 0, _ => some []
  | n + 1, s => do
    let s ← s.pickNextTask fuel
    let l ← picks fuel n s
    some (s.currentTask :: l)

/-- The tasks of a list that are not blocked. -/
def runnable (s : State ι μ) (l : List ι) : List ι := l.filter fun t => decide (¬ s.IsBlocked t)

end State

/-- The scheduler, and the tasks that are linked. -/
structure Queue (ι μ : Type) where
  state : State ι μ
  linked : List ι

namespace Queue

/-- `link_task`, `unlink_task` of another task, the end of `task_wrapper`, where the current task
goes on to the next one and unlinks itself, `pick_next_task`, and whatever leaves the ring alone. -/
inductive Step : Queue ι μ → Queue ι μ → Prop
  | linkTask {s : State ι μ} {linked : List ι} {t : ι} : t ∉ linked →
      Step ⟨s, linked⟩ ⟨s.linkTask t, t :: linked⟩
  | unlinkTask {s : State ι μ} {linked : List ι} {t : ι} : t ∈ linked → t ≠ s.currentTask →
      Step ⟨s, linked⟩ ⟨s.unlinkTask t, linked.erase t⟩
  | finalize {s : State ι μ} {linked : List ι} : ¬ s.scheduling.Lonely s.currentTask →
      Step ⟨s, linked⟩ ⟨s.finalize, linked.erase s.currentTask⟩
  | pickNextTask {s s' : State ι μ} {linked : List ι} {fuel : Nat} : s.pickNextTask fuel = some s' →
      Step ⟨s, linked⟩ ⟨s', linked⟩
  | other {s s' : State ι μ} {linked : List ι} : s'.scheduling = s.scheduling →
      s'.currentTask = s.currentTask → Step ⟨s, linked⟩ ⟨s', linked⟩

/-- Runs from `initialize`, which makes the idle task the current one. -/
def Reachable (idle : ι) (q : Queue ι μ) : Prop :=
  ∃ s, s.scheduling = Rings.alone ∧ s.currentTask = idle ∧ ReflTransGen Step ⟨s, [idle]⟩ q

/-- The linked tasks are the ring of the current one, and all others are alone. -/
structure Ordered (q : Queue ι μ) (l : List ι) : Prop where
  ring : q.state.scheduling.Cycle q.state.currentTask l
  linked : (q.state.currentTask :: l).Perm q.linked
  alone : ∀ t ∉ q.linked, q.state.scheduling.Cycle t []

variable {q q' : Queue ι μ} {s s' : State ι μ} {linked l : List ι} {t idle : ι}

omit [DecidableEq ι] [DecidableEq μ] in
theorem Ordered.mem (h : q.Ordered l) : t ∈ q.state.currentTask :: l ↔ t ∈ q.linked :=
  h.linked.mem_iff

omit [DecidableEq μ] in
theorem Ordered.linkTask (h : Ordered ⟨s, linked⟩ l) (ht : t ∉ linked) :
    Ordered ⟨s.linkTask t, t :: linked⟩ (t :: l) := by
  have hout : t ∉ s.currentTask :: l := fun hm => ht (h.mem.1 hm)
  refine ⟨h.ring.addAfterSelf hout, (List.Perm.swap _ _ _).trans (h.linked.cons t), fun u hu => ?_⟩
  simp only [List.mem_cons, not_or] at hu
  refine h.ring.addAfterSelf_other (h.alone u hu.2) ?_
  intro z hz hm
  obtain rfl : z = u := by simpa using hz
  rcases List.mem_cons.1 hm with rfl | hm
  · exact hu.1 rfl
  · exact hu.2 (h.mem.1 hm)

omit [DecidableEq μ] in
/-- A node of the ring is unlinked: it is alone, and so is what was alone before. -/
theorem Ordered.unlink_alone (h : Ordered ⟨s, linked⟩ l) (ht : t ∈ linked) {u : ι}
    (hu : u ∉ linked.erase t) : (s.scheduling.unlink t).Cycle u [] := by
  by_cases hut : u = t
  · rw [hut]
    exact Rings.unlink_self
  · have hu' : u ∉ linked := fun hm => hu ((List.mem_erase_of_ne hut).2 hm)
    obtain ⟨k, hk, hperm⟩ := h.ring.at_mem (h.mem.2 ht)
    refine (h.alone u hu').unlink_other hk ?_
    intro z hz hm
    obtain rfl : z = u := by simpa using hz
    exact hu' (h.mem.1 (hperm.mem_iff.1 hm))

omit [DecidableEq μ] in
theorem Ordered.unlinkTask (h : Ordered ⟨s, linked⟩ l) (ht : t ∈ linked) (hne : t ≠ s.currentTask) :
    ∃ l', Ordered ⟨s.unlinkTask t, linked.erase t⟩ l' := by
  have hm : t ∈ l := (List.mem_cons.1 (h.mem.2 ht)).resolve_left hne
  obtain ⟨a, b, rfl⟩ := List.append_of_mem hm
  have hnodup := h.ring.nodup
  have herase : (s.currentTask :: (a ++ t :: b)).erase t = s.currentTask :: (a ++ b) := by
    dsimp only at hnodup
    grind
  refine ⟨a ++ b, h.ring.unlink, ?_, fun u hu => h.unlink_alone ht hu⟩
  have hperm := h.linked.erase t
  dsimp only at hperm
  rwa [herase] at hperm

omit [DecidableEq μ] in
/-- The current task goes on to the next one and leaves the ring. -/
theorem Ordered.finalize (h : Ordered ⟨s, linked⟩ l)
    (hlonely : ¬ s.scheduling.Lonely s.currentTask) :
    ∃ l', Ordered ⟨s.finalize, linked.erase s.currentTask⟩ l' := by
  have hring := h.ring
  dsimp only at hring
  cases l with
  | nil => exact absurd (hring.lonely_iff.2 rfl) hlonely
  | cons z l =>
    have hnext : s.scheduling.next s.currentTask = z := hring.path.1
    have hperm := h.linked.erase s.currentTask
    dsimp only at hperm
    rw [List.erase_cons_head] at hperm
    refine ⟨l, ?_, ?_, fun u hu => h.unlink_alone (h.mem.1 List.mem_cons_self) hu⟩
    · rw [State.finalize, hnext]
      exact hring.unlink_head
    · rw [State.finalize, hnext]
      exact hperm

theorem Ordered.pickNextTask {fuel : Nat} (h : Ordered ⟨s, linked⟩ l)
    (hs : s.pickNextTask fuel = some s') : ∃ l', Ordered ⟨s', linked⟩ l' := by
  simp only [State.pickNextTask, Option.bind_eq_bind, Option.bind_eq_some_iff,
    Option.some.injEq] at hs
  obtain ⟨t, ht, rfl⟩ := hs
  have hm := State.pickLoop_mem h.ring List.mem_cons_self ht
  obtain ⟨k, hk, hperm⟩ := h.ring.at_mem hm
  exact ⟨k, hk, hperm.trans h.linked, h.alone⟩

theorem Ordered.step (h : q.Ordered l) (hs : Step q q') : ∃ l', q'.Ordered l' := by
  cases hs with
  | linkTask ht => exact ⟨_, h.linkTask ht⟩
  | unlinkTask ht hne => exact h.unlinkTask ht hne
  | finalize hlonely => exact h.finalize hlonely
  | pickNextTask hs => exact h.pickNextTask hs
  | other hring hcurrent =>
    refine ⟨l, ?_, ?_, fun u hu => ?_⟩
    · dsimp only
      rw [hring, hcurrent]
      exact h.ring
    · dsimp only
      rw [hcurrent]
      exact h.linked
    · dsimp only
      rw [hring]
      exact h.alone u hu

theorem Reachable.ordered (hr : q.Reachable idle) : ∃ l, q.Ordered l := by
  obtain ⟨s, halone, hidle, hrun⟩ := hr
  induction hrun with
  | refl =>
    refine ⟨[], ?_, ?_, fun u _ => ?_⟩
    · dsimp only
      rw [halone]
      exact Rings.cycle_nil.2 ⟨rfl, rfl⟩
    · rw [hidle]
    · dsimp only
      rw [halone]
      exact Rings.cycle_nil.2 ⟨rfl, rfl⟩
  | tail _ hs ih =>
    obtain ⟨l, h⟩ := ih
    exact h.step hs

end Queue

/-! ## Rounds -/

namespace State

variable {s s' : State ι μ} {fuel : Nat} {t x y : ι} {u v w l : List ι}

/-- On a way through tasks that are blocked, the search takes the first that is not. -/
theorem pickLoop_append (hpath : s.scheduling.Path x (u ++ t :: v) y) (hu : ∀ z ∈ u, s.IsBlocked z)
    (ht : ¬ s.IsBlocked t) (hf : u.length < fuel) : s.pickLoop fuel x = some t := by
  obtain ⟨hpath, -⟩ := Rings.path_append.1 hpath
  rw [pickLoop_path hpath (List.mem_append_right u List.mem_cons_self) ht hf, List.find?_append]
  have hnone : u.find? (fun z => decide (¬ s.IsBlocked z)) = none := by
    apply List.find?_eq_none.2
    intro z hz
    simp [hu z hz]
  rw [hnone]
  simp [ht]

/-- On a way, as many calls as there are tasks that are not blocked choose each of them in turn. -/
theorem picks_path (hpath : s.scheduling.Path s.currentTask w y) (hf : w.length ≤ fuel) :
    s.picks fuel (s.runnable w).length = some (s.runnable w) := by
  induction hn : w.length using Nat.strongRecOn generalizing s w with
  | ind n ih =>
    by_cases hall : ∀ z ∈ w, s.IsBlocked z
    · have hnil : s.runnable w = [] := by
        rw [runnable, List.filter_eq_nil_iff]
        intro z hz
        simp [hall z hz]
      rw [hnil]
      rfl
    · -- the first task on the way that is not blocked
      push Not at hall
      obtain ⟨t, ht⟩ := Option.isSome_iff_exists.1
        (List.find?_isSome (p := fun z => decide (¬ s.IsBlocked z)).2 (by simpa using hall))
      obtain ⟨hfree, u, v, rfl, hu⟩ := List.find?_eq_some_iff_append.1 ht
      have hfree : ¬ s.IsBlocked t := of_decide_eq_true hfree
      have hblocked : ∀ z ∈ u, s.IsBlocked z := by simpa using hu
      rw [List.length_append, List.length_cons] at hf hn
      have hloop := pickLoop_append hpath hblocked hfree (show u.length < fuel by omega)
      have hpick : s.pickNextTask fuel = some { s with currentTask := t } := by
        rw [pickNextTask, hloop]
        rfl
      have hrest : ({ s with currentTask := t } : State ι μ).picks fuel (s.runnable v).length =
          some (s.runnable v) :=
        ih v.length (by omega) (s := { s with currentTask := t }) (Rings.path_append.1 hpath).2
          (by omega) rfl
      have hrun : s.runnable (u ++ t :: v) = t :: s.runnable v := by
        have hnil : s.runnable u = [] := by
          rw [runnable, List.filter_eq_nil_iff]
          intro z hz
          simp [hblocked z hz]
        rw [runnable, List.filter_append, ← runnable, hnil, List.nil_append,
          List.filter_cons_of_pos]
        · rfl
        · simpa using hfree
      rw [hrun, List.length_cons, picks, hpick]
      simp [hrest]

end State

namespace Queue

variable {q : Queue ι μ} {idle : ι}

/-- The next task is the first behind the current one in the ring that is not blocked, and a round
of calls chooses every task that is not blocked once. -/
theorem pickNextTask_rounds (hr : q.Reachable idle)
    (hfree : ∃ t ∈ q.linked, ¬ q.state.IsBlocked t) :
    ∃ l, q.state.scheduling.Cycle q.state.currentTask l ∧ (q.state.currentTask :: l).Perm q.linked ∧
      (∃ t, (l ++ [q.state.currentTask]).find? (fun z => decide (¬ q.state.IsBlocked z)) = some t ∧
        ∀ fuel ≥ q.linked.length,
          q.state.pickNextTask fuel = some { q.state with currentTask := t }) ∧
      ∃ r, r.Nodup ∧ (∀ t, t ∈ r ↔ t ∈ q.linked ∧ ¬ q.state.IsBlocked t) ∧
        ∀ fuel ≥ q.linked.length, q.state.picks fuel r.length = some r := by
  obtain ⟨l, h⟩ := hr.ordered
  have hlen : l.length + 1 = q.linked.length := h.linked.length_eq
  have hmem (t : ι) : t ∈ l ++ [q.state.currentTask] ↔ t ∈ q.linked := by
    rw [← h.mem]
    simp [or_comm]
  obtain ⟨u, hu, hblocked⟩ := hfree
  refine ⟨l, h.ring, h.linked, ?_, q.state.runnable (l ++ [q.state.currentTask]), ?_, fun t => ?_,
    fun fuel hf => ?_⟩
  · obtain ⟨t, ht⟩ := Option.isSome_iff_exists.1
      (List.find?_isSome (p := fun z => decide (¬ q.state.IsBlocked z)).2
        ⟨u, (hmem u).2 hu, by simpa using hblocked⟩)
    refine ⟨t, ht, fun fuel hf => ?_⟩
    rw [State.pickNextTask, State.pickLoop_cycle h.ring (h.mem.2 hu) hblocked (by omega), ht]
    rfl
  · apply List.Nodup.filter
    exact (List.perm_append_comm.nodup_iff).1 h.ring.nodup
  · rw [State.runnable, List.mem_filter, hmem]
    simp
  · have hpath : q.state.scheduling.Path q.state.currentTask (l ++ [q.state.currentTask])
        (q.state.scheduling.next q.state.currentTask) :=
      Rings.path_append.2 ⟨h.ring.path, rfl, h.ring.prev_next⟩
    apply State.picks_path hpath
    rw [List.length_append, List.length_singleton]
    omega

/-- The idle task is the current one, and no task is blocked. -/
def idleOnly : State Nat Unit where
  scheduling := .alone
  blocking := .alone
  mOwner := fun _ => none
  preemptCounter := 1
  currentTask := 0
  pc := fun _ => .outside
  freeStack := none
  holds := fun _ _ => False
  blocked := fun _ => []
  handed := fun _ => []

/-- Of two tasks beside the idle task one waits for a mutex. -/
def oneBlocked : State Nat Unit :=
  { (idleOnly.linkTask 1).linkTask 2 with blocking := .addAfterSelf .alone (.mutex ()) (.task 2) }

theorem pickNextTask_rounds_two : ∃ t, oneBlocked.IsBlocked 2 ∧ t ≠ 2 ∧
    oneBlocked.pickNextTask 3 = some { oneBlocked with currentTask := t } := by
  have hfirst : Step ⟨idleOnly, [0]⟩ ⟨idleOnly.linkTask 1, [1, 0]⟩ := .linkTask (by decide)
  have hsecond : Step ⟨idleOnly.linkTask 1, [1, 0]⟩ ⟨(idleOnly.linkTask 1).linkTask 2, [2, 1, 0]⟩ :=
    .linkTask (by decide)
  have hblocks : Step ⟨(idleOnly.linkTask 1).linkTask 2, [2, 1, 0]⟩ ⟨oneBlocked, [2, 1, 0]⟩ :=
    .other rfl rfl
  have hblocked : oneBlocked.IsBlocked 2 := by decide
  obtain ⟨l, -, -, ⟨t, ht, hpick⟩, -⟩ :=
    pickNextTask_rounds
      ⟨idleOnly, rfl, rfl, ((ReflTransGen.single hfirst).tail hsecond).tail hblocks⟩
      ⟨0, by decide, by decide⟩
  have hfree := List.find?_some ht
  refine ⟨t, hblocked, ?_, hpick 3 (Nat.le_refl 3)⟩
  rintro rfl
  exact of_decide_eq_true hfree hblocked

end Queue

end TinyLittleOs.Scheduler
