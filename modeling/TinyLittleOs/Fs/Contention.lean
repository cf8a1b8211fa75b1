import TinyLittleOs.Fs.Steps
import TinyLittleOs.Fs.Walk
import TinyLittleOs.Scheduler.Nested

/-!
# The i_locks under `traverse`

`traverse` forbids preemption and takes i_locks. A task that has to wait for one calls `yield`,
whose `kassert` fails in `traverse`. This happens when another task was switched out with the lock.
-/

namespace TinyLittleOs.Fs

open Lib Function Scheduler


variable {ι D : Type} [DecidableEq ι] {E : Env D}

/-- How often a task with these steps to do has raised the counter. -/
def Op.depth (ops : List Op) : Nat := ops.count .preemptDown

theorem Op.exec_depth {s s' : State D} {op : Op} {ops : List Op}
    (h : op.exec E s = some (s', ops)) :
    Op.preemptDown ∉ ops := by
  cases op with
  | search path =>
    rw [exec] at h
    split at h
    · cases h
      simp
    split at h
    · cases h
      simp
    split at h
    · cases h
      simp
    · obtain ⟨root, -, h⟩ := Option.bind_eq_some_iff.1 h
      cases h
      simp
  | walk fs path currInode =>
    cases path with
    | nil =>
      cases h
      simp
    | cons c path =>
      rw [exec] at h
      split at h
      · cases h
        simp
      · obtain ⟨i, -, h⟩ := Option.bind_eq_some_iff.1 h
        obtain ⟨found, -, h⟩ := Option.bind_eq_some_iff.1 h
        cases found <;> cases h <;> simp
  | lookup fs iNum path prevInode =>
    rw [exec] at h
    split at h
    · obtain ⟨i, -, h⟩ := Option.bind_eq_some_iff.1 h
      obtain ⟨-, h⟩ := Option.ite_none_right_eq_some.1 h
      cases h
      simp
    · cases h
      simp
  | takeFound | takeParent | takeOwner =>
    obtain ⟨s₁, -, h⟩ := Option.bind_eq_some_iff.1 h
    cases h
    simp
  | allocInode fs iNum path prevInode =>
    obtain ⟨s₁, -, h⟩ := Option.bind_eq_some_iff.1 h
    cases h
    simp
  | releaseUnlessRoot obj =>
    obtain ⟨i, -, h⟩ := Option.bind_eq_some_iff.1 h
    cases h
    split <;> simp [release]
  | releaseRef obj =>
    obtain ⟨⟨s₁, last⟩, -, h⟩ := Option.bind_eq_some_iff.1 h
    cases h
    cases last <;> simp
  | remove obj =>
    obtain ⟨i, -, h⟩ := Option.bind_eq_some_iff.1 h
    cases h
    cases i.iParentRef <;> simp [release]
  | freeInode | newFile | freeFile =>
    cases h
    simp
  | releaseFile f =>
    obtain ⟨d, -, h⟩ := Option.bind_eq_some_iff.1 h
    obtain ⟨-, h⟩ := Option.ite_none_right_eq_some.1 h
    split at h <;> cases h <;> simp [release]
  | _ => cases h

theorem Op.depth_cons {op : Op} {ops : List Op} (h : op ≠ .preemptDown) :
    Op.depth (op :: ops) = Op.depth ops := List.count_cons_of_ne h

theorem Op.depth_append {ops rest : List Op} (h : Op.preemptDown ∉ ops) :
    Op.depth (ops ++ rest) = Op.depth rest := by
  rw [depth, List.count_append, List.count_eq_zero_of_not_mem h, Nat.zero_add, depth]

namespace World

variable {idle : ι} {fuel : Nat} {w w' : World ι D}

/-- `traverse` is about to take an `i_lock`, and another task is between the `lock` and the `unlock`
of it, or waits for it. -/
def Contended (w : World ι D) : Prop :=
  0 < w.sched.preemptCounter ∧ ∃ o rest t, w.todo w.current = .lock o :: rest ∧ t ≠ w.current ∧
    w.sched.Inside t o

/-- The counter is what the current task has raised it by. No task waits in `traverse`. -/
structure Calm (idle : ι) (w : World ι D) : Prop where
  inv : ∃ l Q, w.sched.Inv idle l Q
  owned : w.sched.Owned
  freeStack : w.sched.freeStack = none
  exiting : w.sched.pc w.current ≠ .exiting
  others : ∀ t, t ≠ w.current → Op.depth (w.todo t) = 0
  counter : w.sched.preemptCounter = Op.depth (w.todo w.current) + (w.sched.pc w.current).depth
  locking : ∀ o t, w.sched.pc w.current = .lock o → w.sched.mOwner o = some t → t ≠ w.current →
    Op.depth (w.todo w.current) = 0
  sleeping : ∀ o, w.sched.pc w.current = .blocking o ∨ w.sched.pc w.current = .yielding o →
    Op.depth (w.todo w.current) = 0

omit [DecidableEq ι] in
theorem Calm.off (h : w.Calm idle) : ¬ w.sched.OnFreeStack := by
  intro hon
  rw [Scheduler.State.OnFreeStack, h.freeStack] at hon
  cases hon

omit [DecidableEq ι] in
theorem Calm.exitsWell (h : w.Calm idle) (a : Action ι Nat) : w.sched.ExitsWell a :=
  fun _ _ hpc => absurd hpc h.exiting

theorem Start.calm (h : Start E idle w) : w.Calm idle := by
  obtain ⟨l, hstart⟩ := h.sched
  have hpc : w.sched.pc w.current = .outside := hstart.linked _ hstart.current
  refine ⟨⟨l, _, hstart.inv⟩, fun m t hm => ?_, hstart.freeStack, ?_, fun t _ => ?_, ?_, ?_, ?_⟩
  · rw [hstart.mOwner] at hm
    cases hm
  · simp [hpc]
  · rw [h.todo]
    rfl
  · rw [h.todo, hpc, hstart.counter]
    rfl
  · simp [hpc]
  · simp [hpc]

/-- Another task runs, where preemption is possible. -/
theorem Calm.switch (h : w.Calm idle) (h0 : w.sched.preemptCounter = 0)
    {sched : Scheduler.State ι Nat} (hinv : ∃ l Q, sched.Inv idle l Q) (howned : sched.Owned)
    (hfree : sched.freeStack = none) (hzero : sched.preemptCounter = 0) :
    Calm idle { w with sched := sched } := by
  have hdepth (t : ι) : Op.depth (w.todo t) = 0 := by
    by_cases ht : t = w.current
    · have := h.counter
      rw [ht]
      omega
    · exact h.others t ht
  have hpc : ¬ (sched.pc sched.currentTask).Critical := by
    obtain ⟨l, Q, hinv⟩ := hinv
    intro hcritical
    have := (hinv.preempting.current _ hcritical).2.2
    omega
  refine ⟨hinv, howned, hfree, ?_, fun t _ => hdepth t, ?_, fun _ _ _ _ _ => hdepth _,
    fun _ _ => hdepth _⟩
  · intro hexit
    rw [World.current] at hexit
    rw [hexit] at hpc
    exact hpc trivial
  · rw [hzero, hdepth, World.current, Pc.depth_eq_zero hpc]

/-- The current task goes on in `lock` or `unlock`. -/
theorem Calm.goOn (h : w.Calm idle) {sched : Scheduler.State ι Nat} {p : Pc Nat}
    (hinv : ∃ l Q, sched.Inv idle l Q) (howned : sched.Owned) (hs : w.sched.GoesOn sched p) :
    Calm idle { w with sched := sched } := by
  obtain ⟨hfollows, hcurrent, hpc, hfree, hcounter⟩ := hs
  have hself : sched.pc sched.currentTask = p := by
    rw [hcurrent, hpc, update_self]
  have hdepth : Op.depth (w.todo sched.currentTask) = Op.depth (w.todo w.current) := by
    rw [hcurrent]
    rfl
  have hcount := h.counter
  simp only [World.current] at hdepth hcount
  generalize hold : w.sched.pc w.sched.currentTask = q at hfollows
  refine ⟨hinv, howned, hfree.trans h.freeStack, ?_, fun t ht => ?_, ?_, ?_, ?_⟩
  · intro hexit
    rw [World.current, hself] at hexit
    rw [hexit] at hfollows
    cases hfollows
  · rw [World.current, hcurrent] at ht
    exact h.others t ht
  · simp only [World.current, hself, hdepth]
    omega
  · intro o t ho
    rw [World.current, hself] at ho
    rw [ho] at hfollows
    cases hfollows
  · intro o ho
    simp only [World.current, hself] at ho ⊢
    rw [hdepth]
    rcases ho with rfl | rfl
    · cases hfollows with
      | block hm hne => exact h.locking o _ hold hm hne
    · cases hfollows with
      | yield => exact h.sleeping o (.inl hold)

/-- The current task has other steps to do, and is at `p`. -/
theorem Calm.act (h : w.Calm idle) {p : Pc Nat} {ops : List Op}
    (hinv : ∃ l Q, w'.sched.Inv idle l Q) (howned : w'.sched.Owned)
    (hcurrent : w'.current = w.current)
    (hfree : w'.sched.freeStack = w.sched.freeStack) (htodo : w'.todo = update w.todo w.current ops)
    (hpc : w'.sched.pc w.current = p) (hp : p = .outside ∨ ∃ o, p = .lock o ∨ p = .unlock o)
    (hcounter : w'.sched.preemptCounter = Op.depth ops + p.depth)
    (hlocking : ∀ o t, p = .lock o → w'.sched.mOwner o = some t → t ≠ w.current →
      Op.depth ops = 0) : w'.Calm idle := by
  have hself : w'.sched.pc w'.current = p := by
    rw [hcurrent, hpc]
  have hops : w'.todo w'.current = ops := by
    rw [hcurrent, htodo]
    exact update_self ..
  refine ⟨hinv, howned, hfree.trans h.freeStack, ?_, fun t ht => ?_, ?_, fun o t ho hm ht => ?_,
    fun o ho => ?_⟩
  · rw [hself]
    rcases hp with rfl | ⟨o, rfl | rfl⟩ <;> simp
  · rw [hcurrent] at ht
    rw [htodo, update_of_ne ht]
    exact h.others t ht
  · rw [hops, hself]
    exact hcounter
  · rw [hself] at ho
    rw [hcurrent] at ht
    rw [hops]
    exact hlocking o t ho hm ht
  · rw [hself] at ho
    rcases hp with rfl | ⟨o', rfl | rfl⟩ <;> simp at ho

theorem schedule_eq_some {a : Action ι Nat} : w.schedule idle fuel a = some w' ↔
    ∃ sched, w.sched.step idle fuel a = some sched ∧ w' = { w with sched := sched } := by
  simp only [schedule, Option.bind_eq_bind, Option.bind_eq_some_iff, Option.some.injEq,
    @eq_comm _ _ w']

theorem Calm.tick (h : w.Calm idle) (hs : w.schedule idle fuel .tick = some w') : w'.Calm idle := by
  obtain ⟨sched, hstep, rfl⟩ := schedule_eq_some.1 hs
  obtain ⟨l, Q, hinv⟩ := h.inv
  rcases State.tick_cases hstep with rfl | ⟨h0, t, rfl⟩
  · exact h
  · exact h.switch h0 (hinv.step (h.exitsWell _) hstep) (h.owned.congr rfl rfl rfl) h.freeStack h0

theorem Calm.run (h : w.Calm idle) (hs : w.schedule idle fuel .run = some w') : w'.Calm idle := by
  obtain ⟨sched, hstep, rfl⟩ := schedule_eq_some.1 hs
  obtain ⟨l, Q, hinv⟩ := h.inv
  have hinv' := hinv.step (h.exitsWell _) hstep
  have howned' := hinv.run_owned h.owned h.off h.exiting hstep
  rcases State.run_cases h.off h.exiting hstep with ⟨p, hgoes⟩ | ⟨t, hswitch⟩
  · exact h.goOn hinv' howned' hgoes
  · exact h.switch hswitch.zero hinv' howned' (hswitch.freeStack.trans h.freeStack) hswitch.counter

omit [DecidableEq ι] in
/-- Outside of the scheduler, the counter is the number of the preemption locks. -/
theorem Calm.counter_of_free (h : w.Calm idle) (hfree : w.sched.Free idle) :
    w.sched.preemptCounter = Op.depth (w.todo w.current) := by
  rw [h.counter, World.current, hfree.1]
  rfl

theorem Calm.lock (h : w.Calm idle) (hfree : w.sched.Free idle) {o : Nat} {rest : List Op}
    (htodo : w.todo w.current = .lock o :: rest) (hcalm : ¬ w.Contended)
    (hs : (w.setTodo rest).schedule idle fuel (.lock o) = some w') : w'.Calm idle := by
  obtain ⟨sched, hstep, rfl⟩ := schedule_eq_some.1 hs
  obtain ⟨l, Q, hinv⟩ := h.inv
  have hinv' := hinv.step (h.exitsWell _) hstep
  have howned' := hinv.step_owned h.owned (by simp) h.off h.exiting hstep
  have hcounter := h.counter_of_free hfree
  rw [htodo, Op.depth_cons (by simp)] at hcounter
  obtain ⟨-, hstep⟩ := Option.ite_none_right_eq_some.1 hstep
  cases hstep
  refine h.act hinv' howned' rfl rfl rfl (update_self ..) (.inr ⟨o, .inl rfl⟩)
    (congrArg Nat.succ hcounter) ?_
  intro o' t ho hm ht
  cases ho
  by_contra hdepth
  refine hcalm ⟨?_, o, rest, t, htodo, ht, h.owned o t hm⟩
  rw [hcounter]
  exact Nat.pos_of_ne_zero hdepth

theorem Calm.unlock (h : w.Calm idle) (hfree : w.sched.Free idle) {o : Nat} {rest : List Op}
    (htodo : w.todo w.current = .unlock o :: rest)
    (hs : (w.setTodo rest).schedule idle fuel (.unlock o) = some w') : w'.Calm idle := by
  obtain ⟨sched, hstep, rfl⟩ := schedule_eq_some.1 hs
  obtain ⟨l, Q, hinv⟩ := h.inv
  have hinv' := hinv.step (h.exitsWell _) hstep
  have howned' := hinv.step_owned h.owned (by simp) h.off h.exiting hstep
  have hcounter := h.counter_of_free hfree
  rw [htodo, Op.depth_cons (by simp)] at hcounter
  obtain ⟨-, hstep⟩ := Option.ite_none_right_eq_some.1 hstep
  cases hstep
  exact h.act hinv' howned' rfl rfl rfl (update_self ..) (.inr ⟨o, .inr rfl⟩)
    (congrArg Nat.succ hcounter) (by simp)

theorem Calm.preemptDown (h : w.Calm idle) (hfree : w.sched.Free idle) {rest : List Op}
    (htodo : w.todo w.current = .preemptDown :: rest)
    (hs : (w.setTodo rest).schedule idle fuel .preemptDown = some w') : w'.Calm idle := by
  obtain ⟨sched, hstep, rfl⟩ := schedule_eq_some.1 hs
  obtain ⟨l, Q, hinv⟩ := h.inv
  have hinv' := hinv.step (h.exitsWell _) hstep
  have howned' := hinv.step_owned h.owned (by simp) h.off h.exiting hstep
  have hcounter := h.counter_of_free hfree
  rw [htodo, Op.depth, List.count_cons_self] at hcounter
  obtain ⟨-, hstep⟩ := Option.ite_none_right_eq_some.1 hstep
  obtain ⟨-, rfl⟩ := State.preemptDown_eq_some.1 hstep
  refine h.act hinv' howned' rfl rfl rfl hfree.1 (.inl rfl) ?_ (by simp)
  exact Nat.sub_eq_of_eq_add hcounter

/-- A step of the file system, which leaves the scheduler as it is. -/
theorem Calm.exec (h : w.Calm idle) (hfree : w.sched.Free idle) {ops : List Op}
    {held : ι → List Nat} {fs : State D} (hdepth : Op.depth ops = Op.depth (w.todo w.current)) :
    Calm idle
    { sched := w.sched, fs := fs, todo := update w.todo w.current ops, held := held } := by
  refine h.act h.inv h.owned rfl rfl rfl hfree.1 (.inl rfl) ?_ (by simp)
  exact (h.counter_of_free hfree).trans hdepth.symm

theorem Calm.perform (h : w.Calm idle) (hfree : w.sched.Free idle) {op : Op} {rest : List Op}
    (htodo : w.todo w.current = op :: rest) (hcalm : ¬ w.Contended)
    (hs : w.perform E idle fuel op rest = some w') : w'.Calm idle := by
  cases op with
  | lock o => exact h.lock hfree htodo hcalm hs
  | unlock o => exact h.unlock hfree htodo hs
  | preemptDown => exact h.preemptDown hfree htodo hs
  | setResult o =>
    cases hs
    refine h.exec hfree ?_
    rw [htodo, Op.depth_cons (by simp)]
  | freeInode | newFile | freeFile =>
    cases hs
    refine h.exec hfree ?_
    rw [htodo, Op.depth_cons (by simp), List.nil_append]
  | _ =>
    obtain ⟨⟨fs, ops⟩, hexec, hs⟩ := Option.bind_eq_some_iff.1 hs
    cases hs
    refine h.exec hfree ?_
    rw [htodo, Op.depth_cons (by simp), Op.depth_append (Op.exec_depth hexec)]

theorem Calm.begin (h : w.Calm idle) (hfree : w.sched.Free idle) (htodo : w.todo w.current = [])
    {c : Call} (hs : w.begin idle fuel c = some w') : w'.Calm idle := by
  cases c with
  | traverse path =>
    obtain ⟨sched, hstep, rfl⟩ := schedule_eq_some.1 hs
    obtain ⟨l, Q, hinv⟩ := h.inv
    have hinv' := hinv.step (h.exitsWell _) hstep
    have howned' := hinv.step_owned h.owned (by simp) h.off h.exiting hstep
    have hcounter := h.counter_of_free hfree
    rw [htodo] at hcounter
    obtain ⟨-, hstep⟩ := Option.ite_none_right_eq_some.1 hstep
    cases hstep
    exact h.act hinv' howned' rfl rfl rfl hfree.1 (.inl rfl) (congrArg Nat.succ hcounter) (by simp)
  | openInode o =>
    cases hs
    refine h.exec hfree ?_
    rw [htodo]
    rfl
  | releaseFile f =>
    cases hs
    refine h.exec hfree ?_
    rw [htodo]
    rfl
  | releaseInode o =>
    obtain ⟨-, hs⟩ := Option.ite_none_right_eq_some.1 hs
    cases hs
    refine h.exec hfree ?_
    rw [htodo]
    rfl

theorem Calm.step (h : w.Calm idle) {a : Move} (hcalm : a = .op → ¬ w.Contended)
    (hs : w.step E idle fuel a = some w') : w'.Calm idle := by
  cases a with
  | tick => exact h.tick hs
  | run => exact h.run hs
  | op =>
    obtain ⟨hfree, hs⟩ := Option.ite_none_right_eq_some.1 hs
    split at hs
    · cases hs
    · rename_i op rest htodo
      exact h.perform hfree htodo (hcalm rfl) hs
  | call c =>
    obtain ⟨⟨hfree, htodo⟩, hs⟩ := Option.ite_none_right_eq_some.1 hs
    exact h.begin hfree htodo hs

/-- `traverse` takes no `i_lock` of a task that was switched out with it. -/
def Uncontended (w : World ι D) (a : Move) : Prop := a = .op → ¬ w.Contended

theorem Reachable.calm (h : w.Reachable E idle Uncontended) : w.Calm idle := by
  obtain ⟨w₀, hstart, hrun⟩ := h
  induction hrun with
  | refl => exact hstart.calm
  | tail _ hmove ih =>
    obtain ⟨a, fuel, ha, hs⟩ := hmove
    exact ih.step ha hs

/-- As long as `traverse` takes no `i_lock` of a task that was switched out with it, no task calls
`yield` with preemption forbidden. -/
theorem Reachable.yield_counter (h : w.Reachable E idle Uncontended) (o : Nat)
    (hpc : w.sched.pc w.current = .yielding o) : w.sched.preemptCounter = 0 := by
  rw [h.calm.counter, h.calm.sleeping o (.inr hpc), hpc]
  rfl

/-! ## Two tasks -/

/-- The moves of a list. -/
def moves (E : Env D) (idle : ι) (ok : World ι D → Move → Prop) [∀ w a, Decidable (ok w a)]
    (fuel : Nat) : List Move → World ι D → Option (World ι D)
  | [], w => some w
  | a :: as, w => if ok w a then (w.step E idle fuel a).bind (moves E idle ok fuel as) else none

theorem reachable_moves {ok ok' : World ι D → Move → Prop} [∀ w a, Decidable (ok' w a)]
    (hok : ∀ w a, ok' w a → ok w a) {as : List Move} (h : w.Reachable E idle ok)
    (hs : moves E idle ok' fuel as w = some w') : w'.Reachable E idle ok := by
  induction as generalizing w with
  | nil =>
    cases hs
    exact h
  | cons a as ih =>
    obtain ⟨ha, hs⟩ := Option.ite_none_right_eq_some.1 hs
    obtain ⟨w₁, hstep, hs⟩ := Option.bind_eq_some_iff.1 hs
    obtain ⟨w₀, hstart, hrun⟩ := h
    exact ih ⟨w₀, hstart, hrun.tail ⟨a, fuel, hok w a ha, hstep⟩⟩ hs

/-- The tasks 1 and 2, and the idle task. -/
def twoTasks : Scheduler.State (Fin 3) Nat where
  scheduling := ⟨fun t => t + 1, fun t => t - 1⟩
  blocking := .alone
  mOwner := fun _ => none
  preemptCounter := 0
  currentTask := 1
  pc := fun _ => .outside
  freeStack := none
  holds := fun _ _ => False
  blocked := fun _ => []
  handed := fun _ => []

theorem twoTasks_start : twoTasks.Start 0 [1, 2] := by
  refine ⟨⟨by decide, ?_⟩, fun n => ⟨by simp, rfl, rfl⟩, fun _ => rfl, rfl, by decide,
    fun _ _ => rfl, fun t => ?_, rfl, fun _ _ => id, fun _ => rfl, fun _ => rfl⟩
  · simp only [Rings.Path]
    decide
  · revert t
    decide

/-- They have called nothing. -/
def ofState (fs : State D) : World (Fin 3) D where
  sched := twoTasks
  fs := fs
  todo _ := []
  held _ := []

theorem ofState_reachable {y : Client D} {p : Str} {fs : Nat} (h : Client.boot E p fs = some y)
    (ok : World (Fin 3) D → Move → Prop) : (ofState y.state).Reachable E 0 ok :=
  ⟨_, ⟨⟨_, twoTasks_start⟩, ⟨p, fs, y, h, rfl⟩, fun _ => rfl, fun _ => rfl⟩, .refl⟩

/-- Both tasks open the root, and task 1 is switched out with the `i_lock`. -/
theorem twoTasks_open : ∃ w : World (Fin 3) Unit, w.Reachable Client.oneName 0 Uncontended ∧
    w.sched.pc w.current = .yielding 0 ∧ w.sched.preemptCounter = 0 := by
  have hrun : ((Client.boot Client.oneName [slash] 0).bind fun y => moves Client.oneName 0
      (fun w a => a = .op → w.sched.preemptCounter = 0) 9 [.call (.openInode 0), .op, .run, .run,
        .tick, .call (.openInode 0), .op, .run, .run] (ofState y.state)).any
      (fun w => decide (w.sched.pc w.current = .yielding 0)) = true := by
    decide +kernel
  obtain ⟨w, hw, hpc⟩ := (Option.any_eq_true _ _).1 hrun
  obtain ⟨y, hy, hmoves⟩ := Option.bind_eq_some_iff.1 hw
  have hok (w : World (Fin 3) Unit) (a : Move) (ha : a = .op → w.sched.preemptCounter = 0) :
      w.Uncontended a := by
    intro hop hcontended
    exact absurd (ha hop) (Nat.pos_iff_ne_zero.1 hcontended.1)
  have hreach := reachable_moves hok (ofState_reachable hy _) hmoves
  exact ⟨w, hreach, of_decide_eq_true hpc, hreach.yield_counter 0 (of_decide_eq_true hpc)⟩

/-- Task 1 opens the inode of `/a`, and is switched out with its `i_lock`. Task 2 traverses `/a`. -/
theorem yield_in_traverse : ¬ ∀ w : World (Fin 3) Unit,
    w.Reachable Client.oneName 0 (fun _ _ => True) → ∀ o, w.sched.pc w.current = .yielding o →
      w.sched.preemptCounter = 0 := by
  intro hclaim
  have hrun : ((Client.boot Client.oneName [slash] 0).bind fun y => moves Client.oneName 0
      (fun _ _ => True) 9 [.call (.traverse [slash, 0x61]), .op, .op, .op, .op, .run,
      .run, .op, .op,
        .run, .run, .op, .op, .op, .op, .op, .call (.openInode 1), .op, .run, .run, .tick,
        .call (.traverse [slash, 0x61]), .op, .op, .op, .op, .run, .run] (ofState y.state)).any
      (fun w => decide (w.sched.pc w.current = .yielding 1 ∧ w.sched.preemptCounter = 1)) =
        true := by
    decide +kernel
  obtain ⟨w, hw, hend⟩ := (Option.any_eq_true _ _).1 hrun
  obtain ⟨y, hy, hmoves⟩ := Option.bind_eq_some_iff.1 hw
  obtain ⟨hpc, hone⟩ := of_decide_eq_true hend
  have hreach :=
    reachable_moves (fun _ _ _ => trivial) (ofState_reachable hy fun _ _ => True) hmoves
  have hzero := hclaim w hreach 1 hpc
  omega

end World

end TinyLittleOs.Fs
