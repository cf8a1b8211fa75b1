import TinyLittleOs.Scheduler.Tasks

/-!
# The lists of waiters, and the search for the next task

The tasks that wait for a mutex are in the ring of its list, in the order in which they blocked,
and a task in no ring is on its own. The search finds the first task after the current one that is
not blocked.
-/

namespace TinyLittleOs.Scheduler

open Lib Function

variable {ι μ : Type}

/-- The tasks `queue m` wait in the ring of `m`. -/
structure Queues (R : Rings (Node ι μ)) (queue : μ → List ι) : Prop where
  cycle : ∀ m, R.Cycle (.mutex m) ((queue m).map .task)
  alone : ∀ t, (∀ m, t ∉ queue m) → R.Cycle (.task t) []
  once : ∀ t m m', t ∈ queue m → t ∈ queue m' → m = m'

namespace Queues

variable {R : Rings (Node ι μ)} {queue : μ → List ι} {t w : ι} {m : μ} {q : List ι}

theorem lonely_task (h : Queues R queue) : ¬ R.Lonely (.task t) ↔ ∃ m, t ∈ queue m := by
  constructor
  · intro hlonely
    by_contra hnone
    exact hlonely ((h.alone t fun m hm => hnone ⟨m, hm⟩).lonely_iff.2 rfl)
  · rintro ⟨m, hm⟩ hlonely
    obtain ⟨a, b, hab⟩ := List.append_of_mem hm
    have hcycle := h.cycle m
    rw [hab, List.map_append, List.map_cons] at hcycle
    have hnil := hcycle.rotate.lonely_iff.1 hlonely
    simp at hnil

theorem lonely_mutex (h : Queues R queue) : R.Lonely (.mutex m) ↔ queue m = [] := by
  rw [(h.cycle m).lonely_iff, List.map_eq_nil_iff]

theorem next_mutex (h : Queues R queue) (hq : queue m = w :: q) :
    R.next (.mutex m) = .task w := by
  have hcycle := h.cycle m
  rw [hq] at hcycle
  exact hcycle.path.1

/-- The rings of two mutexes are apart. -/
theorem disjoint (h : Queues R queue) {m' : μ} (hne : m' ≠ m) :
    ∀ z ∈ Node.mutex m' :: (queue m').map .task, z ∉ Node.mutex m :: (queue m).map .task := by
  intro z hz hz'
  rw [List.mem_cons, List.mem_map] at hz hz'
  rcases hz with rfl | ⟨t, ht, rfl⟩
  · simp [hne] at hz'
  · rcases hz' with hbad | ⟨t', ht', he⟩
    · cases hbad
    · cases he
      exact hne (h.once t m' m ht ht')

/-- A task that waits for nothing is in no ring of a mutex. -/
theorem task_not_mem (ht : ∀ m, t ∉ queue m) (m : μ) :
    Node.task t ∉ Node.mutex m :: (queue m).map .task := by
  rw [List.mem_cons, List.mem_map]
  rintro (hbad | ⟨t', ht', he⟩)
  · cases hbad
  · cases he
    exact ht m ht'

variable [DecidableEq ι] [DecidableEq μ]

/-- A task that waits for nothing goes to the end of the ring. -/
theorem blockOn (h : Queues R queue) (ht : ∀ m, t ∉ queue m) (m : μ) :
    Queues (R.addAfterSelf (R.prev (.mutex m)) (.task t)) (update queue m (queue m ++ [t])) := by
  have hcycle := h.cycle m
  obtain ⟨l, hl, hperm⟩ := hcycle.at_mem hcycle.prev_mem
  have hother : ∀ y k, R.Cycle y k → (∀ z ∈ y :: k, z ≠ .task t) →
      (∀ z ∈ y :: k, z ∉ Node.mutex m :: (queue m).map .task) →
      (R.addAfterSelf (R.prev (.mutex m)) (.task t)).Cycle y k := by
    intro y k hy hne hout
    refine hl.addAfterSelf_other hy fun z hz => ?_
    rw [List.mem_cons, hperm.mem_iff, not_or]
    exact ⟨hne z hz, hout z hz⟩
  refine ⟨fun m' => ?_, fun t' ht' => ?_, fun t' m₁ m₂ h₁ h₂ => ?_⟩
  · by_cases hm : m' = m
    · subst hm
      rw [update_self, List.map_append, List.map_singleton]
      exact hcycle.addAfterPrev (task_not_mem ht m')
    · rw [update_of_ne hm]
      refine hother _ _ (h.cycle m') (fun z hz => ?_) (h.disjoint hm)
      rintro rfl
      exact task_not_mem ht m' hz
  · have hne : t' ≠ t := by
      rintro rfl
      exact ht' m (by simp)
    have hold : ∀ m', t' ∉ queue m' := by
      intro m' hm'
      by_cases hm : m' = m
      · subst hm
        exact ht' m' (by simp [hm'])
      · exact ht' m' (by rwa [update_of_ne hm])
    refine hother _ _ (h.alone t' hold) (fun z hz => ?_) fun z hz => ?_
    · rw [List.mem_singleton] at hz
      subst hz
      simpa using hne
    · rw [List.mem_singleton] at hz
      subst hz
      exact task_not_mem hold m
  · have hmem : ∀ m', t' ∈ update queue m (queue m ++ [t]) m' →
        t' ∈ queue m' ∨ t' = t ∧ m' = m := by
      intro m' hm'
      by_cases hm : m' = m
      · subst hm
        simpa using hm'
      · left
        rwa [update_of_ne hm] at hm'
    rcases hmem m₁ h₁ with k₁ | ⟨he₁, hm₁⟩ <;> rcases hmem m₂ h₂ with k₂ | ⟨he₂, hm₂⟩
    · exact h.once t' m₁ m₂ k₁ k₂
    · rw [he₂] at k₁
      exact absurd k₁ (ht m₁)
    · rw [he₁] at k₂
      exact absurd k₂ (ht m₂)
    · rw [hm₁, hm₂]

/-- The first waiter leaves the ring. -/
theorem unlinkFirst (h : Queues R queue) (hq : queue m = w :: q) :
    Queues (R.unlink (.task w)) (update queue m q) := by
  have hcycle : R.Cycle (.mutex m) ([] ++ .task w :: q.map .task) := by
    have hm := h.cycle m
    rwa [hq] at hm
  have hw : w ∈ queue m := by
    rw [hq]
    exact List.mem_cons_self
  have hwq : w ∉ q := by
    intro hbad
    have hnodup := (List.nodup_cons.1 hcycle.nodup).2
    rw [List.nil_append, List.nodup_cons] at hnodup
    exact hnodup.1 (List.mem_map_of_mem hbad)
  have hrotated := hcycle.rotate
  have hsame : ∀ z, z ∈ Node.task w :: (q.map .task ++ [.mutex m]) →
      z ∈ Node.mutex m :: (queue m).map .task := by
    intro z hz
    rw [hq]
    simp only [List.mem_cons, List.mem_append, List.map_cons, List.not_mem_nil, or_false] at hz ⊢
    tauto
  have hother : ∀ y k, R.Cycle y k →
      (∀ z ∈ y :: k, z ∉ Node.mutex m :: (queue m).map .task) →
      (R.unlink (.task w)).Cycle y k := by
    intro y k hy hout
    exact hy.unlink_other hrotated fun z hz hz' => hout z hz (hsame z hz')
  refine ⟨fun m' => ?_, fun t ht => ?_, fun t m₁ m₂ h₁ h₂ => ?_⟩
  · by_cases hm : m' = m
    · subst hm
      rw [update_self]
      exact hcycle.unlink
    · rw [update_of_ne hm]
      exact hother _ _ (h.cycle m') (h.disjoint hm)
  · by_cases htw : t = w
    · subst htw
      exact Rings.unlink_self
    · have hold : ∀ m', t ∉ queue m' := by
        intro m' hm'
        by_cases hm : m' = m
        · subst hm
          refine ht m' ?_
          rw [update_self]
          rw [hq, List.mem_cons] at hm'
          exact hm'.resolve_left htw
        · exact ht m' (by rwa [update_of_ne hm])
      refine hother _ _ (h.alone t hold) fun z hz => ?_
      rw [List.mem_singleton] at hz
      subst hz
      exact task_not_mem hold m
  · have hmem : ∀ m', t ∈ update queue m q m' → t ∈ queue m' := by
      intro m' hm'
      by_cases hm : m' = m
      · subst hm
        rw [update_self] at hm'
        rw [hq]
        exact List.mem_cons_of_mem w hm'
      · rwa [update_of_ne hm] at hm'
    exact h.once t m₁ m₂ (hmem m₁ h₁) (hmem m₂ h₂)

end Queues

/-! ## The search for the next task -/

namespace State

variable [DecidableEq ι] [DecidableEq μ] {s : State ι μ} {fuel : Nat} {t t' idle : ι} {l : List ι}

theorem pickLoop_not_blocked (h : s.pickLoop fuel t = some t') : ¬ s.IsBlocked t' := by
  induction fuel generalizing t with
  | zero => cases h
  | succ fuel ih =>
    rw [pickLoop] at h
    split at h
    · exact ih h
    · rename_i hfree
      cases h
      exact hfree

theorem pickLoop_mem (hring : s.scheduling.Cycle idle l) (ht : t ∈ idle :: l)
    (h : s.pickLoop fuel t = some t') : t' ∈ idle :: l := by
  induction fuel generalizing t with
  | zero => cases h
  | succ fuel ih =>
    have hnext : s.scheduling.next t ∈ idle :: l := by
      obtain ⟨k, hk, hperm⟩ := hring.at_mem ht
      exact hperm.mem_iff.1 hk.next_mem
    rw [pickLoop] at h
    split at h
    · exact ih hnext h
    · cases h
      exact hnext

/-- On the way from one task to another, the search takes the first that is not blocked. -/
theorem pickLoop_path {x y u : ι} (hpath : s.scheduling.Path x l y) (hu : u ∈ l ++ [y])
    (hfree : ¬ s.IsBlocked u) (hfuel : l.length < fuel) :
    s.pickLoop fuel x = (l ++ [y]).find? fun z => decide (¬ s.IsBlocked z) := by
  induction l generalizing x fuel with
  | nil =>
    obtain ⟨fuel, rfl⟩ := Nat.exists_eq_succ_of_ne_zero (Nat.ne_of_gt hfuel)
    obtain rfl : u = y := by simpa using hu
    rw [pickLoop, hpath.1, if_neg hfree]
    simp [hfree]
  | cons z l ih =>
    obtain ⟨fuel, rfl⟩ := Nat.exists_eq_succ_of_ne_zero (Nat.ne_of_gt (Nat.zero_lt_of_lt hfuel))
    obtain ⟨hx, -, htail⟩ := hpath
    rw [pickLoop, hx]
    by_cases hz : s.IsBlocked z
    · have hu' : u ∈ l ++ [y] := by
        rw [List.cons_append, List.mem_cons] at hu
        rcases hu with rfl | hu
        · exact absurd hz hfree
        · exact hu
      rw [if_pos hz, ih htail hu' (Nat.lt_of_succ_lt_succ hfuel)]
      simp [hz]
    · rw [if_neg hz]
      simp [hz]

/-- The search round the ring takes the first task behind the current one that is not blocked. -/
theorem pickLoop_cycle {x u : ι} (hring : s.scheduling.Cycle x l) (hu : u ∈ x :: l)
    (hfree : ¬ s.IsBlocked u) (hfuel : l.length < fuel) :
    s.pickLoop fuel x = (l ++ [x]).find? fun z => decide (¬ s.IsBlocked z) := by
  refine pickLoop_path hring.path (u := u) ?_ hfree hfuel
  rw [List.mem_append, List.mem_singleton, or_comm]
  exact List.mem_cons.1 hu

theorem exists_pickLoop {u : ι} (hring : s.scheduling.Cycle idle l) (ht : t ∈ idle :: l)
    (hu : u ∈ idle :: l) (hfree : ¬ s.IsBlocked u) (hfuel : l.length < fuel) :
    ∃ t', s.pickLoop fuel t = some t' := by
  obtain ⟨k, hk, hperm⟩ := hring.at_mem ht
  have hlength : k.length = l.length := by
    have := hperm.length_eq
    rwa [List.length_cons, List.length_cons, Nat.succ_inj] at this
  rw [pickLoop_cycle hk (hperm.mem_iff.2 hu) hfree (by omega), ← Option.isSome_iff_exists,
    List.find?_isSome]
  have hu' := hperm.mem_iff.2 hu
  refine ⟨u, ?_, by simpa using hfree⟩
  rw [List.mem_append, List.mem_singleton, or_comm]
  exact List.mem_cons.1 hu'

end State

end TinyLittleOs.Scheduler
