import TinyLittleOs.Lib.ByteMem
import Mathlib.Logic.Relation

/-!
# The stack trace of a panic

The loop of `__kpanic_internal_after` over the saved frame pointers. The frames that it dereferences
are listed.
-/

namespace TinyLittleOs.Util

open Lib Relation

/-- `frame_min` -/
def frameMin (frame : Nat) : Nat := frame / 8192 * 8192

/-- `frame_max` -/
def frameMax (frame : Nat) : Nat := (frameMin frame + 8192) % 2 ^ 32

/-- The condition of the loop. -/
def Within (lo hi frame : Nat) : Prop := frame ≠ 0 ∧ lo ≤ frame ∧ frame ≤ hi

instance (lo hi frame : Nat) : Decidable (Within lo hi frame) := inferInstanceAs (Decidable (_ ∧ _))

/-- The loop, where `seen` are the frames that it has dereferenced. The first word of a frame is the
saved `ebp`, and the second one is `eip`. -/
def traceLoop (m : ByteMem) (lo hi : Nat) : Nat → Nat → List Nat → Option (List Nat)
  | 0, _, _ => none
  | fuel + 1, frame, seen =>
    if Within lo hi frame then
      let next := m.load32 frame
      if next ≤ frame then some (seen ++ [frame])
      else traceLoop m lo hi fuel next (seen ++ [frame])
    else some seen

def stackTrace (fuel : Nat) (m : ByteMem) (frame : Nat) : Option (List Nat) :=
  traceLoop m (frameMin frame) (frameMax frame) fuel frame []

/-- The loop goes on from one frame to the next. -/
def Follows (m : ByteMem) (lo hi f g : Nat) : Prop := Within lo hi f ∧ f < g ∧ m.load32 f = g

section Loop

variable {m : ByteMem} {lo hi frame : Nat}

theorem Follows.unique {g g' : Nat} (h : Follows m lo hi frame g) (h' : Follows m lo hi frame g') :
    g = g' := h.2.2.symm.trans h'.2.2

/-- The frames ascend up to `hi`, so the loop ends, and it dereferences those that it comes to. -/
theorem traceLoop_spec {fuel : Nat} (h0 : 0 < fuel) (hfuel : hi + 1 < frame + fuel)
    (seen : List Nat) :
    ∃ l, (∀ k ≥ fuel, traceLoop m lo hi k frame seen = some (seen ++ l)) ∧
      ∀ f, f ∈ l ↔ ReflTransGen (Follows m lo hi) frame f ∧ Within lo hi f := by
  induction fuel generalizing frame seen with
  | zero => exact absurd h0 (Nat.lt_irrefl 0)
  | succ fuel ih =>
    have hstop (h : ∀ g, ¬ Follows m lo hi frame g) (f : Nat) :
        ReflTransGen (Follows m lo hi) frame f ↔ f = frame := by
      constructor
      · intro hr
        rcases hr.cases_head with he | ⟨g, hg, -⟩
        · exact he.symm
        · exact absurd hg (h g)
      · rintro rfl
        exact .refl
    by_cases hin : Within lo hi frame
    · by_cases hnext : m.load32 frame ≤ frame
      · refine ⟨[frame], fun k hk => ?_, fun f => ?_⟩
        · obtain ⟨k, rfl⟩ : ∃ j, k = j + 1 := ⟨k - 1, by omega⟩
          rw [traceLoop, if_pos hin, if_pos hnext]
        · rw [hstop, List.mem_singleton]
          · constructor
            · rintro rfl
              exact ⟨rfl, hin⟩
            · exact And.left
          · rintro g ⟨-, hlt, rfl⟩
            omega
      · have hle := hin.2.2
        obtain ⟨l, hl, hmem⟩ := @ih (m.load32 frame) (by omega) (by omega) (seen ++ [frame])
        refine ⟨frame :: l, fun k hk => ?_, fun f => ?_⟩
        · obtain ⟨k, rfl⟩ : ∃ j, k = j + 1 := ⟨k - 1, by omega⟩
          rw [traceLoop, if_pos hin, if_neg hnext, hl k (by omega), List.append_assoc,
            List.singleton_append]
        · have hfollows : Follows m lo hi frame (m.load32 frame) := ⟨hin, by omega, rfl⟩
          rw [List.mem_cons, hmem]
          constructor
          · rintro (rfl | ⟨hr, hf⟩)
            · exact ⟨.refl, hin⟩
            · exact ⟨.head hfollows hr, hf⟩
          · rintro ⟨hr, hf⟩
            rcases hr.cases_head with he | ⟨g, hg, hr⟩
            · exact .inl he.symm
            · rw [hg.unique hfollows] at hr
              exact .inr ⟨hr, hf⟩
    · refine ⟨[], fun k hk => ?_, fun f => ?_⟩
      · obtain ⟨k, rfl⟩ : ∃ j, k = j + 1 := ⟨k - 1, by omega⟩
        rw [traceLoop, if_neg hin, List.append_nil]
      · rw [hstop fun g hg => hin hg.1]
        refine iff_of_false List.not_mem_nil ?_
        rintro ⟨rfl, hf⟩
        exact hin hf

end Loop

theorem stackTrace_spec (m : ByteMem) (frame : Nat) :
    ∃ l, (∀ k ≥ 8194, stackTrace k m frame = some l) ∧ ∀ f, f ∈ l ↔
      ReflTransGen (Follows m (frameMin frame) (frameMax frame)) frame f ∧
        Within (frameMin frame) (frameMax frame) f := by
  have hmin : frameMin frame ≤ frame := Nat.div_mul_le_self ..
  have hmax : frameMax frame ≤ frameMin frame + 8192 := Nat.mod_le ..
  have hloop : frameMax frame + 1 < frame + 8194 := by omega
  exact traceLoop_spec (by omega) hloop []

/-- The 8 bytes of the frame lie in the stack of `frame`. -/
def Whole (frame f : Nat) : Prop := frameMin frame ≤ f ∧ f + 8 ≤ frameMin frame + 8192

instance (frame f : Nat) : Decidable (Whole frame f) := inferInstanceAs (Decidable (_ ∧ _))

/-- The chain of the saved frame pointers, as long as it ascends through whole frames of the
stack. -/
def Chained (m : ByteMem) (frame : Nat) : Nat → Prop :=
  ReflTransGen (fun f g => f ≠ 0 ∧ Whole frame f ∧ f < g ∧ m.load32 f = g) frame

/-- A frame that the loop dereferences is whole unless it lies at the end of the stack. -/
theorem whole_of_within {m : ByteMem} {frame f : Nat}
    (hend : ∀ g, Chained m frame g → ¬ (frameMin frame + 8184 < g ∧ g ≤ frameMax frame))
    (hf : Chained m frame f) (hin : Within (frameMin frame) (frameMax frame) f) :
    Whole frame f := by
  have hnot := hend f hf
  obtain ⟨-, hlo, hhi⟩ := hin
  exact ⟨hlo, by omega⟩

/-- The stack trace ends for every content of the stack. It dereferences only whole frames exactly
when the chain does not come to the end of the stack, or to an address less than 8 bytes before
it. -/
theorem stackTrace_whole_iff (m : ByteMem) (frame : Nat) :
    ∃ fuel₀ seen, (∀ fuel ≥ fuel₀, stackTrace fuel m frame = some seen) ∧
      ((∀ f ∈ seen, Whole frame f) ↔
        ∀ f, Chained m frame f → ¬ (frameMin frame + 8184 < f ∧ f ≤ frameMax frame)) := by
  obtain ⟨l, hl, hmem⟩ := stackTrace_spec m frame
  refine ⟨8194, l, hl, ⟨fun hwhole f hf hlast => ?_, fun hend f hf => ?_⟩⟩
  · -- the frame below 2 ^ 32 is not the end of the stack unless the sum does not wrap
    have hsum : frameMax frame = frameMin frame + 8192 := by
      rw [frameMax] at hlast ⊢
      omega
    have hreach : ReflTransGen (Follows m (frameMin frame) (frameMax frame)) frame f := by
      refine ReflTransGen.mono (fun a b hstep => ?_) _ _ hf
      obtain ⟨hne, ⟨hlo, hhi⟩, hlt, hload⟩ := hstep
      exact ⟨⟨hne, hlo, by omega⟩, hlt, hload⟩
    have hin : Within (frameMin frame) (frameMax frame) f := ⟨by omega, by omega, hlast.2⟩
    have hlt := (hwhole f ((hmem f).2 ⟨hreach, hin⟩)).2
    omega
  · obtain ⟨hreach, hin⟩ := (hmem f).1 hf
    refine whole_of_within hend ?_ hin
    induction hreach with
    | refl => exact .refl
    | tail hr hstep ih =>
      have hchained := ih ((hmem _).2 ⟨hr, hstep.1⟩) hstep.1
      exact hchained.tail ⟨hstep.1.1, whole_of_within hend hchained hstep.1, hstep.2⟩

/-- A stack whose only frame holds the address where the stack ends. -/
def topFrame : ByteMem := ByteMem.store32 (fun _ => 0) 0xC0106000 0xC0108000

/-- The frame of the end of the stack is dereferenced. -/
theorem stackTrace_past_end : ¬ ∀ (m : ByteMem) (frame : Nat), frame < 2 ^ 32 →
    ∃ fuel₀ seen, (∀ fuel ≥ fuel₀, stackTrace fuel m frame = some seen) ∧
      ∀ f ∈ seen, Whole frame f := by
  intro hclaim
  obtain ⟨fuel₀, seen, hrun, hwhole⟩ := hclaim topFrame 0xC0106000 (by decide)
  obtain ⟨l, hl, hmem⟩ := stackTrace_spec topFrame 0xC0106000
  have hsame := hrun (max fuel₀ 8194) (Nat.le_max_left ..)
  rw [hl _ (Nat.le_max_right ..), Option.some.injEq] at hsame
  have hfollows : Follows topFrame (frameMin 0xC0106000) (frameMax 0xC0106000) 0xC0106000
      0xC0108000 :=
    ⟨by decide, by decide, by decide +kernel⟩
  have hseen : 0xC0108000 ∈ seen := by
    rw [← hsame, hmem]
    exact ⟨.single hfollows, by decide⟩
  exact absurd (hwhole _ hseen) (by decide)

end TinyLittleOs.Util
