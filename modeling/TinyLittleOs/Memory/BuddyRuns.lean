import TinyLittleOs.Memory.KmemBlocks
import Mathlib.Logic.Relation

/-!
# Runs of one buddy

A buddy that starts all free, through any calls of `alloc<N>` and `free<N>` of the four
sizes. Its bitmaps are a function of the live blocks: what was split and coalesced on the way
leaves no trace.
-/

namespace TinyLittleOs.Memory

open Lib Relation

namespace Kmem

/-- Every block of buddy `b` is free. -/
def AllFree (s : Kmem) (b : Nat) : Prop := ∀ n, s.bits n b = .ones n.width n.words

/-- A call on buddy `b` and the list of its live blocks: `alloc<N>` while the `kN` bitmap is not
zero, and `free<N>` of a live block. -/
inductive BuddyStep (b : Nat) : Kmem × List Block → Kmem × List Block → Prop
  | alloc {s s' : Kmem} {L : List Block} {n : BlockSize} {i p : Nat} :
      (s.bits n b).isZero = false → s.findFree n b = .ok i → s.alloc n b = .ok (p, s') →
      BuddyStep b (s, L) (s', ⟨n, b, i⟩ :: L)
  | free {s : Kmem} {u v : List Block} {n : BlockSize} {i : Nat} :
      BuddyStep b (s, u ++ ⟨n, b, i⟩ :: v) (s.free n b i, u ++ v)

/-- The live blocks are blocks of the buddy, apart from each other, and the bitmaps mark the
rest. -/
structure Live (b : Nat) (s : Kmem) (L : List Block) : Prop extends s.Marks b L where
  valid : ∀ x ∈ L, x.buddy = b ∧ x.index < x.size.count
  apart : L.Pairwise Block.Apart

theorem Live.start {s : Kmem} {b : Nat} (h : s.AllFree b) : Live b s [] := by
  have hbit (n : BlockSize) (i : Nat) : s.bit n b i = decide (i < n.count) := by
    rw [bit, h n, Bitmap.bit_ones]
    cases n <;> rfl
  refine ⟨⟨fun p hp => ?_, ?_⟩, by simp, .nil⟩
  · rw [hbit]
    simp only [List.not_mem_nil, false_imp_iff, implies_true, iff_true]
    exact decide_eq_true hp
  · constructor <;> intro j <;> rw [Bool.eq_iff_iff, Bool.and_eq_true] <;>
      simp only [hbit, decide_eq_true_eq] <;> simp only [BlockSize.count] <;> omega

theorem Live.step {b : Nat} {c c' : Kmem × List Block} (h : Live b c.1 c.2)
    (hs : BuddyStep b c c') : Live b c'.1 c'.2 := by
  cases hs with
  | @alloc s s' L n i p hne hi hs =>
    have hbit := (findFree_eq_ok hi).1
    have hlt := bit_lt hbit
    rw [Kmem.alloc, hi] at hs
    obtain ⟨-, rfl⟩ := Prod.mk.inj (Except.ok.inj hs)
    refine ⟨h.toMarks.allocAt h.coalesced hlt, ?_, ?_⟩
    · exact List.forall_mem_cons.2 ⟨⟨rfl, hlt⟩, h.valid⟩
    · exact List.pairwise_cons.2 ⟨(h.toMarks.bit_iff hlt).1 hbit, h.apart⟩
  | @free s u v n i =>
    have hi := (h.valid ⟨n, b, i⟩ (by simp)).2
    refine ⟨h.toMarks.free' hi (apart_of_pairwise h.apart), fun x hx => ?_, ?_⟩
    · exact h.valid x (by grind)
    · exact h.apart.sublist (by simp)

theorem Live.run {b : Nat} {s₀ : Kmem} (h : s₀.AllFree b) {c : Kmem × List Block}
    (hr : ReflTransGen (BuddyStep b) (s₀, []) c) : Live b c.1 c.2 := by
  induction hr with
  | refl => exact .start h
  | tail _ hstep ih => exact ih.step hstep

/-- Bitmaps that mark the same blocks are equal. -/
theorem Marks.bits_eq {s s' : Kmem} {b : Nat} {L L' : List Block} (h : s.Marks b L)
    (h' : s'.Marks b L') (hL : ∀ x, x ∈ L ↔ x ∈ L') (n : BlockSize) : s'.bits n b = s.bits n b := by
  have hpage (p : Nat) : s'.bit .k4 b p = true ↔ s.bit .k4 b p = true := by
    by_cases hp : p < 128
    · rw [h.free p hp, h'.free p hp]
      simp only [hL]
    · exact ⟨fun hbit => absurd (bit_lt hbit) hp, fun hbit => absurd (bit_lt hbit) hp⟩
  refine Bitmap.ext_bit fun i => ?_
  rw [Bool.eq_iff_iff]
  have hbit := h.coalesced.bit_iff (n := n) (i := i)
  have hbit' := h'.coalesced.bit_iff (n := n) (i := i)
  simp only [hpage] at hbit'
  exact hbit'.trans hbit.symm

/-- The bitmaps are a function of the set of live blocks, and freeing all of them restores the
start. -/
theorem buddy_marks {b : Nat} {s₀ : Kmem} (h : s₀.AllFree b) {s : Kmem} {L : List Block}
    (hr : ReflTransGen (BuddyStep b) (s₀, []) (s, L)) :
    s.Marks b L ∧
      (∀ s₀' s' L', s₀'.AllFree b → ReflTransGen (BuddyStep b) (s₀', []) (s', L') →
        (∀ x, x ∈ L ↔ x ∈ L') → ∀ n, s'.bits n b = s.bits n b) ∧
      (L = [] → s.AllFree b) := by
  have hlive := Live.run h hr
  refine ⟨hlive.toMarks, fun s₀' s' L' h' hr' hL n => ?_, ?_⟩
  · exact hlive.toMarks.bits_eq (Live.run h' hr').toMarks hL n
  · rintro rfl n
    rw [(Live.start h).toMarks.bits_eq hlive.toMarks (fun _ => Iff.rfl) n, h n]

/-- A buddy is all free when it is created. -/
theorem buddyNewNoAlloc_allFree (s : Kmem) : s.buddyNewNoAlloc.AllFree s.buddyArrayPos := by
  simp [AllFree, buddyNewNoAlloc]

/-- kmem before any buddy is created. -/
def noBuddy : Kmem where
  buddyArray := 0xC0100000
  buddyArraySize := 0x8000
  buddyArrayPos := 0
  bits := fun n _ => .ones n.width n.words
  links := fun _ => ⟨fun _ => none, fun _ => none⟩

def oneBuddy : Kmem := noBuddy.buddyNewNoAlloc

/-- Two blocks of 8 KiB are taken, and the first is freed. -/
theorem buddy_marks_oneBuddy :
    (((oneBuddy.allocAt .k8 0 0).allocAt .k8 0 1).free .k8 0 0).Marks 0 [⟨.k8, 0, 1⟩] := by
  have hfree : oneBuddy.AllFree 0 := noBuddy.buddyNewNoAlloc_allFree
  have hfind : oneBuddy.findFree .k8 0 = .ok 0 := noBuddy.findFree_buddyNewNoAlloc .k8
  have halloc : oneBuddy.alloc .k8 0 =
      .ok (oneBuddy.blockAddr .k8 0 0, oneBuddy.allocAt .k8 0 0) := by
    rw [Kmem.alloc, hfind]
    rfl
  have hfirst : BuddyStep 0 (oneBuddy, []) (oneBuddy.allocAt .k8 0 0, [⟨.k8, 0, 0⟩]) :=
    .alloc (by decide) hfind halloc
  have hfind' : (oneBuddy.allocAt .k8 0 0).findFree .k8 0 = .ok 1 := by decide +kernel
  have halloc' : (oneBuddy.allocAt .k8 0 0).alloc .k8 0 =
      .ok ((oneBuddy.allocAt .k8 0 0).blockAddr .k8 0 1,
        (oneBuddy.allocAt .k8 0 0).allocAt .k8 0 1) := by
    rw [Kmem.alloc, hfind']
    rfl
  have hsecond : BuddyStep 0 (oneBuddy.allocAt .k8 0 0, [⟨.k8, 0, 0⟩])
      ((oneBuddy.allocAt .k8 0 0).allocAt .k8 0 1, [⟨.k8, 0, 1⟩, ⟨.k8, 0, 0⟩]) :=
    .alloc (by decide +kernel) hfind' halloc'
  have hthird : BuddyStep 0
      ((oneBuddy.allocAt .k8 0 0).allocAt .k8 0 1, [⟨.k8, 0, 1⟩, ⟨.k8, 0, 0⟩])
      (((oneBuddy.allocAt .k8 0 0).allocAt .k8 0 1).free .k8 0 0, [⟨.k8, 0, 1⟩]) :=
    .free (u := [⟨.k8, 0, 1⟩]) (v := [])
  exact (buddy_marks hfree (((ReflTransGen.single hfirst).tail hsecond).tail hthird)).1

end Kmem

end TinyLittleOs.Memory
