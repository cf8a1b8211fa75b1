import TinyLittleOs.Memory.Slab
import Mathlib.Data.List.Nodup
import Mathlib.Logic.Relation

/-!
# Runs of the slab allocator

The clients allocate and free objects and write to the objects they own and to memory outside
the slabs. A bit of a slab is set exactly when no live object has its slot, and the free list
links the slabs with a set bit.
-/

namespace TinyLittleOs.Memory.Slab

open Lib Ds Relation

/-- A live object: its address, and the slab and bit that `allocate` chose for it. -/
structure Obj where
  ptr : Nat
  slab : Nat
  bit : Nat
  deriving DecidableEq

/-- The allocator, the pages it took and the live objects. -/
structure Client where
  heap : Heap
  slabs : List Nat
  live : List Obj

/-- `kmem_alloc_pages` returns a page that the allocator does not have yet. -/
structure Fresh (N : Nat) (slabs : List Nat) (page : Nat) : Prop where
  aligned : pageSize N ∣ page
  ne_zero : page ≠ 0
  le : page + pageSize N ≤ 2 ^ 32
  not_mem : page ∉ slabs

/-- The calls, and the writes of the owners of live objects and of the memory outside the slabs. -/
inductive Step (N : Nat) : Client → Client → Prop
  | refill {c : Client} {page : Nat} : c.heap.freeList = 0 → Fresh N c.slabs page →
      Step N c
        { heap := (c.heap.allocate N page).2
          slabs := page :: c.slabs
          live := ⟨(c.heap.allocate N page).1, ((c.heap.refill N page).slot N).1,
            ((c.heap.refill N page).slot N).2⟩ :: c.live }
  | allocate {c : Client} {page : Nat} : c.heap.freeList ≠ 0 →
      Step N c
        { heap := (c.heap.allocate N page).2
          slabs := c.slabs
          live := ⟨(c.heap.allocate N page).1, (c.heap.slot N).1, (c.heap.slot N).2⟩ :: c.live }
  | free {c : Client} {o : Obj} {u v : List Obj} : c.live = u ++ o :: v →
      Step N c { c with heap := c.heap.free N o.ptr, live := u ++ v }
  | write {c : Client} {m : ByteMem} :
      (∀ x, m x = c.heap.mem x ∨ (∃ o ∈ c.live, o.ptr ≤ x ∧ x < o.ptr + N) ∨
        ∀ s ∈ c.slabs, x < s ∨ s + pageSize N ≤ x) →
      Step N c { c with heap := { c.heap with mem := m } }

/-! ## The invariant -/

/-- The memory as the links `m_next` see it. -/
def nexts (N : Nat) (m : ByteMem) : ByteMem := fun x => m (x + nextOffset N)

theorem load32_nexts (N : Nat) (m : ByteMem) (s : Nat) :
    (nexts N m).load32 s = m.load32 (s + nextOffset N) := by
  simp only [ByteMem.load32, nexts, Nat.add_right_comm]

/-- The free list `F` links the slabs with a free slot, whose bits are set. -/
structure Inv (N : Nat) (c : Client) (F : List Nat) : Prop where
  aligned : ∀ s ∈ c.slabs, pageSize N ∣ s
  ne_zero : ∀ s ∈ c.slabs, s ≠ 0
  le : ∀ s ∈ c.slabs, s + pageSize N ≤ 2 ^ 32
  slab_mem : ∀ o ∈ c.live, o.slab ∈ c.slabs
  bit_lt : ∀ o ∈ c.live, o.bit < numObjects N
  ptr : ∀ o ∈ c.live, o.ptr = o.slab + slabSize N + N * o.bit
  nodup : c.live.Nodup
  bits : ∀ s ∈ c.slabs, ∀ i < 32 * Bitset.intCount (bits N),
    Bitset.bit c.heap.mem s i = true ↔ i < numObjects N ∧ ∀ o ∈ c.live, o.slab = s → o.bit ≠ i
  chain : (nexts N c.heap.mem).Chain c.heap.freeList F
  list_nodup : F.Nodup
  list : ∀ s, s ∈ F ↔ s ∈ c.slabs ∧ ∃ i < numObjects N, Bitset.bit c.heap.mem s i = true

variable {N : Nat} {c : Client} {F : List Nat}

theorem Inv.start (m : ByteMem) : Inv N ⟨⟨m, 0⟩, [], []⟩ [] := by
  constructor <;> simp [ByteMem.Chain]

/-- Two slabs do not overlap. -/
theorem apart_of_dvd {P s s' : Nat} (h : P ∣ s) (h' : P ∣ s') (hne : s ≠ s') :
    s + P ≤ s' ∨ s' + P ≤ s := by
  obtain ⟨k, rfl⟩ := h
  obtain ⟨k', rfl⟩ := h'
  have hk : k ≠ k' := fun he => hne (by rw [he])
  rcases Nat.lt_or_gt_of_ne hk with hlt | hlt
  · exact .inl (by rw [← Nat.mul_succ]; exact Nat.mul_le_mul_left P hlt)
  · exact .inr (by rw [← Nat.mul_succ]; exact Nat.mul_le_mul_left P hlt)

/-- What the allocator reads of a slab is its header. -/
structure SameHeader (N : Nat) (m m' : ByteMem) (s : Nat) : Prop where
  bit : ∀ i < 32 * Bitset.intCount (Slab.bits N), Bitset.bit m' s i = Bitset.bit m s i
  next : (nexts N m').load32 s = (nexts N m).load32 s

theorem sameHeader {m m' : ByteMem} {s : Nat}
    (h : ∀ x, s ≤ x → x < s + slabSize N → m' x = m x) : SameHeader N m m' s := by
  have hsize : slabSize N = nextOffset N + 4 := rfl
  have hnext : nextOffset N = 4 * Bitset.intCount (Slab.bits N) := rfl
  constructor
  · exact fun i hi => Bitset.bit_congr hi fun x hx hx' => h x hx (by omega)
  · rw [load32_nexts, load32_nexts]
    exact ByteMem.load32_congr fun x hx hx' => h x (by omega) (by omega)

/-- Writes outside the headers keep the invariant. -/
theorem Inv.write (h : Inv N c F) {m : ByteMem}
    (hm : ∀ s ∈ c.slabs, SameHeader N c.heap.mem m s) :
    Inv N { c with heap := { c.heap with mem := m } } F := by
  have hnum := numObjects_le N
  refine { h with bits := fun s hs i hi => ?_, chain := ?_, list := fun s => ?_ }
  · rw [(hm s hs).bit i hi]
    exact h.bits s hs i hi
  · exact h.chain.congr fun s hs => (hm s ((h.list s).1 hs).1).next
  · rw [h.list]
    refine and_congr_right fun hs => exists_congr fun i => and_congr_right fun hi => ?_
    rw [(hm s hs).bit i (by omega)]

/-- A write to the header of one slab leaves the others alone. -/
theorem sameHeader_of_ne (hN : 0 < N) (hN' : N < 4000) {m m' : ByteMem} {s s' : Nat}
    (hs : pageSize N ∣ s) (hs' : pageSize N ∣ s') (hne : s' ≠ s)
    (h : ∀ x, x < s ∨ s + slabSize N ≤ x → m' x = m x) : SameHeader N m m' s' := by
  have hroom := slabSize_add_le hN hN'
  refine sameHeader fun x hx hx' => h x ?_
  rcases apart_of_dvd hs hs' hne.symm with hlt | hlt <;> omega

/-- Two live objects in one slot are the same. -/
theorem Inv.eq_of_slot (h : Inv N c F) {o o' : Obj} (ho : o ∈ c.live) (ho' : o' ∈ c.live)
    (hs : o.slab = o'.slab) (hb : o.bit = o'.bit) : o = o' := by
  have hptr := h.ptr o ho
  have hptr' := h.ptr o' ho'
  rw [← hs, ← hb, ← hptr] at hptr'
  cases o
  cases o'
  simp_all

/-- A call changes the header of one slab, the objects of that slab, and the list. -/
theorem Inv.edit (hN : 0 < N) (hN' : N < 4000) (h : Inv N c F) {s : Nat} (hs : s ∈ c.slabs)
    (m : ByteMem) (p : Nat) (F' : List Nat) (live : List Obj)
    (hm : ∀ x, x < s ∨ s + slabSize N ≤ x → m x = c.heap.mem x)
    (hlive : ∀ o ∈ live, o ∈ c.live ∨
      o.slab = s ∧ o.bit < numObjects N ∧ o.ptr = s + slabSize N + N * o.bit)
    (hnodup : live.Nodup) (hsame : ∀ o : Obj, o.slab ≠ s → (o ∈ live ↔ o ∈ c.live))
    (hbits : ∀ i < 32 * Bitset.intCount (Slab.bits N),
      Bitset.bit m s i = true ↔ i < numObjects N ∧ ∀ o ∈ live, o.slab = s → o.bit ≠ i)
    (hchain : (nexts N m).Chain p F') (hF : F'.Nodup)
    (hself : s ∈ F' ↔ ∃ i < numObjects N, Bitset.bit m s i = true)
    (hother : ∀ s' ≠ s, s' ∈ F' ↔ s' ∈ F) : Inv N ⟨⟨m, p⟩, c.slabs, live⟩ F' := by
  have hnum := numObjects_le N
  have hheader : ∀ s' ∈ c.slabs, s' ≠ s → SameHeader N c.heap.mem m s' := fun s' hs' hne =>
    sameHeader_of_ne hN hN' (h.aligned s hs) (h.aligned s' hs') hne hm
  constructor
  · exact h.aligned
  · exact h.ne_zero
  · exact h.le
  · intro o ho
    rcases hlive o ho with ho | ⟨rfl, -⟩
    exacts [h.slab_mem o ho, hs]
  · intro o ho
    rcases hlive o ho with ho | ⟨-, hb, -⟩
    exacts [h.bit_lt o ho, hb]
  · intro o ho
    rcases hlive o ho with ho | ⟨rfl, -, hp⟩
    exacts [h.ptr o ho, hp]
  · exact hnodup
  · intro s' hs' i hi
    by_cases he : s' = s
    · subst he
      exact hbits i hi
    · refine ((hheader s' hs' he).bit i hi ▸ h.bits s' hs' i hi).trans ?_
      refine and_congr_right fun _ => forall_congr' fun o => ?_
      by_cases ho : o.slab = s'
      · rw [hsame o (ho ▸ he)]
      · simp [ho]
  · exact hchain
  · exact hF
  · intro s'
    by_cases he : s' = s
    · subst he
      rw [hself, and_iff_right hs]
    · rw [hother s' he, h.list]
      refine and_congr_right fun hs' => exists_congr fun i => and_congr_right fun hi => ?_
      rw [(hheader s' hs' he).bit i (by omega)]

theorem clearBit_of_out {m : ByteMem} {s b x : Nat} (hb : b < 32 * Bitset.intCount (bits N))
    (hx : x < s ∨ s + nextOffset N ≤ x) : Bitset.clearBit m s b x = m x := by
  have hnext : nextOffset N = 4 * Bitset.intCount (Slab.bits N) := rfl
  exact Bitset.clearBit_of_out (by omega)

theorem setBit_of_out {m : ByteMem} {s b x : Nat} (hb : b < 32 * Bitset.intCount (bits N))
    (hx : x < s ∨ s + nextOffset N ≤ x) : Bitset.setBit m s b x = m x := by
  have hnext : nextOffset N = 4 * Bitset.intCount (Slab.bits N) := rfl
  exact Bitset.setBit_of_out (by omega)

/-- The slot that `take` clears in slab `s`, where `F` is the rest of the list. -/
theorem Inv.clear (hN : 0 < N) (hN' : N < 4000) {s b p : Nat} (h : Inv N c (s :: F))
    (hb : b < numObjects N) (hfree : Bitset.bit c.heap.mem s b = true)
    (hp : p = s + slabSize N + N * b) :
    ∃ F', Inv N ⟨⟨Bitset.clearBit c.heap.mem s b,
      if Bitset.allClearUntil (Bitset.clearBit c.heap.mem s b) s (numObjects N) then
        (Bitset.clearBit c.heap.mem s b).load32 (s + nextOffset N)
      else
        c.heap.freeList⟩, c.slabs, ⟨p, s, b⟩ :: c.live⟩ F' := by
  have hsize : slabSize N = nextOffset N + 4 := rfl
  have hnum := numObjects_le N
  obtain ⟨hhead, -, htail⟩ := h.chain
  have hs := ((h.list s).1 List.mem_cons_self).1
  have hold := ((h.bits s hs b (by omega)).1 hfree).2
  have hbits := h.bits s hs
  have hout : ∀ x, x < s ∨ s + nextOffset N ≤ x →
      Bitset.clearBit c.heap.mem s b x = c.heap.mem x := fun x hx =>
    clearBit_of_out (by omega) hx
  have hclear := Bitset.bit_clearBit (m := c.heap.mem) (a := s) b
  generalize Bitset.clearBit c.heap.mem s b = m at hout hclear ⊢
  have hnext : ∀ s' ∈ c.slabs, (nexts N m).load32 s' = (nexts N c.heap.mem).load32 s' := by
    intro s' hs'
    by_cases he : s' = s
    · subst he
      rw [load32_nexts, load32_nexts]
      exact ByteMem.load32_congr fun x hx hx' => hout x (by omega)
    · exact (sameHeader_of_ne hN hN' (h.aligned s hs) (h.aligned s' hs') he
        fun x hx => hout x (by omega)).next
  have hmem : ∀ s' ∈ s :: F, s' ∈ c.slabs := fun s' hs' => ((h.list s').1 hs').1
  obtain ⟨hsF, hF⟩ := List.nodup_cons.1 h.list_nodup
  have hedit {p' : Nat} {F' : List Nat} :=
    h.edit hN hN' hs m p' F' (⟨p, s, b⟩ :: c.live) (fun x hx => hout x (by omega))
    (fun o ho => (List.mem_cons.1 ho).elim (fun he => .inr (by rw [he]; exact ⟨rfl, hb, hp⟩)) .inl)
    (List.nodup_cons.2 ⟨fun hm => hold _ hm rfl rfl, h.nodup⟩)
    (fun o ho => by
      rw [List.mem_cons, or_iff_right]
      rintro rfl
      exact ho rfl)
    (fun i hi => by
      rw [hclear, Bool.and_eq_true, hbits i hi, List.forall_mem_cons, and_assoc]
      refine and_congr_right fun _ => ?_
      rw [and_comm]
      refine and_congr_left fun _ => ?_
      rw [Bool.not_eq_true', decide_eq_false_iff_not]
      exact ⟨fun hne _ he => hne he.symm, fun hne he => hne rfl he.symm⟩)
  by_cases hall : Bitset.allClearUntil m s (numObjects N) = true
  · rw [if_pos hall, ← load32_nexts, hnext s hs]
    rw [Bitset.allClearUntil_iff] at hall
    refine ⟨F, hedit (htail.congr fun s' hs' => hnext s' (hmem s' (by simp [hs']))) hF ?_
      fun s' hne => ?_⟩
    · refine iff_of_false hsF ?_
      rintro ⟨i, hi, hbit⟩
      simp [hall i hi] at hbit
    · simp [hne]
  · rw [if_neg hall]
    rw [Bitset.allClearUntil_iff] at hall
    refine ⟨s :: F, hedit (h.chain.congr fun s' hs' => hnext s' (hmem s' hs')) h.list_nodup ?_
      fun s' hne => Iff.rfl⟩
    refine iff_of_true List.mem_cons_self ?_
    push Not at hall
    obtain ⟨i, hi, hbit⟩ := hall
    exact ⟨i, hi, by simpa using hbit⟩

/-- `allocate` takes a free slot of the first slab on the list. -/
theorem Inv.take (hN : 0 < N) (hN' : N < 4000) (h : Inv N c F) (hne : c.heap.freeList ≠ 0) :
    ∃ F', Inv N ⟨(c.heap.take N).2, c.slabs,
      ⟨(c.heap.take N).1, (c.heap.slot N).1, (c.heap.slot N).2⟩ :: c.live⟩ F' := by
  have hnum := numObjects_le N
  obtain ⟨F₀, rfl, -⟩ := h.chain.eq_cons hne
  obtain ⟨hslab, i, hi, hbit⟩ := (h.list c.heap.freeList).1 List.mem_cons_self
  obtain ⟨hlt, hb⟩ := Bitset.findBit_spec (Slab.bits N) (by omega) hbit
  obtain ⟨hblt, -⟩ := (h.bits _ hslab _ hlt).1 hb
  have hle := object_le hN hN' hblt
  have hle' := h.le _ hslab
  exact h.clear hN hN' hblt hb (Nat.mod_eq_of_lt (by omega))

/-- A new slab has all its slots free. -/
theorem bit_refill (m : ByteMem) (page i : Nat) (hi : i < 32 * Bitset.intCount (bits N)) :
    Bitset.bit (((Bitset.setAllUntil (Bitset.clearAll m page (bits N)) page
      (numObjects N))).store32 (page + nextOffset N) 0) page i = decide (i < numObjects N) := by
  have hnext : nextOffset N = 4 * Bitset.intCount (bits N) := rfl
  rw [Bitset.bit_congr hi fun x hx hx' => ByteMem.store32_of_out (by omega)]
  by_cases hlow : i / 32 ≤ numObjects N / 32
  · exact Bitset.bit_setAllUntil _ _ hlow
  · rw [Bitset.bit_setAllUntil_above _ _ (by omega), Bitset.bit_clearAll hi]
    exact (decide_eq_false (by omega)).symm

theorem refill_of_out {m : ByteMem} {page x : Nat} (h : x < page ∨ page + slabSize N ≤ x) :
    ((Bitset.setAllUntil (Bitset.clearAll m page (bits N)) page
      (numObjects N))).store32 (page + nextOffset N) 0 x = m x := by
  have hsize : slabSize N = nextOffset N + 4 := rfl
  have hnext : nextOffset N = 4 * Bitset.intCount (bits N) := rfl
  have hnum := numObjects_le N
  rw [ByteMem.store32_of_out (by omega), Bitset.setAllUntil_of_out (by omega),
    Bitset.clearAll_of_out (by omega)]

/-- A new slab joins an empty list. -/
theorem Inv.refill (hN : 0 < N) (hN' : N < 4000) (h : Inv N c F) (hnull : c.heap.freeList = 0)
    {page : Nat} (hp : Fresh N c.slabs page) :
    Inv N ⟨c.heap.refill N page, page :: c.slabs, c.live⟩ [page] := by
  have hchain := h.chain
  rw [hnull] at hchain
  obtain rfl := hchain.eq_nil
  have hnum := numObjects_le N
  have hbit := bit_refill (N := N) c.heap.mem page
  have hload : (nexts N (((Bitset.setAllUntil (Bitset.clearAll c.heap.mem page (Slab.bits N)) page
      (numObjects N))).store32 (page + nextOffset N) 0)).load32 page = 0 := by
    rw [load32_nexts]
    exact ByteMem.load32_store32 (by norm_num)
  have hheader := fun s' hs' hne => sameHeader_of_ne hN hN' hp.aligned (h.aligned s' hs') hne
    fun x hx => refill_of_out (N := N) (m := c.heap.mem) hx
  rw [Heap.refill, if_pos hnull]
  dsimp only
  generalize ((Bitset.setAllUntil (Bitset.clearAll c.heap.mem page (Slab.bits N)) page
    (numObjects N))).store32 (page + nextOffset N) 0 = m at *
  have hne : ∀ s' ∈ c.slabs, s' ≠ page := by
    rintro s' hs' rfl
    exact hp.not_mem hs'
  constructor
  · exact List.forall_mem_cons.2 ⟨hp.aligned, h.aligned⟩
  · exact List.forall_mem_cons.2 ⟨hp.ne_zero, h.ne_zero⟩
  · exact List.forall_mem_cons.2 ⟨hp.le, h.le⟩
  · exact fun o ho => List.mem_cons_of_mem page (h.slab_mem o ho)
  · exact h.bit_lt
  · exact h.ptr
  · exact h.nodup
  · refine List.forall_mem_cons.2 ⟨fun i hi => ?_, fun s' hs' i hi => ?_⟩
    · rw [hbit i hi, decide_eq_true_eq, iff_self_and]
      rintro - o ho rfl
      exact absurd rfl (hne _ (h.slab_mem o ho))
    · rw [(hheader s' hs' (hne s' hs')).bit i hi]
      exact h.bits s' hs' i hi
  · exact ⟨rfl, hp.ne_zero, hload⟩
  · simp
  · intro s'
    rw [List.mem_singleton, List.mem_cons]
    constructor
    · rintro rfl
      have hpos := numObjects_pos hN hN'
      exact ⟨.inl rfl, 0, hpos, by rw [hbit 0 (by omega), decide_eq_true hpos]⟩
    · rintro ⟨rfl | hs', i, hi, hset⟩
      · rfl
      · rw [(hheader s' hs' (hne s' hs')).bit i (by omega)] at hset
        exact absurd ((h.list s').2 ⟨hs', i, hi, hset⟩) List.not_mem_nil

/-! ## What `free` does -/

section Free

variable (hN : 0 < N) (hN' : N < 4000) (h : Inv N c F) {o : Obj} {u v : List Obj}
  (hl : c.live = u ++ o :: v)

include h in
theorem Inv.freeList_lt : c.heap.freeList < 2 ^ 32 := by
  have hchain := h.chain
  cases F with
  | nil =>
    rw [hchain]
    norm_num
  | cons s F =>
    have hle := h.le s ((h.list s).1 List.mem_cons_self).1
    have hpos := pageSize_pos N
    rw [hchain.1]
    omega

include h hl in
/-- The slot of the object is the only one that gets free. -/
theorem Inv.bits_without {i : Nat} (hi : i < 32 * Bitset.intCount (Slab.bits N)) :
    (Bitset.bit c.heap.mem o.slab i || decide (i = o.bit)) = true ↔
      i < numObjects N ∧ ∀ o' ∈ u ++ v, o'.slab = o.slab → o'.bit ≠ i := by
  have ho : o ∈ c.live := by simp [hl]
  rw [Bool.or_eq_true, decide_eq_true_eq, h.bits _ (h.slab_mem o ho) i hi, hl]
  constructor
  · rintro (⟨hi', hfree⟩ | rfl)
    · exact ⟨hi', fun o' ho' => hfree o' (by grind)⟩
    · refine ⟨h.bit_lt o ho, fun o' ho' hslab hbit => ?_⟩
      have hmem : o' ∈ c.live := by
        rw [hl]
        grind
      obtain rfl := h.eq_of_slot hmem ho hslab hbit
      have hnodup := h.nodup
      rw [hl, List.nodup_middle] at hnodup
      exact (List.nodup_cons.1 hnodup).1 ho'
  · rintro ⟨hi', hfree⟩
    by_cases he : i = o.bit
    · exact .inr he
    · refine .inl ⟨hi', fun o' ho' hslab => ?_⟩
      rcases List.mem_append.1 ho' with ho' | ho'
      · exact hfree o' (by simp [ho']) hslab
      · rcases List.mem_cons.1 ho' with rfl | ho'
        · exact fun he' => he he'.symm
        · exact hfree o' (by simp [ho']) hslab

include hN hN' h hl in
/-- The header of the slab changes, and its slot gets free. -/
theorem Inv.release {m : ByteMem} {p : Nat} {F' : List Nat}
    (hm : ∀ x, x < o.slab ∨ o.slab + slabSize N ≤ x → m x = c.heap.mem x)
    (hbit : ∀ i < 32 * Bitset.intCount (Slab.bits N),
      Bitset.bit m o.slab i = (Bitset.bit c.heap.mem o.slab i || decide (i = o.bit)))
    (hchain : (nexts N m).Chain p F') (hF : F'.Nodup) (hself : o.slab ∈ F')
    (hother : ∀ s ≠ o.slab, s ∈ F' ↔ s ∈ F) : Inv N ⟨⟨m, p⟩, c.slabs, u ++ v⟩ F' := by
  have ho : o ∈ c.live := by simp [hl]
  have hnum := numObjects_le N
  have hb := h.bit_lt o ho
  refine h.edit hN hN' (h.slab_mem o ho) m p F' (u ++ v) hm (fun o' ho' => .inl ?_) ?_
    (fun o' hne => ?_)
    (fun i hi => ?_) hchain hF (iff_of_true hself ⟨o.bit, hb, ?_⟩) hother
  · rw [hl]
    grind
  · exact h.nodup.sublist (by simp [hl])
  · have hne' : o' ≠ o := fun he => hne (by rw [he])
    simp [hl, hne']
  · rw [hbit i hi]
    exact h.bits_without hl hi
  · rw [hbit o.bit (by omega), decide_eq_true rfl, Bool.or_true]

include hN hN' h in
/-- The links do not see the bits. -/
theorem Inv.nexts_setBit (ho : o ∈ c.live) (m : ByteMem) {s : Nat} (hs : s ∈ c.slabs) :
    (nexts N (Bitset.setBit m o.slab o.bit)).load32 s = (nexts N m).load32 s := by
  have hnum := numObjects_le N
  have hb := h.bit_lt o ho
  have hsize : slabSize N = nextOffset N + 4 := rfl
  have hout {x : Nat} (hx : x < o.slab ∨ o.slab + nextOffset N ≤ x) :
      Bitset.setBit m o.slab o.bit x = m x := setBit_of_out (by omega) hx
  by_cases he : s = o.slab
  · subst he
    rw [load32_nexts, load32_nexts]
    exact ByteMem.load32_congr fun x hx hx' => hout (by omega)
  · exact (sameHeader_of_ne hN hN' (h.aligned _ (h.slab_mem o ho)) (h.aligned s hs) he
      fun x hx => hout (by omega)).next

include hN hN' h hl in
/-- The slab is full: it becomes the first of the list. -/
theorem Inv.free_full (hall : ∀ i < numObjects N, Bitset.bit c.heap.mem o.slab i = false) :
    Inv N ⟨⟨Bitset.setBit (c.heap.mem.store32 (o.slab + nextOffset N) c.heap.freeList) o.slab o.bit,
      o.slab⟩,
      c.slabs, u ++ v⟩ (o.slab :: F) := by
  have hsize : slabSize N = nextOffset N + 4 := rfl
  have hnum := numObjects_le N
  have ho : o ∈ c.live := by simp [hl]
  have hs := h.slab_mem o ho
  have hb := h.bit_lt o ho
  have hsF : o.slab ∉ F := fun hF => by
    obtain ⟨-, i, hi, hbit⟩ := (h.list _).1 hF
    simp [hall i hi] at hbit
  have hlink : ∀ x, x < o.slab + nextOffset N ∨ o.slab + slabSize N ≤ x →
      c.heap.mem.store32 (o.slab + nextOffset N) c.heap.freeList x = c.heap.mem x := fun x hx =>
    ByteMem.store32_of_out (by omega)
  have hself :
      (nexts N (c.heap.mem.store32 (o.slab + nextOffset N) c.heap.freeList)).load32 o.slab =
      c.heap.freeList := by
    rw [load32_nexts]
    exact ByteMem.load32_store32 h.freeList_lt
  generalize c.heap.mem.store32 (o.slab + nextOffset N) c.heap.freeList = m at *
  have hchain : (nexts N (Bitset.setBit m o.slab o.bit)).Chain c.heap.freeList F := by
    refine h.chain.congr fun s hs' => ?_
    have hmem := ((h.list s).1 hs').1
    have hne : s ≠ o.slab := by
      rintro rfl
      exact hsF hs'
    rw [h.nexts_setBit hN hN' ho m hmem]
    exact (sameHeader_of_ne hN hN' (h.aligned _ hs) (h.aligned s hmem) hne fun x hx =>
      hlink x (by omega)).next
  refine h.release hN hN' hl (fun x hx => ?_) (fun i hi => ?_) ⟨rfl, h.ne_zero _ hs, ?_⟩
    (List.nodup_cons.2 ⟨hsF, h.list_nodup⟩) List.mem_cons_self fun s hne => by simp [hne]
  · have hout : Bitset.setBit m o.slab o.bit x = m x :=
      setBit_of_out (show o.bit < 32 * Bitset.intCount (Slab.bits N) by omega) (by omega)
    exact hout.trans (hlink x (by omega))
  · have hsame := Bitset.bit_congr (m := c.heap.mem) hi fun x hx hx' => hlink x (.inl hx')
    exact hsame ▸ Bitset.bit_setBit o.bit i
  · rwa [h.nexts_setBit hN hN' ho m hs, hself]

include hN hN' h hl in
/-- `free` gives the slot of a live object back. -/
theorem Inv.free : ∃ F', Inv N ⟨c.heap.free N o.ptr, c.slabs, u ++ v⟩ F' := by
  have hsize : slabSize N = nextOffset N + 4 := rfl
  have hnum := numObjects_le N
  have ho : o ∈ c.live := by simp [hl]
  have hs := h.slab_mem o ho
  have hb := h.bit_lt o ho
  rw [Heap.free, h.ptr o ho, pageStart_object hN hN' (h.aligned _ hs) hb,
    bitOf_object hN hN' (h.aligned _ hs) hb]
  by_cases hall : Bitset.allClearUntil c.heap.mem o.slab (numObjects N) = true
  · rw [if_pos hall]
    rw [Bitset.allClearUntil_iff] at hall
    exact ⟨_, h.free_full hN hN' hl hall⟩
  · -- the slab has been in the list
    rw [if_neg hall]
    rw [Bitset.allClearUntil_iff] at hall
    push Not at hall
    obtain ⟨i, hi, hbit⟩ := hall
    have hF : o.slab ∈ F := (h.list _).2 ⟨hs, i, hi, by simpa using hbit⟩
    have hout {x : Nat} (hx : x < o.slab ∨ o.slab + slabSize N ≤ x) :
        Bitset.setBit c.heap.mem o.slab o.bit x = c.heap.mem x :=
      setBit_of_out (show o.bit < 32 * Bitset.intCount (Slab.bits N) by omega) (by omega)
    refine ⟨F, h.release hN hN' hl (fun x hx => hout hx)
      (fun i _ => Bitset.bit_setBit o.bit i) ?_ h.list_nodup hF fun s _ => Iff.rfl⟩
    exact h.chain.congr fun s hs' => h.nexts_setBit hN hN' ho _ ((h.list s).1 hs').1

end Free

theorem Inv.step (hN : 0 < N) (hN' : N < 4000) {c' : Client} (h : Inv N c F) (hs : Step N c c') :
    ∃ F', Inv N c' F' := by
  cases hs with
  | @refill page hnull hpage =>
    have hfree : (c.heap.refill N page).freeList ≠ 0 := by
      rw [Heap.refill, if_pos hnull]
      exact hpage.ne_zero
    exact (h.refill hN hN' hnull hpage).take hN hN' hfree
  | @allocate page hne =>
    have hsame : c.heap.refill N page = c.heap := if_neg hne
    rw [Heap.allocate, hsame]
    exact h.take hN hN' hne
  | free hl => exact h.free hN hN' hl
  | @write m hm =>
    refine ⟨F, h.write fun s hs => sameHeader fun x hx hx' => ?_⟩
    have hroom := slabSize_add_le hN hN'
    rcases hm x with hsame | ⟨o, ho, hle, hlt⟩ | hout
    · exact hsame
    · have hptr := h.ptr o ho
      have hend := object_le hN hN' (h.bit_lt o ho)
      by_cases he : s = o.slab
      · omega
      · rcases apart_of_dvd (h.aligned s hs) (h.aligned _ (h.slab_mem o ho)) he <;> omega
    · have hx := hout s hs
      omega

theorem Inv.run (hN : 0 < N) (hN' : N < 4000) {m : ByteMem}
    (hr : ReflTransGen (Step N) ⟨⟨m, 0⟩, [], []⟩ c) : ∃ F, Inv N c F := by
  induction hr with
  | refl => exact ⟨[], .start m⟩
  | tail _ hs ih =>
    obtain ⟨F, h⟩ := ih
    exact h.step hN hN' hs

/-! ## What the clients rely on -/

structure Client.Sound (N : Nat) (c : Client) : Prop where
  /-- A live object lies in its slab, behind the header. -/
  inside : ∀ o ∈ c.live, o.slab ∈ c.slabs ∧ pageSize N ∣ o.slab ∧
    o.slab + slabSize N ≤ o.ptr ∧ o.ptr + N ≤ o.slab + pageSize N
  disjoint : c.live.Pairwise fun o o' => o.ptr + N ≤ o'.ptr ∨ o'.ptr + N ≤ o.ptr
  /-- `free` finds the slab and the bit that `allocate` chose. -/
  decode : ∀ o ∈ c.live, pageStart N o.ptr = o.slab ∧ bitOf N o.ptr = o.bit
  /-- A slot is allocated while an object lives there. -/
  status : ∀ s ∈ c.slabs, ∀ i < numObjects N,
    Bitset.bit c.heap.mem s i = false ↔ ∃ o ∈ c.live, o.slab = s ∧ o.bit = i
  /-- The only slot that a call changes is that of the object it allocates or frees. -/
  other : ∀ c', Step N c c' → ∀ s ∈ c.slabs, ∀ i < numObjects N,
    Bitset.bit c'.heap.mem s i ≠ Bitset.bit c.heap.mem s i →
      (∃ o ∈ c'.live, o ∉ c.live ∧ o.slab = s ∧ o.bit = i) ∨
      (∃ o ∈ c.live, o ∉ c'.live ∧ o.slab = s ∧ o.bit = i)

theorem Step.slabs {c' : Client} (hs : Step N c c') {s : Nat} (h : s ∈ c.slabs) : s ∈ c'.slabs := by
  cases hs with
  | refill => exact List.mem_cons_of_mem _ h
  | allocate => exact h
  | free => exact h
  | write => exact h

theorem Inv.status (h : Inv N c F) {s i : Nat} (hs : s ∈ c.slabs) (hi : i < numObjects N) :
    Bitset.bit c.heap.mem s i = false ↔ ∃ o ∈ c.live, o.slab = s ∧ o.bit = i := by
  have hnum := numObjects_le N
  rw [← Bool.not_eq_true, h.bits s hs i (by omega), and_iff_right hi]
  push Not
  rfl

/-- Objects in different slots are apart. -/
theorem Inv.apart (hN : 0 < N) (hN' : N < 4000) (h : Inv N c F) {o o' : Obj} (ho : o ∈ c.live)
    (ho' : o' ∈ c.live) (hne : o ≠ o') : o.ptr + N ≤ o'.ptr ∨ o'.ptr + N ≤ o.ptr := by
  have hptr := h.ptr o ho
  have hptr' := h.ptr o' ho'
  by_cases hs : o.slab = o'.slab
  · have hb : o.bit ≠ o'.bit := fun he => hne (h.eq_of_slot ho ho' hs he)
    rcases apart_of_dvd (Nat.dvd_mul_right N o.bit) (Nat.dvd_mul_right N o'.bit)
      (fun he => hb (Nat.eq_of_mul_eq_mul_left hN he)) <;> omega
  · have hend := object_le hN hN' (h.bit_lt o ho)
    have hend' := object_le hN hN' (h.bit_lt o' ho')
    rcases apart_of_dvd (h.aligned _ (h.slab_mem o ho)) (h.aligned _ (h.slab_mem o' ho'))
      hs <;> omega

theorem Inv.sound (hN : 0 < N) (hN' : N < 4000) (h : Inv N c F) : c.Sound N where
  inside o ho := by
    have hptr := h.ptr o ho
    have hend := object_le hN hN' (h.bit_lt o ho)
    exact ⟨h.slab_mem o ho, h.aligned _ (h.slab_mem o ho), by omega, by omega⟩
  disjoint := h.nodup.pairwise_of_forall_ne fun o ho o' ho' hne => h.apart hN hN' ho ho' hne
  decode o ho := by
    have haligned := h.aligned _ (h.slab_mem o ho)
    rw [h.ptr o ho]
    exact ⟨pageStart_object hN hN' haligned (h.bit_lt o ho),
      bitOf_object hN hN' haligned (h.bit_lt o ho)⟩
  status s hs i hi := h.status hs hi
  other c' hstep s hs i hi hne := by
    obtain ⟨F', h'⟩ := h.step hN hN' hstep
    have hstatus := h.status hs hi
    have hstatus' := h'.status (hstep.slabs hs) hi
    cases hbit : Bitset.bit c.heap.mem s i with
    | false =>
      have hbit' : ¬ Bitset.bit c'.heap.mem s i = false := fun he => hne (he.trans hbit.symm)
      obtain ⟨o, ho, hslot⟩ := hstatus.1 hbit
      exact .inr ⟨o, ho, fun ho' => hbit' (hstatus'.2 ⟨o, ho', hslot⟩), hslot⟩
    | true =>
      have hbit' : Bitset.bit c'.heap.mem s i = false := by
        rw [hbit] at hne
        simpa using hne
      obtain ⟨o, ho, hslot⟩ := hstatus'.1 hbit'
      refine .inl ⟨o, ho, fun ho' => ?_, hslot⟩
      rw [hstatus.2 ⟨o, ho', hslot⟩] at hbit
      simp at hbit

/-- Whatever the calls and the owners' writes were, the objects and the bits are in order. -/
theorem slab_sound (hN : 0 < N) (hN' : N < 4000) {m : ByteMem}
    (hr : ReflTransGen (Step N) ⟨⟨m, 0⟩, [], []⟩ c) : c.Sound N := by
  obtain ⟨F, h⟩ := Inv.run hN hN' hr
  exact h.sound hN hN'

/-! ## A run with two slabs -/

/-- A client takes an object. -/
def Client.take (N page : Nat) (c : Client) : Client where
  heap := (c.heap.allocate N page).2
  slabs := if c.heap.freeList = 0 then page :: c.slabs else c.slabs
  live := ⟨(c.heap.allocate N page).1, ((c.heap.refill N page).slot N).1,
    ((c.heap.refill N page).slot N).2⟩ :: c.live

/-- A client frees the object `o`, and the objects `live` stay. -/
def Client.give (N : Nat) (o : Obj) (live : List Obj) (c : Client) : Client :=
  { c with heap := c.heap.free N o.ptr, live }

theorem Client.take_slabs (page : Nat) (c : Client) : (c.take N page).slabs =
    if c.heap.freeList = 0 then page :: c.slabs else c.slabs := rfl

theorem Client.give_slabs (o : Obj) (live : List Obj) (c : Client) :
    (c.give N o live).slabs = c.slabs := by rw [Client.give]

theorem Client.take_step {page : Nat} (h : c.heap.freeList = 0 → Fresh N c.slabs page) :
    Step N c (c.take N page) := by
  rw [Client.take]
  by_cases hnull : c.heap.freeList = 0
  · rw [if_pos hnull]
    exact .refill hnull (h hnull)
  · have hsame : c.heap.refill N page = c.heap := if_neg hnull
    rw [if_neg hnull, hsame]
    exact .allocate hnull

theorem Client.give_step {o : Obj} {u v : List Obj} (h : c.live = u ++ o :: v) :
    Step N c (c.give N o (u ++ v)) :=
  .free h

def noObjects : Client := ⟨⟨fun _ => 0xFF, 0⟩, [], []⟩

/-- Two objects of 2000 bytes fill a slab. -/
def fullSlab : Client := (noObjects.take 2000 0xC0200000).take 2000 0

def threeObjects : Client := fullSlab.take 2000 0xC0201000

/-- The second object was freed. -/
def twoObjects : Client :=
  threeObjects.give 2000 ⟨0xC02007D8, 0xC0200000, 1⟩
    ([⟨0xC0201008, 0xC0201000, 0⟩] ++ [⟨0xC0200008, 0xC0200000, 0⟩])

theorem twoObjects_reached : ReflTransGen (Step 2000) noObjects twoObjects := by
  have hfirst : Step 2000 noObjects (noObjects.take 2000 0xC0200000) :=
    Client.take_step fun _ => ⟨by decide, by decide, by decide, by decide⟩
  have hsecond : Step 2000 (noObjects.take 2000 0xC0200000) fullSlab :=
    Client.take_step fun hnull => absurd hnull (by decide +kernel)
  have hthird : Step 2000 fullSlab threeObjects :=
    Client.take_step fun _ => ⟨by decide, by decide, by decide, by decide +kernel⟩
  have hlive : threeObjects.live =
      [⟨0xC0201008, 0xC0201000, 0⟩] ++
        ⟨0xC02007D8, 0xC0200000, 1⟩ :: [⟨0xC0200008, 0xC0200000, 0⟩] := by
    decide +kernel
  have hfourth : Step 2000 threeObjects twoObjects := Client.give_step hlive
  exact (((ReflTransGen.single hfirst).tail hsecond).tail hthird).tail hfourth

theorem fullSlab_slabs : fullSlab.slabs = [0xC0200000] := by
  have hnull : noObjects.heap.freeList = 0 := rfl
  have hfirst : ¬ (noObjects.take 2000 0xC0200000).heap.freeList = 0 := by decide +kernel
  rw [fullSlab, Client.take_slabs, if_neg hfirst, Client.take_slabs, if_pos hnull]
  rfl

theorem twoObjects_slabs : twoObjects.slabs = [0xC0201000, 0xC0200000] := by
  have hfull : fullSlab.heap.freeList = 0 := by decide +kernel
  rw [twoObjects, Client.give_slabs, threeObjects, Client.take_slabs, if_pos hfull, fullSlab_slabs]

theorem slab_sound_two : ∃ c : Client, c.Sound 2000 ∧ c.slabs = [0xC0201000, 0xC0200000] ∧
    c.live.map Obj.ptr = [0xC0201008, 0xC0200008] :=
  ⟨twoObjects, slab_sound (by omega) (by omega) twoObjects_reached, twoObjects_slabs, rfl⟩

/-! ## The free list -/

/-- A slab with a free slot. -/
def HasFree (N : Nat) (c : Client) (s : Nat) : Prop :=
  ∃ i < numObjects N, ∀ o ∈ c.live, o.slab = s → o.bit ≠ i

theorem Inv.hasFree_iff (h : Inv N c F) {s : Nat} (hs : s ∈ c.slabs) :
    HasFree N c s ↔ ∃ i < numObjects N, Bitset.bit c.heap.mem s i = true := by
  have hnum := numObjects_le N
  constructor
  · rintro ⟨i, hi, hfree⟩
    exact ⟨i, hi, (h.bits s hs i (by omega)).2 ⟨hi, hfree⟩⟩
  · rintro ⟨i, hi, hbit⟩
    exact ⟨i, hi, ((h.bits s hs i (by omega)).1 hbit).2⟩

theorem Inv.mem_freeList (h : Inv N c F) (s : Nat) : s ∈ F ↔ s ∈ c.slabs ∧ HasFree N c s := by
  rw [h.list]
  apply and_congr_right
  intro hs
  exact (h.hasFree_iff hs).symm

/-- The slot that `find_bit` finds in the first slab of the list. -/
theorem Inv.slot_spec (h : Inv N c F) (hne : c.heap.freeList ≠ 0) :
    (c.heap.slot N).1 ∈ c.slabs ∧ (c.heap.slot N).2 < numObjects N ∧
      ∀ o ∈ c.live, o.slab = (c.heap.slot N).1 → o.bit ≠ (c.heap.slot N).2 := by
  have hnum := numObjects_le N
  obtain ⟨F₀, rfl, -⟩ := h.chain.eq_cons hne
  obtain ⟨hslab, i, hi, hbit⟩ := (h.list c.heap.freeList).1 List.mem_cons_self
  obtain ⟨hlt, hb⟩ := Bitset.findBit_spec (Slab.bits N) (by omega) hbit
  exact ⟨hslab, (h.bits _ hslab _ hlt).1 hb⟩

/-- The list is empty when all slabs are full. -/
theorem Inv.freeList_eq_zero_iff (h : Inv N c F) :
    c.heap.freeList = 0 ↔ ∀ s ∈ c.slabs, ¬ HasFree N c s := by
  constructor
  · intro hnull s hs hfree
    have hchain := h.chain
    rw [hnull] at hchain
    have hmem := (h.mem_freeList s).2 ⟨hs, hfree⟩
    rw [hchain.eq_nil] at hmem
    exact List.not_mem_nil hmem
  · intro hfull
    by_contra hne
    obtain ⟨F₀, rfl, -⟩ := h.chain.eq_cons hne
    obtain ⟨hs, hfree⟩ := (h.mem_freeList _).1 List.mem_cons_self
    exact hfull _ hs hfree

/-- In every reachable state `m_next` leads from `m_free_list` through each slab with a free slot
once. So `allocate` takes a new page only when all slabs are full, and finds a slot of a slab. -/
theorem freeList_sound (hN : 0 < N) (hN' : N < 4000) {m : ByteMem}
    (hr : ReflTransGen (Step N) ⟨⟨m, 0⟩, [], []⟩ c) :
    (∃ F, (nexts N c.heap.mem).Chain c.heap.freeList F ∧ F.Nodup ∧
      ∀ s, s ∈ F ↔ s ∈ c.slabs ∧ HasFree N c s) ∧
    (c.heap.freeList = 0 ↔ ∀ s ∈ c.slabs, ¬ HasFree N c s) ∧
    (∀ page, (c.heap.freeList = 0 → Fresh N c.slabs page) →
      ((c.heap.refill N page).slot N).2 < numObjects N) := by
  obtain ⟨F, h⟩ := Inv.run hN hN' hr
  refine ⟨⟨F, h.chain, h.list_nodup, h.mem_freeList⟩, h.freeList_eq_zero_iff, fun page hpage => ?_⟩
  by_cases hnull : c.heap.freeList = 0
  · have hfresh := hpage hnull
    have hinv := h.refill hN hN' hnull hfresh
    have hne : (c.heap.refill N page).freeList ≠ 0 := by
      rw [Heap.refill, if_pos hnull]
      exact hfresh.ne_zero
    exact (hinv.slot_spec hne).2.1
  · have hsame : c.heap.refill N page = c.heap := if_neg hnull
    rw [hsame]
    exact (h.slot_spec hnull).2.1

theorem freeList_sound_two : ∃ c : Client, c.slabs = [0xC0201000, 0xC0200000] ∧ c.live.length = 2 ∧
    (c.heap.freeList = 0 ↔ ∀ s ∈ c.slabs, ¬ HasFree 2000 c s) :=
  ⟨twoObjects, twoObjects_slabs, rfl, (freeList_sound (by omega) (by omega) twoObjects_reached).2.1⟩

end TinyLittleOs.Memory.Slab
