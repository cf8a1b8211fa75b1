import TinyLittleOs.Lib.Descriptors
import TinyLittleOs.Scheduler.Frames

/-!
# The descriptor tables of the kernel

`memory/gdt.cpp` and the table of `interrupts::initialize`, byte for byte, and where an interrupt
gets with them. Only the first 48 vectors and `0x80` have a gate, and a program in user mode gets to
`0x80` alone.
-/

namespace TinyLittleOs.Interrupts

open Lib Scheduler

/-! ## `memory/gdt.cpp` -/

structure GdtEntry where
  base : Nat
  limit : Nat
  accessByte : Nat
  flags : Nat

/-- `gdt_entry` -/
def GdtEntry.encode (source : GdtEntry) : List (BitVec 8) :=
  [source.limit &&& 0xFF, source.limit >>> 8 &&& 0xFF,
    source.base &&& 0xFF, source.base >>> 8 &&& 0xFF, source.base >>> 16 &&& 0xFF,
    source.accessByte,
    source.limit >>> 16 &&& 0x0F ||| source.flags <<< 4,
    source.base >>> 24 &&& 0xFF].map (BitVec.ofNat 8)

/-- `sizeof(global_tss)` -/
def sizeofTss : Nat := 104

def gdtEntries (tssBase : Nat) : List GdtEntry :=
  [⟨0, 0, 0, 0⟩,
    ⟨0, 0xFFFFF, 0b10011010, 0b1100⟩,
    ⟨0, 0xFFFFF, 0b10010010, 0b1100⟩,
    ⟨0, 0xFFFFF, 0b11111010, 0b1100⟩,
    ⟨0, 0xFFFFF, 0b11110010, 0b1100⟩,
    ⟨tssBase, sizeofTss, 0b10001001, 0⟩]

/-- `gdt_arr`, put together by `concat_gdt_entries`. -/
def gdtArr : DescriptorTable := (gdtEntries 0).flatMap GdtEntry.encode

/-- The bytes that `init_gdt` writes. -/
def initGdt (tssAddr : Nat) (a : DescriptorTable) : DescriptorTable :=
  (((a.set (0x28 + 2) (BitVec.ofNat 8 (tssAddr &&& 0xFF))).set
    (0x28 + 3) (BitVec.ofNat 8 (tssAddr >>> 8 &&& 0xFF))).set
    (0x28 + 4) (BitVec.ofNat 8 (tssAddr >>> 16 &&& 0xFF))).set
    (0x28 + 7) (BitVec.ofNat 8 (tssAddr >>> 24 &&& 0xFF))

/-- The fields fit. -/
structure GdtEntry.Fits (e : GdtEntry) : Prop where
  base : e.base < 2 ^ 32
  limit : e.limit < 2 ^ 20
  accessByte : e.accessByte < 2 ^ 8
  flags : e.flags < 2 ^ 4

def GdtEntry.segment (e : GdtEntry) : Segment := ⟨e.base, e.limit, e.accessByte, e.flags⟩

theorem GdtEntry.encode_length (e : GdtEntry) : e.encode.length = 8 := rfl

theorem byte_and (n : Nat) : (BitVec.ofNat 8 (n &&& 0xFF)).toNat = n % 256 := by
  rw [BitVec.toNat_ofNat, Nat.and_two_pow_sub_one_eq_mod n 8]
  omega

/-- The processor reads what was encoded. -/
theorem GdtEntry.Fits.decode {e : GdtEntry} (h : e.Fits) :
    (Segment.decode fun j => (e.encode.getD j 0).toNat) = e.segment := by
  obtain ⟨hbase, hlimit, haccess, hflags⟩ := h
  have hor : e.limit >>> 16 &&& 0x0F ||| e.flags <<< 4 = e.flags * 16 + e.limit / 65536 % 16 := by
    have hlow : e.limit >>> 16 &&& 0x0F = e.limit / 65536 % 16 := by
      rw [Nat.and_two_pow_sub_one_eq_mod _ 4, Nat.shiftRight_eq_div_pow]
    have hlt : e.limit / 65536 % 16 < 2 ^ 4 := by omega
    rw [hlow, Nat.or_comm, Nat.shiftLeft_eq, Nat.mul_comm, ← Nat.two_pow_add_eq_or_of_lt hlt,
      Nat.mul_comm]
  have hsixth : (BitVec.ofNat 8 (e.limit >>> 16 &&& 0x0F ||| e.flags <<< 4)).toNat =
      e.flags * 16 + e.limit / 65536 % 16 := by
    rw [hor, BitVec.toNat_ofNat]
    omega
  apply Segment.ext
  · change _ + _ * _ + _ * _ + _ * _ = e.base
    simp only [encode, List.map_cons, List.getD_cons_succ, List.getD_cons_zero, byte_and,
      Nat.shiftRight_eq_div_pow]
    omega
  · change _ + _ * _ + _ % 16 * _ = e.limit
    simp only [encode, List.map_cons, List.getD_cons_succ, List.getD_cons_zero, byte_and]
    rw [hsixth, Nat.shiftRight_eq_div_pow]
    omega
  · change (BitVec.ofNat 8 e.accessByte).toNat = e.accessByte
    rw [BitVec.toNat_ofNat]
    exact Nat.mod_eq_of_lt haccess
  · change (BitVec.ofNat 8 _).toNat / 16 = e.flags
    rw [hsixth]
    omega

/-- `init_gdt` puts in the base of the TSS and leaves the other entries alone. -/
theorem initGdt_eq (tssAddr : Nat) :
    initGdt tssAddr gdtArr = (gdtEntries tssAddr).flatMap GdtEntry.encode := by
  rfl

theorem gdtEntries_fit {tssAddr : Nat} (h : tssAddr < 2 ^ 32) :
    ∀ e ∈ gdtEntries tssAddr, e.Fits := by
  intro e he
  simp only [gdtEntries, List.mem_cons, List.not_mem_nil, or_false] at he
  rcases he with rfl | rfl | rfl | rfl | rfl | rfl
  all_goals constructor <;> simp only [sizeofTss] <;> omega

/-- The segments of the kernel, as the processor reads them. -/
theorem gdt_segment {tssAddr : Nat} (h : tssAddr < 2 ^ 32) (i : Nat) :
    segmentAt (initGdt tssAddr gdtArr) i = (gdtEntries tssAddr)[i]?.map GdtEntry.segment := by
  rw [initGdt_eq]
  exact segmentAt_flatMap GdtEntry.encode_length (fun e he => (gdtEntries_fit h e he).decode) i

/-! ## `interrupts::initialize` -/

structure IdtEntry where
  isrLow : Nat
  kernelCs : Nat
  reserved : Nat
  attributes : Nat
  isrHigh : Nat

namespace IdtEntry

/-- An entry after the `memset` of the table. -/
def zero : IdtEntry := ⟨0, 0, 0, 0, 0⟩

/-- The layout of the packed structure. -/
def bytes (e : IdtEntry) : List (BitVec 8) :=
  [e.isrLow % 256, e.isrLow / 256, e.kernelCs % 256, e.kernelCs / 256, e.reserved, e.attributes,
    e.isrHigh % 256, e.isrHigh / 256].map (BitVec.ofNat 8)

/-- An entry with the address of a handler. -/
def gate (isr : Word) (attributes : Nat) : IdtEntry where
  kernelCs := 0x08
  isrLow := isr.toNat &&& 0xFFFF
  isrHigh := isr.toNat >>> 16
  reserved := 0
  attributes := attributes

theorem bytes_length (e : IdtEntry) : e.bytes.length = 8 := rfl

theorem decode_gate (isr : Word) {attributes : Nat} (h : attributes < 256) :
    (Gate.decode fun j => ((gate isr attributes).bytes.getD j 0).toNat) =
      ⟨isr.toNat, 8, attributes⟩ := by
  have hlt := isr.isLt
  have hlow : isr.toNat &&& 0xFFFF = isr.toNat % 65536 := Nat.and_two_pow_sub_one_eq_mod _ 16
  apply Gate.ext
  · change _ + _ * _ + _ * _ + _ * _ = isr.toNat
    simp only [gate, bytes, List.map_cons, List.getD_cons_succ, List.getD_cons_zero,
      BitVec.toNat_ofNat,
      Nat.shiftRight_eq_div_pow, hlow]
    omega
  · simp [gate, bytes, Gate.decode]
  · change (BitVec.ofNat 8 attributes).toNat = attributes
    rw [BitVec.toNat_ofNat]
    exact Nat.mod_eq_of_lt h

theorem decode_zero : (Gate.decode fun j => (zero.bytes.getD j 0).toNat) = ⟨0, 0, 0⟩ := rfl

end IdtEntry

/-- The entries of `idt_arr`, with the addresses of the handlers in `interrupt_handlers.s`. -/
def initIdt (isr : Nat → Word) : Nat → IdtEntry :=
  let idt := (List.range 48).foldl (fun idt i => Function.update idt i (IdtEntry.gate (isr i) 0x8E))
    fun _ => IdtEntry.zero
  Function.update idt 0x80 (IdtEntry.gate (isr 128) 0xEE)

def idtArr (isr : Nat → Word) :
    DescriptorTable := (List.range 256).flatMap fun i => (initIdt isr i).bytes

theorem foldl_update {α : Type} (g : Nat → α) (n : Nat) (f : Nat → α) (i : Nat) :
    (List.range n).foldl (fun f i => Function.update f i (g i)) f i =
      if i < n then g i else f i := by
  induction n with
  | zero => rfl
  | succ n ih =>
    rw [List.range_succ, List.foldl_append, List.foldl_cons, List.foldl_nil,
      Function.update_apply, ih]
    grind

/-- The first 48 vectors have gates for the kernel, `0x80` has one for everybody, and there are no
others. -/
theorem initIdt_eq (isr : Nat → Word) (i : Nat) : initIdt isr i =
    if i = 128 then IdtEntry.gate (isr 128) 0xEE
    else if i < 48 then IdtEntry.gate (isr i) 0x8E else IdtEntry.zero := by
  rw [initIdt, Function.update_apply, foldl_update]

/-- The gate of a vector. -/
def kernelGate (isr : Nat → Word) (i : Nat) : Gate :=
  if i = 128 then ⟨(isr 128).toNat, 8, 0xEE⟩ else if i < 48 then ⟨(isr i).toNat, 8, 0x8E⟩
    else ⟨0, 0, 0⟩

theorem decode_initIdt (isr : Nat → Word) (i : Nat) :
    (Gate.decode fun j => ((initIdt isr i).bytes.getD j 0).toNat) = kernelGate isr i := by
  rw [initIdt_eq, kernelGate]
  split_ifs
  · exact IdtEntry.decode_gate _ (by decide)
  · exact IdtEntry.decode_gate _ (by decide)
  · exact IdtEntry.decode_zero

/-- The gates of the kernel, as the processor reads them. -/
theorem idt_gate (isr : Nat → Word) (i : Nat) :
    gateAt (idtArr isr) i = if i < 256 then some (kernelGate isr i) else none := by
  have hlength : ∀ i, ((fun i => (initIdt isr i).bytes) i).length = 8 :=
    fun i => IdtEntry.bytes_length _
  rw [idtArr]
  apply (gateAt_flatMap hlength (fun i _ => decode_initIdt isr i) i).trans
  by_cases hi : i < 256
  · rw [List.getElem?_range hi, if_pos hi, Option.map_some]
  · rw [List.getElem?_eq_none (by rw [List.length_range]; omega), if_neg hi, Option.map_none]

end TinyLittleOs.Interrupts
