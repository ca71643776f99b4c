/-
  EchOS.Kernel.Idt

  `idt_entry_create` and `dump_idt_entry` of `kernel/idt.c`, and which handler
  addresses come back from an entry.

  An entry holds the address in fields of 16, 16 and 32 bits.  A 16-bit field is
  promoted to `int` before it is shifted, so bit 31 of the address becomes the sign of
  the shifted field (the shift wraps, as gcc has it), and the conversion to `uint64_t`
  copies it to all higher bits.
-/
import EchOS.CLib.Vsprintf

namespace EchOS

/-- `idt_entry_t` -/
structure IdtEntry where
  isr1 : BitVec 16
  segment : BitVec 16
  ist : Byte
  flags : Byte
  isr2 : BitVec 16
  isr3 : BitVec 32
  reserved : BitVec 32
  deriving Repr, DecidableEq

/-- `idt_entry_create`.  It does not set `reserved`, which is what lies on the stack. -/
def idtEntryCreate (isr : Word) (segment : BitVec 16) (ist flags : Byte)
    (reserved : BitVec 32) : IdtEntry where
  isr1 := (isr &&& 0xFFFF#64).setWidth 16
  isr2 := ((isr >>> 16) &&& 0xFFFF#64).setWidth 16
  isr3 := (isr >>> 32).setWidth 32
  segment
  ist
  flags
  reserved

/-- An unsigned field of fewer than 32 bits as an operand: it becomes an `int`. -/
def promoteInt {w : Nat} (x : BitVec w) : BitVec 32 := x.setWidth 32

/-- An `int` as an operand next to a `uint64_t`. -/
def intToUint64 (x : BitVec 32) : Word := x.signExtend 64

/-- The address that `dump_idt_entry` puts together. -/
def dumpIdtEntry.isr (entry : IdtEntry) : Word :=
  let isr := entry.isr3.setWidth 64
  let isr := isr <<< 32
  let isr := isr ||| intToUint64 (promoteInt entry.isr2 <<< 16)
  isr ||| intToUint64 (promoteInt entry.isr1)

/-- `dump_idt_entry`: the format and the arguments that it gives to `ssfn_printf`. -/
def dumpIdtEntry (entry : IdtEntry) : CString × List VaArg :=
  ("isr = 0x%x, segment = 0x%x, ist = 0x%x, flags = 0x%x\n".toList.map ch ++ [0#8],
    [.uint64 (dumpIdtEntry.isr entry), .int (promoteInt entry.segment),
      .int (promoteInt entry.ist), .int (promoteInt entry.flags)])

/-! ## The address bit by bit -/

theorem getLsbD_isr3 (x : BitVec 32) {i : Nat} (hi : i < 64) :
    (x.setWidth 64 <<< 32).getLsbD i = (!decide (i < 32) && x.getLsbD (i - 32)) := by
  simp [hi]

/-- A promoted 16-bit field is not negative. -/
theorem getLsbD_isr1 (x : BitVec 16) {i : Nat} (hi : i < 64) :
    (intToUint64 (promoteInt x)).getLsbD i = x.getLsbD i := by
  have hmsb : (promoteInt x).msb = false := by
    rw [BitVec.msb_eq_getLsbD_last, promoteInt, BitVec.getLsbD_setWidth,
      BitVec.getLsbD_of_ge x _ (by decide), Bool.and_false]
  rw [intToUint64, BitVec.signExtend_eq_setWidth_of_msb_false hmsb, promoteInt,
    BitVec.getLsbD_setWidth, BitVec.getLsbD_setWidth, decide_eq_true hi, Bool.true_and]
  by_cases h32 : i < 32
  · simp [h32]
  · simp [h32, BitVec.getLsbD_of_ge x i (by omega)]

/-- Shifted by 16 bits it has its top bit for a sign. -/
theorem getLsbD_isr2 (x : BitVec 16) {i : Nat} (hi : i < 64) :
    (intToUint64 (promoteInt x <<< 16)).getLsbD i
      = if i < 32 then !decide (i < 16) && x.getLsbD (i - 16) else x.getLsbD 15 := by
  rw [intToUint64, BitVec.getLsbD_signExtend, decide_eq_true hi, Bool.true_and, promoteInt]
  by_cases h32 : i < 32
  · simp [h32]
  · simp [h32, BitVec.msb_eq_getLsbD_last]

/-- The middle field is the only one that gets in the way of another. -/
theorem getLsbD_dumpIsr (entry : IdtEntry) {i : Nat} (hi : i < 64) :
    (dumpIdtEntry.isr entry).getLsbD i
      = if i < 16 then entry.isr1.getLsbD i
        else if i < 32 then entry.isr2.getLsbD (i - 16)
        else (entry.isr3.getLsbD (i - 32) || entry.isr2.getLsbD 15) := by
  rw [dumpIdtEntry.isr]
  rw [BitVec.getLsbD_or, BitVec.getLsbD_or, getLsbD_isr3 _ hi, getLsbD_isr2 _ hi,
    getLsbD_isr1 _ hi]
  -- the low field is read below bit 16 only
  have hlow : ¬ i < 16 → entry.isr1.getLsbD i = false := fun h => BitVec.getLsbD_of_ge _ _ (by omega)
  by_cases h16 : i < 16
  · have h32 : i < 32 := by omega
    simp [h16, h32]
  · by_cases h32 : i < 32
    · simp [h16, h32, hlow]
    · simp [h16, h32, hlow]

/-- The bits that a sign is copied to. -/
def upperHalf : Word := 0xFFFFFFFF00000000#64

theorem getLsbD_upperHalf {i : Nat} (hi : i < 64) : upperHalf.getLsbD i = !decide (i < 32) := by
  have hmask : upperHalf = (BitVec.allOnes 32).setWidth 64 <<< 32 := rfl
  rw [hmask, getLsbD_isr3 _ hi, BitVec.getLsbD_allOnes]
  by_cases h32 : i < 32
  · simp [h32]
  · have hlt : i - 32 < 32 := by omega
    simp [h32, hlt]

section Create

variable (isr : Word) (segment : BitVec 16) (ist flags : Byte) (reserved : BitVec 32)

theorem getLsbD_dumpIsr_create {i : Nat} (hi : i < 64) :
    (dumpIdtEntry.isr (idtEntryCreate isr segment ist flags reserved)).getLsbD i
      = (isr.getLsbD i || !decide (i < 32) && isr.getLsbD 31) := by
  have hmask : (0xFFFF#64 : Word) = BitVec.setWidth 64 (BitVec.allOnes 16) := rfl
  rw [getLsbD_dumpIsr _ hi]
  simp only [idtEntryCreate, hmask, BitVec.getLsbD_setWidth, BitVec.getLsbD_and,
    BitVec.getLsbD_ushiftRight, BitVec.getLsbD_allOnes]
  -- one case for each field that bit `i` can lie in
  by_cases h16 : i < 16
  · have h32 : i < 32 := by omega
    simp [hi, h16, h32]
  · by_cases h32 : i < 32
    · have hlt : i - 16 < 16 := by omega
      have hback : 16 + (i - 16) = i := by omega
      have hlt' : i - 16 < 64 := by omega
      simp [h16, h32, hlt, hlt', hback]
    · have hlt : i - 32 < 32 := by omega
      have hback : 32 + (i - 32) = i := by omega
      simp [h16, h32, hlt, hback]

/-- What comes back for any address. -/
theorem dumpIsr_create :
    dumpIdtEntry.isr (idtEntryCreate isr segment ist flags reserved)
      = if isr.getLsbD 31 = true then isr ||| upperHalf else isr := by
  apply BitVec.eq_of_getLsbD_eq
  intro i hi
  rw [getLsbD_dumpIsr_create _ _ _ _ _ hi]
  by_cases h31 : isr.getLsbD 31 = true
  · rw [if_pos h31, h31, Bool.and_true, BitVec.getLsbD_or, getLsbD_upperHalf hi]
  · rw [if_neg h31, Bool.eq_false_iff.mpr h31, Bool.and_false, Bool.or_false]

end Create

/-- Setting the upper half changes nothing exactly if it is set. -/
theorem or_upperHalf_eq_iff (isr : Word) :
    isr ||| upperHalf = isr ↔ isr >>> 32 = 0xFFFFFFFF#64 := by
  have hones : (0xFFFFFFFF#64 : Word) = BitVec.setWidth 64 (BitVec.allOnes 32) := rfl
  rw [hones]
  constructor
  · intro h
    apply BitVec.eq_of_getLsbD_eq
    intro i hi
    rw [BitVec.getLsbD_ushiftRight, BitVec.getLsbD_setWidth, BitVec.getLsbD_allOnes]
    by_cases h32 : i < 32
    · have hlt : 32 + i < 64 := by omega
      have hge : ¬ 32 + i < 32 := by omega
      rw [← h, BitVec.getLsbD_or, getLsbD_upperHalf hlt]
      simp [hi, h32, hge]
    · rw [BitVec.getLsbD_of_ge isr _ (by omega)]
      simp [h32]
  · intro h
    apply BitVec.eq_of_getLsbD_eq
    intro i hi
    rw [BitVec.getLsbD_or, getLsbD_upperHalf hi]
    by_cases h32 : i < 32
    · simp [h32]
    · have hlt : i - 32 < 32 := by omega
      -- bit `i` of the address is bit `i - 32` of the shifted one
      have hbit := congrArg (fun x : Word => x.getLsbD (i - 32)) h
      simp only [BitVec.getLsbD_ushiftRight, BitVec.getLsbD_setWidth, BitVec.getLsbD_allOnes] at hbit
      rw [show 32 + (i - 32) = i by omega] at hbit
      rw [hbit]
      simp [h32, hlt]
      omega

/-- The address 0x80000000 comes back as 0xFFFFFFFF80000000. -/
theorem idt_entry_sign_extended :
    (dumpIdtEntry (idtEntryCreate 0x80000000#64 0x28#16 0#8 0x8E#8 0#32)).2
      = [.uint64 0xFFFFFFFF80000000#64, .int 0x28#32, .int 0#32, .int 0x8E#32] ∧
    ¬ ∀ (isr : Word) (segment : BitVec 16) (ist flags : Byte) (reserved : BitVec 32),
      dumpIdtEntry.isr (idtEntryCreate isr segment ist flags reserved) = isr := by
  have h : dumpIdtEntry.isr (idtEntryCreate 0x80000000#64 0x28#16 0#8 0x8E#8 0#32)
      = 0xFFFFFFFF80000000#64 := by decide
  refine ⟨by decide, fun hall => ?_⟩
  rw [hall] at h
  exact absurd h (by decide)

/-- **An IDT entry and its dump.**  The address in the dump of an entry is the one that the
    entry was created for exactly if bit 31 of that address is clear or its upper half is
    all ones. -/
theorem idt_entry_dump_iff (isr : Word) (segment : BitVec 16) (ist flags : Byte)
    (reserved : BitVec 32) :
    dumpIdtEntry.isr (idtEntryCreate isr segment ist flags reserved) = isr ↔
      isr.getLsbD 31 = false ∨ isr >>> 32 = 0xFFFFFFFF#64 := by
  rw [dumpIsr_create]
  by_cases h31 : isr.getLsbD 31 = true
  -- the sign fills the upper half, which is right only if it was full
  · rw [if_pos h31, or_upperHalf_eq_iff, or_iff_right (by rw [h31]; decide)]
  · rw [if_neg h31, Bool.eq_false_iff]
    exact iff_of_true rfl (.inl h31)

/-- A handler in the kernel's own half. -/
example : dumpIdtEntry.isr (idtEntryCreate 0xFFFFFFFF80001234#64 0x28#16 0#8 0x8E#8 0#32)
    = 0xFFFFFFFF80001234#64 := by decide

end EchOS
