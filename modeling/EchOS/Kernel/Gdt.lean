/-
  EchOS.Kernel.Gdt

  `kernel/gdt.c` and `kernel/gdt_flush.s`: the entries of the GDT, the table in
  memory, and the registers that are loaded from it.

  An entry holds its base and its limit in two and three pieces, in between the
  access byte and the flags.  `SegmentDescriptor.ofEntry` is how the processor puts
  them together; it is not code of the repository.
-/
import EchOS.CLib.Memory

namespace EchOS

open FlatMemory

/-! ## Entries -/

/-- `gdt_entry_create` -/
def gdtEntryCreate (base limit : BitVec 32) (access flags : Byte) : Word :=
  let base1 := (base >>> 24).setWidth 64
  let base2 := ((base >>> 16) &&& 0xFF#32).setWidth 64
  let base3 := (base &&& 0xFFFF#32).setWidth 64
  let limit1 := ((limit >>> 16) &&& 0xF#32).setWidth 64
  let limit2 := (limit &&& 0xFFFF#32).setWidth 64
  let entry : Word := base1 <<< 56
  let entry := entry ||| ((flags.setWidth 64 &&& 0xF#64) <<< 52)
  let entry := entry ||| (limit1 <<< 48)
  let entry := entry ||| (access.setWidth 64 <<< 40)
  let entry := entry ||| (base2 <<< 32)
  let entry := entry ||| (base3 <<< 16)
  entry ||| limit2

/-- What an entry says of its segment. -/
structure SegmentDescriptor where
  base : BitVec 32
  limit : BitVec 20
  access : BitVec 8
  flags : BitVec 4
  deriving Repr, DecidableEq

/-- The fields of an entry. -/
def SegmentDescriptor.ofEntry (entry : Word) : SegmentDescriptor where
  base := entry.extractLsb' 56 8 ++ entry.extractLsb' 16 24
  limit := entry.extractLsb' 48 4 ++ entry.extractLsb' 0 16
  access := entry.extractLsb' 40 8
  flags := entry.extractLsb' 52 4

/-- The entry that `gdt_entry_create` makes for a segment. -/
def SegmentDescriptor.entry (d : SegmentDescriptor) : Word :=
  gdtEntryCreate d.base (d.limit.setWidth 32) d.access (d.flags.setWidth 8)

/-! ## The table in memory -/

/-- `desc->limit` -/
def gdtLimit (mem : Memory 64) (desc : Word) : BitVec 16 := load 16 mem desc

/-- `desc->base`, behind the two bytes of the limit -/
def gdtBase (mem : Memory 64) (desc : Word) : Word := load 64 mem (desc + 2#64)

/-- `desc->limit = limit` -/
def setGdtLimit (mem : Memory 64) (desc : Word) (limit : BitVec 16) : Memory 64 :=
  store mem desc limit

/-- `desc->base = base` -/
def setGdtBase (mem : Memory 64) (desc base : Word) : Memory 64 := store mem (desc + 2#64) base

/-- `&ptr[index]` of a table of `gdt_entry` -/
def gdtSlot (base : Word) (index : Nat) : Word := base + BitVec.ofNat 64 (8 * index)

/-- `gdt_entry_add` -/
def gdtEntryAdd (mem : Memory 64) (desc : Word) (index : Byte) (entry : Word) : Memory 64 :=
  store mem (gdtSlot (gdtBase mem desc) index.toNat) entry

/-- The registers that `gdt_flush` and `set_cr3` load. -/
structure Cpu where
  gdtrLimit : BitVec 16
  gdtrBase : Word
  cs : BitVec 16
  ds : BitVec 16
  es : BitVec 16
  ss : BitVec 16
  cr3 : Word
  deriving Repr, DecidableEq

/-- `gdt_flush`: `lgdt` of the ten bytes at `gdt`, the data selectors, and the far return
    that loads the code selector. -/
def gdtFlush (cpu : Cpu) (mem : Memory 64) (gdt : Word) : Cpu :=
  { cpu with
    gdtrLimit := gdtLimit mem gdt
    gdtrBase := gdtBase mem gdt
    ds := 0x10#16
    es := 0x10#16
    ss := 0x10#16
    cs := 0x08#16 }

/-! ## Bits of an entry -/

/-- Which field each bit belongs to. -/
theorem getLsbD_gdtEntryCreate (base limit : BitVec 32) (access flags : Byte) {i : Nat}
    (hi : i < 64) :
    (gdtEntryCreate base limit access flags).getLsbD i
      = if i < 16 then limit.getLsbD i
        else if i < 40 then base.getLsbD (i - 16)
        else if i < 48 then access.getLsbD (i - 40)
        else if i < 52 then limit.getLsbD (i - 32)
        else if i < 56 then flags.getLsbD (i - 52)
        else base.getLsbD (i - 32) := by
  have hmask16 : (0xFFFF#32) = BitVec.setWidth 32 (BitVec.allOnes 16) := rfl
  have hmask8 : (0xFF#32) = BitVec.setWidth 32 (BitVec.allOnes 8) := rfl
  have hmask4 : (0xF#32) = BitVec.setWidth 32 (BitVec.allOnes 4) := rfl
  have hflags : (0xF#64) = BitVec.setWidth 64 (BitVec.allOnes 4) := rfl
  -- the access byte has no mask, but no bits beyond its own either
  have haccess : 48 ≤ i → access.getLsbD (i - 40) = false := fun h =>
    BitVec.getLsbD_of_ge _ _ (by omega)
  have hbase : 56 ≤ i → 24 + (i - 56) = i - 32 := fun h => by omega
  unfold gdtEntryCreate
  rw [hmask16, hmask8, hmask4, hflags]
  simp only [BitVec.getLsbD_or, BitVec.getLsbD_shiftLeft, BitVec.getLsbD_setWidth,
    BitVec.getLsbD_and, BitVec.getLsbD_ushiftRight, BitVec.getLsbD_allOnes]
  grind

/-- The fields that come out are the ones that went in, the limit and the flags cut to
    their 20 and 4 bits. -/
theorem ofEntry_gdtEntryCreate (base limit : BitVec 32) (access flags : Byte) :
    SegmentDescriptor.ofEntry (gdtEntryCreate base limit access flags)
      = ⟨base, limit.setWidth 20, access, flags.setWidth 4⟩ := by
  have hbit := @getLsbD_gdtEntryCreate base limit access flags
  unfold SegmentDescriptor.ofEntry
  congr 1
  · apply BitVec.eq_of_getLsbD_eq
    intro i hi
    rw [BitVec.getLsbD_append, BitVec.getLsbD_extractLsb', BitVec.getLsbD_extractLsb']
    by_cases hlow : i < 24
    · rw [if_pos hlow, decide_eq_true hlow, Bool.true_and, hbit (by omega)]
      grind
    · rw [if_neg hlow, decide_eq_true (by omega), Bool.true_and, hbit (by omega)]
      grind
  · apply BitVec.eq_of_getLsbD_eq
    intro i hi
    rw [BitVec.getLsbD_append, BitVec.getLsbD_extractLsb', BitVec.getLsbD_extractLsb',
      BitVec.getLsbD_setWidth, decide_eq_true hi, Bool.true_and]
    by_cases hlow : i < 16
    · rw [if_pos hlow, decide_eq_true hlow, Bool.true_and, hbit (by omega)]
      grind
    · rw [if_neg hlow, decide_eq_true (by omega), Bool.true_and, hbit (by omega)]
      grind
  · apply BitVec.eq_of_getLsbD_eq
    intro i hi
    rw [BitVec.getLsbD_extractLsb', decide_eq_true hi, Bool.true_and, hbit (by omega)]
    grind
  · apply BitVec.eq_of_getLsbD_eq
    intro i hi
    rw [BitVec.getLsbD_extractLsb', BitVec.getLsbD_setWidth, decide_eq_true hi, Bool.true_and,
      Bool.true_and, hbit (by omega)]
    grind

/-- Every word is the entry of its fields. -/
theorem entry_ofEntry (e : Word) : (SegmentDescriptor.ofEntry e).entry = e := by
  apply BitVec.eq_of_getLsbD_eq
  intro i hi
  unfold SegmentDescriptor.entry SegmentDescriptor.ofEntry
  rw [getLsbD_gdtEntryCreate _ _ _ _ hi]
  simp only [BitVec.getLsbD_append, BitVec.getLsbD_extractLsb', BitVec.getLsbD_setWidth]
  grind

/-- **`gdt_entry_create` loses nothing.**  The processor reads back from an entry the base
    and the access byte it was created for, the low 20 bits of the limit and the low 4 bits
    of the flags; and every 64-bit word is the entry of exactly one segment.  So two entries
    are the same exactly if they were created for the same base, access byte, 20-bit limit
    and 4-bit flags. -/
theorem gdt_entry_round_trip :
    (∀ (base limit : BitVec 32) (access flags : Byte),
      SegmentDescriptor.ofEntry (gdtEntryCreate base limit access flags)
        = ⟨base, limit.setWidth 20, access, flags.setWidth 4⟩) ∧
    (∀ e : Word, ∃ d : SegmentDescriptor, d.entry = e ∧ ∀ d' : SegmentDescriptor, d'.entry = e → d' = d) ∧
    ∀ (base limit base' limit' : BitVec 32) (access flags access' flags' : Byte),
      gdtEntryCreate base limit access flags = gdtEntryCreate base' limit' access' flags' ↔
        base = base' ∧ limit.setWidth 20 = limit'.setWidth 20 ∧ access = access' ∧
          flags.setWidth 4 = flags'.setWidth 4 := by
  have hread : ∀ d : SegmentDescriptor, SegmentDescriptor.ofEntry d.entry = d := by
    intro d
    unfold SegmentDescriptor.entry
    rw [ofEntry_gdtEntryCreate]
    cases d
    simp
  refine ⟨ofEntry_gdtEntryCreate, fun e => ⟨.ofEntry e, entry_ofEntry e, fun d' h => ?_⟩,
    fun base limit base' limit' access flags access' flags' => ⟨fun h => ?_, ?_⟩⟩
  · rw [← h, hread]
  · have hfields := congrArg SegmentDescriptor.ofEntry h
    rw [ofEntry_gdtEntryCreate, ofEntry_gdtEntryCreate] at hfields
    simpa only [SegmentDescriptor.mk.injEq] using hfields
  · rintro ⟨rfl, hlimit, rfl, hflags⟩
    rw [← entry_ofEntry (gdtEntryCreate base limit access flags), ofEntry_gdtEntryCreate, hlimit, hflags,
      ← ofEntry_gdtEntryCreate, entry_ofEntry]

end EchOS
