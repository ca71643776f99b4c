/-
  EchOS.Kernel.Acpi.Madt

  `madt_get_processor_local_apic_count` of `kernel/acpi/madt.c`, and for which tables
  it comes to an end without leaving the table.

  Memory has a byte at every address, and the walk logs the addresses of the record
  headers it reads.  The bound of the walk is an unsigned difference that wraps for a
  table shorter than its fixed part, only the first byte of a header is compared with
  it, and a record of length 0 is met again and again.
-/
import EchOS.Kernel.Acpi.Table
import EchOS.Lib.Logged

namespace EchOS

/-- `sizeof(APIC)`: the table up to its entries. -/
def sizeofApic : Word := 44#64

/-- A byte of a record header. -/
def readHeader (memory : Word → Byte) (address : Word) : Logged Word Abort Byte :=
  ⟨.ok (memory address), [address]⟩

/-- The loop of `madt_get_processor_local_apic_count`. -/
def madt.loop (memory : Word → Byte) (entriesSize : Word) :
    (fuel : Nat) → (offset pos count : Word) → Logged Word Abort Word
  | 0, _, _, _ => Logged.lift (.error .outOfFuel)
  | fuel + 1, offset, pos, count =>
      if pos < entriesSize then do
        let entryType ← readHeader memory offset
        let recordLength ← readHeader memory (offset + 1#64)
        let recordLength' ← readHeader memory (offset + 1#64)
        madt.loop memory entriesSize fuel (offset + recordLength'.setWidth 64)
          (pos + recordLength.setWidth 64) (if entryType = 0#8 then count + 1#64 else count)
      else pure count

/-- `madt_get_processor_local_apic_count` -/
def madtGetProcessorLocalApicCount (memory : Word → Byte) (fuel : Nat) (apic : Word) :
    Logged Word Abort Word :=
  madt.loop memory ((headerLength memory apic).setWidth 64 - sizeofApic) fuel (apic + sizeofApic)
    0#64 0#64

/-! ## Tables -/

section Table

variable (memory : Word → Byte) (apic : Word)

/-- The offsets at which a record starts, or the table has ended. -/
inductive RecordStart : Nat → Prop
  | first : RecordStart 44
  | next {pos : Nat} : RecordStart pos → pos < tableLength memory apic →
      RecordStart (pos + (tableByte memory apic (pos + 1)).toNat)

/-- The table holds its fixed part, every record that starts in it has its header in it,
    and none has length 0. -/
structure Walkable : Prop where
  fixedPart : 44 ≤ tableLength memory apic
  header : ∀ pos, RecordStart memory apic pos → pos < tableLength memory apic →
    pos + 2 ≤ tableLength memory apic
  progress : ∀ pos, RecordStart memory apic pos → pos < tableLength memory apic →
    tableByte memory apic (pos + 1) ≠ 0#8

/-- A record, of at least 2 and at most 255 bytes. -/
structure MadtRecord where
  entryType : Byte
  rest : List Byte
  fits : rest.length + 2 < 256

def MadtRecord.bytes (record : MadtRecord) : List Byte :=
  record.entryType :: BitVec.ofNat 8 (record.rest.length + 2) :: record.rest

/-- The entries area is an exact sequence of records. -/
structure Entries (records : List MadtRecord) : Prop where
  length : 44 + (records.flatMap MadtRecord.bytes).length = tableLength memory apic
  bytes : ∀ k (h : k < (records.flatMap MadtRecord.bytes).length),
    tableByte memory apic (44 + k) = (records.flatMap MadtRecord.bytes)[k]

/-- The walk returns `count`, however large the bound on its turns is from some on. -/
def WalkReturns (count : Word) : Prop :=
  ∃ bound, ∀ fuel, bound ≤ fuel →
    (madtGetProcessorLocalApicCount memory fuel apic).result = .ok count

/-- It reads only record headers in the table. -/
def WalkConfined : Prop :=
  ∀ fuel, ∀ address ∈ (madtGetProcessorLocalApicCount memory fuel apic).events,
    ∃ k, k < tableLength memory apic ∧ address = apic + BitVec.ofNat 64 k

/-- It counts the records of type 0. -/
def WalkCounts : Prop :=
  ∀ records, Entries memory apic records → ∃ count, WalkReturns memory apic count ∧
    count.toNat = records.countP fun record => record.entryType = 0#8

end Table

/-! ## A turn -/

section Walk

variable {memory : Word → Byte} {apic : Word}

/-- The loop from the record at an offset of the table. -/
def madt.rest (memory : Word → Byte) (apic : Word) (pos : Nat) (count : Word) (fuel : Nat) :
    Logged Word Abort Word :=
  madt.loop memory ((headerLength memory apic).setWidth 64 - sizeofApic) fuel
    (apic + BitVec.ofNat 64 pos) (BitVec.ofNat 64 (pos - 44)) count

/-- The count after a record. -/
def countRecord (entryType : Byte) (count : Word) : Word :=
  if entryType = 0#8 then count + 1#64 else count

theorem toNat_entriesSize (h : 44 ≤ tableLength memory apic) :
    ((headerLength memory apic).setWidth 64 - sizeofApic).toNat = tableLength memory apic - 44 := by
  rw [BitVec.toNat_sub_of_le, toNat_headerLength]
  · rfl
  · rw [BitVec.le_def, toNat_headerLength]
    exact h

variable (hfixed : 44 ≤ tableLength memory apic)

include hfixed

theorem madt_rest_end {pos : Nat} (hpos : tableLength memory apic ≤ pos) (hlt : pos < 2 ^ 33)
    (count : Word) (fuel : Nat) : madt.rest memory apic pos count (fuel + 1) = pure count := by
  rw [madt.rest, madt.loop, if_neg]
  rw [BitVec.lt_def, toNat_entriesSize hfixed, BitVec.toNat_ofNat]
  omega

/-- A turn reads the header of a record and goes on behind the record. -/
theorem madt_rest_turn {pos : Nat} (hfirst : 44 ≤ pos) (hpos : pos < tableLength memory apic)
    (count : Word) (fuel : Nat) :
    madt.rest memory apic pos count (fuel + 1)
      = ⟨(madt.rest memory apic (pos + (tableByte memory apic (pos + 1)).toNat)
            (countRecord (tableByte memory apic pos) count) fuel).result,
          [apic + BitVec.ofNat 64 pos, apic + BitVec.ofNat 64 (pos + 1),
            apic + BitVec.ofNat 64 (pos + 1)]
            ++ (madt.rest memory apic (pos + (tableByte memory apic (pos + 1)).toNat)
                (countRecord (tableByte memory apic pos) count) fuel).events⟩ := by
  have hlt := tableLength_lt memory apic
  have hin : BitVec.ofNat 64 (pos - 44)
      < (headerLength memory apic).setWidth 64 - sizeofApic := by
    rw [BitVec.lt_def, toNat_entriesSize hfixed, BitVec.toNat_ofNat]
    omega
  have hsecond : apic + BitVec.ofNat 64 pos + 1#64 = apic + BitVec.ofNat 64 (pos + 1) := by
    rw [BitVec.ofNat_add, BitVec.add_assoc]
  have hoffset : apic + BitVec.ofNat 64 pos + (tableByte memory apic (pos + 1)).setWidth 64
      = apic + BitVec.ofNat 64 (pos + (tableByte memory apic (pos + 1)).toNat) := by
    rw [BitVec.ofNat_add, BitVec.ofNat_toNat, BitVec.add_assoc]
  have hpos' : BitVec.ofNat 64 (pos - 44) + (tableByte memory apic (pos + 1)).setWidth 64
      = BitVec.ofNat 64 (pos + (tableByte memory apic (pos + 1)).toNat - 44) := by
    rw [← BitVec.ofNat_toNat, ← BitVec.ofNat_add]
    congr 1
    omega
  have hbyte : ∀ k, memory (apic + BitVec.ofNat 64 k) = tableByte memory apic k := fun _ => rfl
  rw [madt.rest, madt.loop, if_pos hin, hsecond, readHeader, readHeader, hbyte, hbyte,
    Logged.ok_bind, Logged.ok_bind, Logged.ok_bind, hoffset, hpos']
  rfl

/-! ## Walkable tables -/

omit hfixed in
theorem RecordStart.bounds {pos : Nat} (h : RecordStart memory apic pos) :
    44 ≤ pos ∧ pos ≤ tableLength memory apic + 299 := by
  induction h with
  | first => omega
  | @next pos _ hlt ih =>
      have := (tableByte memory apic (pos + 1)).isLt
      omega

/-- From a record start on, the walk of a walkable table ends, and reads no header that is
    not in the table. -/
theorem walk_of_walkable (h : Walkable memory apic) (left : Nat) :
    ∀ (pos : Nat) (count : Word), RecordStart memory apic pos →
      tableLength memory apic - pos ≤ left →
      (∃ count', ∀ fuel, left < fuel → (madt.rest memory apic pos count fuel).result = .ok count') ∧
      ∀ fuel, ∀ address ∈ (madt.rest memory apic pos count fuel).events,
        ∃ k, k < tableLength memory apic ∧ address = apic + BitVec.ofNat 64 k := by
  have hlen := tableLength_lt memory apic
  induction left with
  | zero =>
      intro pos count hstart hleft
      have hbounds := hstart.bounds
      have hend := madt_rest_end hfixed (show tableLength memory apic ≤ pos by omega) (by omega)
      refine ⟨⟨count, fun fuel hfuel => ?_⟩, fun fuel address haddress => ?_⟩
      · obtain ⟨fuel, rfl⟩ := Nat.exists_eq_add_one_of_ne_zero (show fuel ≠ 0 by omega)
        rw [hend]
        rfl
      · cases fuel with
        | zero => cases haddress
        | succ fuel =>
            rw [hend] at haddress
            cases haddress
  | succ left ih =>
      intro pos count hstart hleft
      have hbounds := hstart.bounds
      rcases Nat.lt_or_ge pos (tableLength memory apic) with hpos | hpos
      · have hturn := madt_rest_turn hfixed hbounds.1 hpos count
        have hheader := h.header pos hstart hpos
        have hprogress : (tableByte memory apic (pos + 1)).toNat ≠ 0 := fun hzero =>
          h.progress pos hstart hpos (BitVec.eq_of_toNat_eq hzero)
        -- what is left of the table gets shorter
        obtain ⟨⟨count', hresult⟩, hevents⟩ := ih _
          (countRecord (tableByte memory apic pos) count) (hstart.next hpos) (by omega)
        refine ⟨⟨count', fun fuel hfuel => ?_⟩, fun fuel address haddress => ?_⟩
        · obtain ⟨fuel, rfl⟩ := Nat.exists_eq_add_one_of_ne_zero (show fuel ≠ 0 by omega)
          rw [hturn]
          exact hresult fuel (by omega)
        · cases fuel with
          | zero => cases haddress
          | succ fuel =>
              rw [hturn] at haddress
              rcases List.mem_append.mp haddress with haddress | haddress
              · simp only [List.mem_cons, List.not_mem_nil, or_false] at haddress
                rcases haddress with rfl | rfl | rfl
                · exact ⟨pos, hpos, rfl⟩
                · exact ⟨pos + 1, hheader, rfl⟩
                · exact ⟨pos + 1, hheader, rfl⟩
              · exact hevents fuel address haddress
      · -- the table has ended
        obtain ⟨⟨count', hresult⟩, hevents⟩ := ih pos count hstart (by omega)
        exact ⟨⟨count', fun fuel hfuel => hresult fuel (by omega)⟩, hevents⟩

/-- The turns before a record start. -/
theorem exists_turns_before {pos : Nat} (h : RecordStart memory apic pos) :
    ∃ turns count, ∀ fuel, (madt.rest memory apic 44 0#64 (turns + fuel)).result
        = (madt.rest memory apic pos count fuel).result ∧
      (madt.rest memory apic pos count fuel).events
        ⊆ (madt.rest memory apic 44 0#64 (turns + fuel)).events := by
  induction h with
  | first =>
      refine ⟨0, 0#64, fun fuel => ?_⟩
      rw [Nat.zero_add]
      exact ⟨rfl, List.Subset.refl _⟩
  | @next pos hstart hpos ih =>
      obtain ⟨turns, count, hturns⟩ := ih
      refine ⟨turns + 1, countRecord (tableByte memory apic pos) count, fun fuel => ?_⟩
      obtain ⟨hresult, hevents⟩ := hturns (fuel + 1)
      rw [madt_rest_turn hfixed hstart.bounds.1 hpos] at hresult hevents
      rw [Nat.add_assoc, Nat.add_comm 1]
      exact ⟨hresult, fun _ h => hevents (List.mem_append_right _ h)⟩

/-- A record of length 0 keeps the walk from ending. -/
theorem rest_of_no_progress {pos : Nat} (hfirst : 44 ≤ pos) (hpos : pos < tableLength memory apic)
    (hzero : tableByte memory apic (pos + 1) = 0#8) (fuel : Nat) :
    ∀ count, (madt.rest memory apic pos count fuel).result = .error .outOfFuel := by
  induction fuel with
  | zero => exact fun _ => rfl
  | succ fuel ih =>
      intro count
      rw [madt_rest_turn hfixed hfirst hpos, hzero]
      exact ih _

omit hfixed in
theorem countRecord_add (entryType : Byte) (count : Word) (n : Nat) :
    countRecord entryType count + BitVec.ofNat 64 n
      = count + BitVec.ofNat 64 (n + if entryType = 0#8 then 1 else 0) := by
  unfold countRecord
  split
  · rw [BitVec.add_assoc, Nat.add_comm n, BitVec.ofNat_add]
  · rfl

/-- The walk over an exact sequence of records counts those of type 0. -/
theorem rest_of_entries (records : List MadtRecord) :
    ∀ (pos : Nat) (count : Word), 44 ≤ pos →
      pos + (records.flatMap MadtRecord.bytes).length = tableLength memory apic →
      (∀ k c, (records.flatMap MadtRecord.bytes)[k]? = some c →
        tableByte memory apic (pos + k) = c) →
      ∀ fuel, records.length < fuel → (madt.rest memory apic pos count fuel).result
        = .ok (count + BitVec.ofNat 64 (records.countP fun record => record.entryType = 0#8)) := by
  have hlen := tableLength_lt memory apic
  induction records with
  | nil =>
      intro pos count hfirst hlength hbytes fuel hfuel
      obtain ⟨fuel, rfl⟩ := Nat.exists_eq_add_one_of_ne_zero (show fuel ≠ 0 by omega)
      have hpos : pos = tableLength memory apic := hlength
      rw [madt_rest_end hfixed hpos.ge (by omega)]
      exact congrArg Except.ok (BitVec.add_zero count).symm
  | cons record records ih =>
      intro pos count hfirst hlength hbytes fuel hfuel
      obtain ⟨fuel, rfl⟩ := Nat.exists_eq_add_one_of_ne_zero (show fuel ≠ 0 by omega)
      -- the header is the first two bytes
      have htype : tableByte memory apic pos = record.entryType := hbytes 0 _ rfl
      have hsize : tableByte memory apic (pos + 1) = BitVec.ofNat 8 (record.rest.length + 2) :=
        hbytes 1 _ rfl
      have hsize' : (tableByte memory apic (pos + 1)).toNat = record.bytes.length := by
        rw [hsize, BitVec.toNat_ofNat, Nat.mod_eq_of_lt record.fits]
        rfl
      have hbytesLength : record.bytes.length = record.rest.length + 2 := rfl
      rw [List.flatMap_cons, List.length_append] at hlength
      have hrest := ih (pos + record.bytes.length) (countRecord record.entryType count) (by omega)
        (by omega) (fun k c hk => ?_) fuel (Nat.lt_of_succ_lt_succ hfuel)
      · rw [madt_rest_turn hfixed hfirst (by omega), htype, hsize']
        show Logged.result _ = _
        rw [hrest, List.countP_cons, countRecord_add]
        simp only [decide_eq_true_eq]
      · rw [Nat.add_assoc]
        refine hbytes _ c ?_
        rw [List.flatMap_cons, List.getElem?_append_right (Nat.le_add_right _ _),
          Nat.add_sub_cancel_left]
        exact hk

end Walk

section Result

variable {memory : Word → Byte} {apic : Word}

/-- The first header read is the one behind the fixed part, in the table or not: the bound
    of the walk wraps if it is not. -/
theorem fixedPart_of_confined (h : WalkConfined memory apic) : 44 ≤ tableLength memory apic := by
  by_contra hshort
  have hin : 0#64 < (headerLength memory apic).setWidth 64 - sizeofApic := by
    rw [BitVec.lt_def, BitVec.toNat_sub, toNat_headerLength]
    show 0 < (2 ^ 64 - 44 + tableLength memory apic) % 2 ^ 64
    omega
  have hfirst : apic + sizeofApic ∈ (madtGetProcessorLocalApicCount memory 1 apic).events := by
    rw [madtGetProcessorLocalApicCount, madt.loop, if_pos hin]
    exact List.mem_cons_self
  -- an offset below the Length is below 44
  obtain ⟨k, hk, heq⟩ := h 1 _ hfirst
  have hk' := congrArg BitVec.toNat ((BitVec.add_right_inj apic).mp heq)
  rw [BitVec.toNat_ofNat, show sizeofApic.toNat = 44 from rfl] at hk'
  omega

theorem walkable_of_walk {count : Word} (hreturns : WalkReturns memory apic count)
    (hconfined : WalkConfined memory apic) : Walkable memory apic := by
  have hfixed := fixedPart_of_confined hconfined
  have hlen := tableLength_lt memory apic
  refine ⟨hfixed, fun pos hstart hpos => ?_, fun pos hstart hpos hzero => ?_⟩
  · -- the second byte of the header is read too
    obtain ⟨turns, count', hturns⟩ := exists_turns_before hfixed hstart
    have hmem : apic + BitVec.ofNat 64 (pos + 1)
        ∈ (madt.rest memory apic pos count' 1).events := by
      rw [madt_rest_turn hfixed hstart.bounds.1 hpos]
      exact List.mem_cons_of_mem _ List.mem_cons_self
    obtain ⟨k, hk, heq⟩ := hconfined (turns + 1) _ ((hturns 1).2 hmem)
    have hk' := congrArg BitVec.toNat ((BitVec.add_right_inj apic).mp heq)
    rw [BitVec.toNat_ofNat, BitVec.toNat_ofNat] at hk'
    omega
  · -- the walk would stay at this record
    obtain ⟨turns, count', hturns⟩ := exists_turns_before hfixed hstart
    obtain ⟨bound, hbound⟩ := hreturns
    have hok := hbound (turns + bound) (Nat.le_add_left _ _)
    have hstuck := rest_of_no_progress hfixed hstart.bounds.1 hpos hzero bound count'
    rw [← (hturns bound).1] at hstuck
    cases hok.symm.trans hstuck

theorem length_le_entries (records : List MadtRecord) :
    records.length ≤ (records.flatMap MadtRecord.bytes).length := by
  induction records with
  | nil => exact Nat.le_refl 0
  | cons record records ih =>
      have hbytes : record.bytes.length = record.rest.length + 2 := rfl
      rw [List.flatMap_cons, List.length_append, List.length_cons]
      omega

/-- The count is right for every table with exact entries. -/
theorem walkCounts (memory : Word → Byte) (apic : Word) : WalkCounts memory apic := by
  intro records h
  have hlen := tableLength_lt memory apic
  have hlength := h.length
  have hrecords := length_le_entries records
  have hcount := records.countP_le_length (p := fun record => record.entryType = 0#8)
  refine ⟨0#64 + BitVec.ofNat 64 (records.countP fun record => record.entryType = 0#8),
    ⟨records.length + 1, fun fuel hfuel => ?_⟩, ?_⟩
  · refine (rest_of_entries (by omega) records 44 0#64 (Nat.le_refl _) h.length (fun k c hk => ?_)
      fuel hfuel)
    obtain ⟨hlt, rfl⟩ := List.getElem?_eq_some_iff.mp hk
    exact h.bytes k hlt
  · -- there are fewer records than bytes, so the count does not wrap
    rw [BitVec.zero_add, BitVec.toNat_ofNat, Nat.mod_eq_of_lt (by omega)]

/-- A table of 46 bytes with one record, of length 0. -/
def stuckTable : Word → Byte := fun address => if address = 0x1004#64 then 46#8 else 0#8

/-- On a record of length 0 the walk does not end, and in a table with a Length of 0 it
    reads behind the table. -/
theorem madt_walk_stuck :
    (∀ count, ¬ WalkReturns stuckTable 0x1000#64 count) ∧
    ¬ WalkConfined (fun _ => 0#8) 0x1000#64 := by
  have hlength : tableLength stuckTable 0x1000#64 = 46 := by decide
  constructor
  · rintro count ⟨bound, hbound⟩
    have hstuck : (madt.rest stuckTable 0x1000#64 44 0#64 bound).result = .error .outOfFuel :=
      rest_of_no_progress (by rw [hlength]; decide) (Nat.le_refl 44) (by rw [hlength]; decide)
        (by decide) bound 0#64
    cases (hbound bound (Nat.le_refl _)).symm.trans hstuck
  · intro h
    exact absurd (fixedPart_of_confined h) (by decide)

/-- **The walk over a MADT.**  It ends, reads no record header outside the table and counts
    the records of type 0 of every exact sequence of records, exactly if the table holds
    its fixed part and, from record to record, every header and no length of 0. -/
theorem madt_walk_iff (memory : Word → Byte) (apic : Word) :
    ((∃ count, WalkReturns memory apic count) ∧ WalkConfined memory apic ∧
      WalkCounts memory apic) ↔ Walkable memory apic := by
  constructor
  · rintro ⟨⟨count, hreturns⟩, hconfined, -⟩
    exact walkable_of_walk hreturns hconfined
  · intro h
    obtain ⟨⟨count, hresult⟩, hevents⟩ := walk_of_walkable h.fixedPart h
      (tableLength memory apic) 44 0#64 .first (Nat.sub_le _ _)
    exact ⟨⟨count, tableLength memory apic + 1, hresult⟩, hevents, walkCounts memory apic⟩

/-- A table of 52 bytes with one processor. -/
example : (madtGetProcessorLocalApicCount (fun address => if address = 0x1004#64 then 52#8
    else if address = 0x102D#64 then 8#8 else 0#8) 2 0x1000#64).result = .ok 1#64 := by rfl

end Result

end EchOS
