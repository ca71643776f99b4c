/-
  EchOS.Kernel.IdtTable

  The IDT of `kernel/idt.c` in memory: `idt_init` makes it with the caller's `malloc`,
  `idt_entry_add` fills it and `dump_idt` prints it.

  An entry takes 16 bytes, with the fields in the order of the struct and nothing in
  between.
-/
import EchOS.CLib.Memory
import EchOS.Kernel.Console
import EchOS.Kernel.Idt

namespace EchOS

open FlatMemory

/-! ## Entries in memory -/

/-- The sixteen bytes of an entry. -/
def IdtEntry.packed (entry : IdtEntry) : BitVec 128 :=
  entry.reserved ++ entry.isr3 ++ entry.isr2 ++ entry.flags ++ entry.ist ++ entry.segment
    ++ entry.isr1

/-- The entry that sixteen bytes make. -/
def IdtEntry.ofPacked (bytes : BitVec 128) : IdtEntry where
  isr1 := bytes.extractLsb' 0 16
  segment := bytes.extractLsb' 16 16
  ist := bytes.extractLsb' 32 8
  flags := bytes.extractLsb' 40 8
  isr2 := bytes.extractLsb' 48 16
  isr3 := bytes.extractLsb' 64 32
  reserved := bytes.extractLsb' 96 32

/-- `idt->limit` -/
def idtLimit (mem : Memory 64) (desc : Word) : BitVec 16 := load 16 mem desc

/-- `idt->base`, behind the two bytes of the limit -/
def idtBase (mem : Memory 64) (desc : Word) : Word := load 64 mem (desc + 2#64)

/-- `&ptr[index]` of a table of `idt_entry_t` -/
def idtSlot (base : Word) (index : Nat) : Word := base + BitVec.ofNat 64 (16 * index)

/-- `ptr[index]` -/
def idtEntryAt (mem : Memory 64) (base : Word) (index : Nat) : IdtEntry :=
  .ofPacked (load 128 mem (idtSlot base index))

/-- A `malloc`: the block, and the memory with the allocator's own records updated. -/
abbrev Malloc := Word → Memory 64 → Word × Memory 64

/-- `length` of `idt_init` -/
def idtLength : Word := 16#64 * 256#64

/-- `idt_init`.  What `malloc` returns is used as it is. -/
def idtInit (malloc : Malloc) (mem : Memory 64) : Word × Memory 64 :=
  let (idt, mem) := malloc 10#64 mem
  let mem := store mem idt ((idtLength - 1#64).setWidth 16)
  let (base, mem) := malloc idtLength mem
  let mem := store mem (idt + 2#64) base
  (idt, Flat.memset mem (idtBase mem idt) 0#32 idtLength)

/-- `idt_entry_add` -/
def idtEntryAdd (mem : Memory 64) (desc : Word) (index : Byte) (entry : IdtEntry) : Memory 64 :=
  store mem (idtSlot (idtBase mem desc) index.toNat) entry.packed

/-- The loop of `dump_idt`. -/
def dumpIdt.loop (mem : Memory 64) (base : Word) (count : Nat) :
    (fuel : Nat) → (counter : BitVec 16) → Except Abort (List Message)
  | 0, _ => .error .outOfFuel
  | fuel + 1, counter =>
      if counter.toNat < count then do
        let entry := idtEntryAt mem base counter.toNat
        let rest ← dumpIdt.loop mem base count fuel (counter + 1#16)
        return (format "IDT %d: ", [.int (counter.setWidth 32)]) :: dumpIdtEntry entry :: rest
      else .ok []

/-- `dump_idt`, on the descriptor with this limit and base. -/
def dumpIdt (fuel : Nat) (mem : Memory 64) (limit : BitVec 16) (base : Word) :
    Except Abort (List Message) := do
  let count := (limit.toNat + 1) / 16
  let rest ← dumpIdt.loop mem base count fuel 0#16
  return (format "IDTR Base: 0x%x, Limit: 0x%x\n", [.uint64 base, .int (limit.setWidth 32)]) :: rest

/-! ## Packing -/

/-- The fields come back from the bytes. -/
theorem ofPacked_packed (entry : IdtEntry) : IdtEntry.ofPacked entry.packed = entry := by
  cases entry
  simp only [IdtEntry.ofPacked, IdtEntry.packed, IdtEntry.mk.injEq]
  refine ⟨?_, ?_, ?_, ?_, ?_, ?_, ?_⟩ <;>
  · apply BitVec.eq_of_getLsbD_eq
    intro i hi
    simp only [BitVec.getLsbD_extractLsb', BitVec.getLsbD_append]
    grind

/-- The entry of a table that was cleared: not present. -/
def noEntry : IdtEntry :=
  { isr1 := 0#16, segment := 0#16, ist := 0#8, flags := 0#8, isr2 := 0#16, isr3 := 0#32
    reserved := 0#32 }

theorem ofPacked_zero : IdtEntry.ofPacked 0#128 = noEntry := rfl

/-! ## The table -/

/-- The descriptor at `idt` has room for 256 entries, and the table at `base` is `table`. -/
structure IdtIn (mem : Memory 64) (idt base : Word) (table : Byte → IdtEntry) : Prop where
  limit_eq : idtLimit mem idt = 4095#16
  base_eq : idtBase mem idt = base
  entry_eq : ∀ i : Byte, idtEntryAt mem base i.toNat = table i

theorem limit_in_descriptor (idt : Word) : span idt (16 / 8) ⊆ span idt 10 := by
  have h : span (idt + BitVec.ofNat 64 0) (16 / 8) ⊆ span idt 10 :=
    span_add_subset (by decide) (by decide)
  rwa [BitVec.add_zero] at h

theorem base_in_descriptor (idt : Word) : span (idt + 2#64) (64 / 8) ⊆ span idt 10 :=
  span_add_subset (by decide) (by decide)

theorem idtSlot_in_table (base : Word) (i : Byte) :
    span (idtSlot base i.toNat) (128 / 8) ⊆ span base 4096 := by
  have hi := i.isLt
  exact span_add_subset (by decide) (by omega)

theorem idtSlot_disjoint (base : Word) {i j : Byte} (hne : i ≠ j) :
    Disjoint (span (idtSlot base i.toNat) (128 / 8)) (span (idtSlot base j.toNat) (128 / 8)) := by
  have hi := i.isLt
  have hj := j.isLt
  have hne' : i.toNat ≠ j.toNat := fun h => hne (BitVec.eq_of_toNat_eq h)
  rcases Nat.lt_or_gt_of_ne hne' with hlt | hlt
  · exact span_add_disjoint (by omega) (by omega)
  · exact (span_add_disjoint (by omega) (by omega)).symm

section Table

variable {mem : Memory 64} {idt base : Word} {table : Byte → IdtEntry}
  (hapart : Disjoint (span base 4096) (span idt 10))

include hapart

/-- `idt_entry_add` -/
theorem IdtIn.add (h : IdtIn mem idt base table) (index : Byte) (entry : IdtEntry) :
    IdtIn (idtEntryAdd mem idt index entry) idt base (Function.update table index entry) := by
  have hslot := hapart.mono_left (idtSlot_in_table base index)
  unfold idtEntryAdd
  rw [h.base_eq]
  refine ⟨?_, ?_, fun i => ?_⟩
  · rw [← h.limit_eq]
    exact load_store_of_disjoint _ _ _ (by decide) (by decide) (hslot.mono_right (limit_in_descriptor idt))
  · refine Eq.trans ?_ h.base_eq
    exact load_store_of_disjoint _ _ _ (by decide) (by decide) (hslot.mono_right (base_in_descriptor idt))
  · by_cases hi : i = index
    · subst hi
      rw [Function.update_self, idtEntryAt, load_store_same _ _ _ (by decide) (by decide)]
      exact ofPacked_packed entry
    · rw [Function.update_of_ne hi, ← h.entry_eq i]
      refine congrArg IdtEntry.ofPacked ?_
      exact load_store_of_disjoint _ _ _ (by decide) (by decide) (idtSlot_disjoint base (Ne.symm hi))

omit hapart in
/-- It writes to the table only. -/
theorem IdtIn.add_eqOn (h : IdtIn mem idt base table) (index : Byte) (entry : IdtEntry) :
    Set.EqOn (idtEntryAdd mem idt index entry) mem (span base 4096)ᶜ := by
  unfold idtEntryAdd
  rw [h.base_eq]
  exact (store_eqOn _ _ _).mono (Set.compl_subset_compl.mpr (idtSlot_in_table base index))

/-- Several entries, one after the other; what was added last is there. -/
theorem IdtIn.addAll (h : IdtIn mem idt base table) (adds : List (Byte × IdtEntry)) :
    IdtIn (adds.foldl (fun mem a => idtEntryAdd mem idt a.1 a.2) mem) idt base
        (adds.foldl (fun table a => Function.update table a.1 a.2) table) ∧
      Set.EqOn (adds.foldl (fun mem a => idtEntryAdd mem idt a.1 a.2) mem) mem (span base 4096)ᶜ := by
  induction adds generalizing mem table with
  | nil => exact ⟨h, fun _ _ => rfl⟩
  | cons a adds ih =>
      obtain ⟨hin, hsame⟩ := ih (h.add hapart a.1 a.2)
      exact ⟨hin, hsame.trans (h.add_eqOn a.1 a.2)⟩

end Table

/-- What the two calls of `idt_init` rely on: the blocks do not overlap, and the second
    call leaves the first block alone. -/
structure Malloc.Serves (malloc : Malloc) (mem : Memory 64) : Prop where
  apart : ∀ idt base mem1 mem2, malloc 10#64 mem = (idt, mem1) →
    malloc idtLength (store mem1 idt 4095#16) = (base, mem2) →
    Disjoint (span base 4096) (span idt 10) ∧
      Set.EqOn mem2 (store mem1 idt 4095#16) (span idt 10)

section Init

variable {malloc : Malloc} {mem mem1 mem2 : Memory 64} {idt base : Word}
  (hfirst : malloc 10#64 mem = (idt, mem1))
  (hsecond : malloc idtLength (store mem1 idt 4095#16) = (base, mem2))

include hfirst hsecond

theorem idtInit_eq : idtInit malloc mem
    = (idt, fill (store mem2 (idt + 2#64) base) base 4096 0#8) := by
  unfold idtInit
  rw [hfirst]
  dsimp only
  rw [show (idtLength - 1#64).setWidth 16 = 4095#16 from rfl, hsecond]
  dsimp only
  rw [memset_eq, idtBase, load_store_same _ _ _ (by decide) (by decide)]
  rfl

/-- The new table is empty. -/
theorem idtInit_in (hserves : malloc.Serves mem) :
    IdtIn (idtInit malloc mem).2 idt base fun _ => noEntry := by
  obtain ⟨hapart, hkept⟩ := hserves.apart idt base mem1 mem2 hfirst hsecond
  have hbefore : Disjoint (span (idt + 2#64) (64 / 8)) (span idt (16 / 8)) := by
    have h : Disjoint (span (idt + BitVec.ofNat 64 0) (16 / 8)) (span (idt + 2#64) (64 / 8)) :=
      span_add_disjoint (by decide) (by decide)
    rw [BitVec.add_zero] at h
    exact h.symm
  rw [idtInit_eq hfirst hsecond]
  refine ⟨?_, ?_, fun i => ?_⟩
  · calc load 16 (fill (store mem2 (idt + 2#64) base) base 4096 0#8) idt
      _ = load 16 (store mem2 (idt + 2#64) base) idt :=
          load_fill_of_disjoint _ _ _ _ (by decide) (by decide) (hapart.mono_right (limit_in_descriptor idt))
      _ = load 16 mem2 idt := load_store_of_disjoint _ _ _ (by decide) (by decide) hbefore
      _ = load 16 (store mem1 idt 4095#16) idt :=
          load_congr (by decide) (by decide) (hkept.mono (limit_in_descriptor idt))
      _ = 4095#16 := load_store_same _ _ _ (by decide) (by decide)
  · calc load 64 (fill (store mem2 (idt + 2#64) base) base 4096 0#8) (idt + 2#64)
      _ = load 64 (store mem2 (idt + 2#64) base) (idt + 2#64) :=
          load_fill_of_disjoint _ _ _ _ (by decide) (by decide) (hapart.mono_right (base_in_descriptor idt))
      _ = base := load_store_same _ _ _ (by decide) (by decide)
  · rw [← ofPacked_zero]
    exact congrArg IdtEntry.ofPacked
      (load_fill_zero _ _ _ (by decide) (by decide) (idtSlot_in_table base i))

end Init

/-- The table after these calls of `idt_entry_add`. -/
def lastAdded (adds : List (Byte × IdtEntry)) : Byte → IdtEntry :=
  adds.foldl (fun table a => Function.update table a.1 a.2) fun _ => noEntry

/-- The memory after them. -/
def idtAfter (mem : Memory 64) (idt : Word) (adds : List (Byte × IdtEntry)) : Memory 64 :=
  adds.foldl (fun mem a => idtEntryAdd mem idt a.1 a.2) mem

/-- What `dump_idt` prints for an entry. -/
def dumpedEntry (table : Byte → IdtEntry) (i : Nat) : List Message :=
  [(format "IDT %d: ", [.int (BitVec.ofNat 32 i)]), dumpIdtEntry (table (BitVec.ofNat 8 i))]

/-- The loop of `dump_idt` reads the entries in their order, and ends. -/
theorem dumpIdt_loop {mem : Memory 64} {base : Word} {table : Byte → IdtEntry}
    (hentry : ∀ i : Byte, idtEntryAt mem base i.toNat = table i) {left counter fuel : Nat}
    (hcount : counter + left = 256) (hfuel : left < fuel) :
    dumpIdt.loop mem base 256 fuel (BitVec.ofNat 16 counter)
      = .ok ((List.range' counter left).flatMap (dumpedEntry table)) := by
  induction left generalizing counter fuel with
  | zero =>
      obtain ⟨fuel, rfl⟩ : ∃ n, fuel = n + 1 := ⟨fuel - 1, by omega⟩
      have hcounter : (BitVec.ofNat 16 counter).toNat = counter := by
        rw [BitVec.toNat_ofNat, Nat.mod_eq_of_lt (by omega)]
      rw [dumpIdt.loop, if_neg (by omega)]
      rfl
  | succ left ih =>
      obtain ⟨fuel, rfl⟩ : ∃ n, fuel = n + 1 := ⟨fuel - 1, by omega⟩
      have hcounter : (BitVec.ofNat 16 counter).toNat = counter := by
        rw [BitVec.toNat_ofNat, Nat.mod_eq_of_lt (by omega)]
      have hindex : (BitVec.ofNat 8 counter : Byte).toNat = counter := by
        rw [BitVec.toNat_ofNat, Nat.mod_eq_of_lt (by omega)]
      have hnumber : (BitVec.ofNat 16 counter).setWidth 32 = BitVec.ofNat 32 counter := by
        apply BitVec.eq_of_toNat_eq
        rw [BitVec.toNat_setWidth, hcounter, BitVec.toNat_ofNat]
      have hread := hentry (BitVec.ofNat 8 counter)
      rw [hindex] at hread
      rw [dumpIdt.loop, if_pos (by omega), ← BitVec.ofNat_add, ih (by omega) (by omega), hcounter,
        hread, hnumber]
      rfl

/-- **The IDT holds what was added last, and its dump shows it.**  Let `idt_init` run with
    any `malloc` that serves its two calls, and `idt_entry_add` any number of times after
    it.  Then each of the 256 vectors has the entry that was added last for it, or a cleared
    one; the limit covers the 256 entries; apart from the descriptor and the table no byte
    has changed since the second `malloc`; and `dump_idt` ends, printing a heading and then
    the entries of the vectors in their order. -/
theorem idt_holds_last_added {malloc : Malloc} {mem mem1 mem2 : Memory 64} {idt base : Word}
    (hserves : malloc.Serves mem) (hfirst : malloc 10#64 mem = (idt, mem1))
    (hsecond : malloc idtLength (store mem1 idt 4095#16) = (base, mem2))
    (adds : List (Byte × IdtEntry)) {fuel : Nat} (hfuel : 256 < fuel) :
    (idtInit malloc mem).1 = idt ∧
    IdtIn (idtAfter (idtInit malloc mem).2 idt adds) idt base (lastAdded adds) ∧
    Set.EqOn (idtAfter (idtInit malloc mem).2 idt adds) mem2 (span idt 10 ∪ span base 4096)ᶜ ∧
    dumpIdt fuel (idtAfter (idtInit malloc mem).2 idt adds) 4095#16 base
      = .ok ((format "IDTR Base: 0x%x, Limit: 0x%x\n", [.uint64 base, .int 4095#32])
          :: (List.range 256).flatMap (dumpedEntry (lastAdded adds))) := by
  obtain ⟨hapart, _⟩ := hserves.apart idt base mem1 mem2 hfirst hsecond
  obtain ⟨hin, hsame⟩ := (idtInit_in hfirst hsecond hserves).addAll hapart adds
  have hinit := idtInit_eq hfirst hsecond
  refine ⟨congrArg Prod.fst hinit, hin, fun x hx => ?_, ?_⟩
  · rw [Set.mem_compl_iff, Set.mem_union, not_or] at hx
    have hdesc : x ∉ span (idt + 2#64) (64 / 8) := fun h => hx.1 (base_in_descriptor idt h)
    calc idtAfter (idtInit malloc mem).2 idt adds x
      _ = (idtInit malloc mem).2 x := hsame hx.2
      _ = store mem2 (idt + 2#64) base x := by
          rw [hinit]
          exact fill_eqOn _ _ _ _ hx.2
      _ = mem2 x := store_eqOn _ _ _ hdesc
  · have hloop : dumpIdt.loop (idtAfter (idtInit malloc mem).2 idt adds) base 256 fuel
          (BitVec.ofNat 16 0)
        = .ok ((List.range' 0 256).flatMap (dumpedEntry (lastAdded adds))) :=
      dumpIdt_loop hin.entry_eq (by omega) hfuel
    unfold dumpIdt
    rw [show (4095#16).toNat = 4095 from rfl, show (4095 + 1) / 16 = 256 from rfl]
    dsimp only
    rw [show (0#16) = BitVec.ofNat 16 0 from rfl]
    rw [hloop, List.range_eq_range']
    rfl

/-- Two fixed blocks. -/
def twoBlocks : Malloc := fun n mem => (if n = 10#64 then 0x1000#64 else 0x2000#64, mem)

theorem twoBlocks_serves (mem : Memory 64) : twoBlocks.Serves mem where
  apart idt base mem1 mem2 hfirst hsecond := by
    cases hfirst
    cases hsecond
    exact ⟨span_disjoint (by decide) (by decide) (by decide), fun _ _ => rfl⟩

/-- A handler for vector 3. -/
theorem idt_holds_last_added_breakpoint :
    idtEntryAt (idtAfter (idtInit twoBlocks fun _ => 0#8).2 0x1000#64
        [(3#8, idtEntryCreate 0x200000#64 8#16 0#8 0x8E#8 0#32)]) 0x2000#64 3
      = idtEntryCreate 0x200000#64 8#16 0#8 0x8E#8 0#32 := by
  obtain ⟨_, hin, _⟩ := idt_holds_last_added (twoBlocks_serves fun _ => 0#8) rfl rfl
    [(3#8, idtEntryCreate 0x200000#64 8#16 0#8 0x8E#8 0#32)] (Nat.lt_succ_self 256)
  exact hin.entry_eq 3#8

end EchOS
