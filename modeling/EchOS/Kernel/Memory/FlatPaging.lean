/-
  EchOS.Kernel.Memory.FlatPaging

  `kernel/memory/paging.c` and `heap.c` on memory as it is: a byte at every
  address, where a table is the 512 words of 8 bytes in its frame.

  `ByteMachine.Shows` relates such a machine to one whose memory is a map of
  tables.  As long as the pmm hands out whole frames, a function here and the one
  of the same name there have the same result and leave related machines, so what
  is known of the tables holds of the bytes.
-/
import EchOS.CLib.Memory
import EchOS.Kernel.Memory.PageOffsets
import EchOS.Lib.ResultRel

namespace EchOS

open FlatMemory

/-- What the paging functions work on, with memory as bytes.  The allocator's records
    are not in `bytes`; they are the `pmm` beside it. -/
structure ByteMachine where
  pmm : Pmm
  bytes : Memory 64

/-- `&table[index]` -/
def slotAddress (table : Word) (index : Index) : Word := table + BitVec.ofNat 64 (8 * index.toNat)

/-- `table[index]` -/
def ByteMachine.entry (s : ByteMachine) (table : Word) (index : Index) : Word :=
  load 64 s.bytes (slotAddress table index)

/-- `table[index] = entry` -/
def ByteMachine.store (s : ByteMachine) (table : Word) (index : Index) (entry : Word) :
    ByteMachine :=
  { s with bytes := FlatMemory.store s.bytes (slotAddress table index) entry }

namespace Flat

/-- `alloc_table` -/
def allocTable (s : ByteMachine) : Except Abort (Word × ByteMachine) := do
  let (frame, pmm) ← frameAllocate s.pmm
  if frame = noFrame then return (null, { s with pmm })
  else return (frame, { pmm, bytes := memset s.bytes frame 0#32 frameSize })

/-- `next_table` -/
def nextTable (s : ByteMachine) (table : Word) (index : Index) (flags : Word) :
    Except Abort (Word × ByteMachine) :=
  if s.entry table index &&& presentBit = 0 then do
    let (next, s) ← allocTable s
    -- no frame left
    if next = null then return (null, s)
    else
      return (next, s.store table index
        (next ||| presentBit ||| readWriteBit ||| (flags &&& userSupervisorBit)))
  -- a 2 MiB page, which has no table below it
  else if s.entry table index &&& pageSizeBit ≠ 0 then .ok (null, s)
  else
    let s := s.store table index (s.entry table index ||| (flags &&& userSupervisorBit))
    .ok (s.entry table index &&& physAddrMask, s)

/-- `init_pml4` -/
def initPml4 (s : ByteMachine) : Except Abort (Word × ByteMachine) := allocTable s

/-- `map_page` -/
def mapPage (s : ByteMachine) (pml4 vaddr paddr flags : Word) :
    Except Abort (Int × ByteMachine) := do
  let (pdp, s) ← nextTable s pml4 (index4 vaddr) flags
  if pdp = null then return (-1, s)
  else do
    let (pd, s) ← nextTable s pdp (index3 vaddr) flags
    if pd = null then return (-1, s)
    -- already covered by a 2 MiB page: fine if it maps to the same frame
    else if s.entry pd (index2 vaddr) &&& presentBit ≠ 0 ∧
        s.entry pd (index2 vaddr) &&& pageSizeBit ≠ 0 then
      let mapped := largeTarget (s.entry pd (index2 vaddr)) vaddr
      return (if mapped = paddr &&& physAddrMask then 0 else -1, s)
    else do
      let (pt, s) ← nextTable s pd (index2 vaddr) flags
      if pt = null then return (-1, s)
      else return (0, s.store pt (index1 vaddr) (initPtEntry paddr (flags ||| presentBit)))

/-- `map_large_page` -/
def mapLargePage (s : ByteMachine) (pml4 vaddr paddr flags : Word) :
    Except Abort (Int × ByteMachine) := do
  let (pdp, s) ← nextTable s pml4 (index4 vaddr) flags
  if pdp = null then return (-1, s)
  else do
    let (pd, s) ← nextTable s pdp (index3 vaddr) flags
    if pd = null then return (-1, s)
    -- don't replace a page table: its 4 KiB mappings may differ
    else if s.entry pd (index2 vaddr) &&& presentBit ≠ 0 ∧
        s.entry pd (index2 vaddr) &&& pageSizeBit = 0 then return (-1, s)
    else
      return (0, s.store pd (index2 vaddr)
        ((paddr &&& physAddrMask) ||| flags ||| presentBit ||| pageSizeBit))

/-- The condition of `map_range`'s 2 MiB step. -/
def mapRange.tryLarge (s : ByteMachine) (pml4 vaddr paddr «end» flags : Word) :
    Except Abort (Int × ByteMachine) :=
  if LargeFits vaddr paddr «end» then mapLargePage s pml4 vaddr paddr flags else .ok (-1, s)

/-- The loop of `map_range`. -/
def mapRange.loop (pml4 «end» flags : Word) :
    (fuel : Nat) → ByteMachine → (vaddr paddr : Word) → Except Abort (Int × ByteMachine)
  | 0, _, _, _ => .error .outOfFuel
  | fuel + 1, s, vaddr, paddr =>
      if vaddr < «end» then do
        let (large, s) ← mapRange.tryLarge s pml4 vaddr paddr «end» flags
        if large = 0 then
          mapRange.loop pml4 «end» flags fuel s (vaddr + largePageSize) (paddr + largePageSize)
        else do
          let (small, s) ← mapPage s pml4 vaddr paddr flags
          if small ≠ 0 then return (-1, s)
          else mapRange.loop pml4 «end» flags fuel s (vaddr + frameSize) (paddr + frameSize)
      else .ok (0, s)

/-- `map_range` -/
def mapRange (fuel : Nat) (s : ByteMachine) (pml4 vaddr paddr length flags : Word) :
    Except Abort (Int × ByteMachine) :=
  mapRange.loop pml4 (vaddr + length) flags fuel s (pageBase vaddr) (pageBase paddr)

/-- `get_heap` -/
def getHeap (fuel : Nat) (s : ByteMachine) (pml4 vaddr length : Word) :
    Except Abort (Int × ByteMachine) := do
  let pages := heapPages length
  let length := pages * frameSize
  let (paddr, pmm) ← framesAllocate s.pmm pages
  if paddr = noFrame then return (-1, { s with pmm })
  else do
    let (mapped, s) ← mapRange fuel { s with pmm } pml4 vaddr paddr length readWriteBit
    if mapped ≠ 0 then do
      let pmm ← getHeap.release paddr pages.toNat 0 s.pmm
      return (-1, { s with pmm })
    else return (0, s)

end Flat

/-! ## Entries as words in memory -/

theorem slotAddress_toNat {table : Word} (hal : 4096 ∣ table.toNat) (index : Index) :
    (slotAddress table index).toNat = table.toNat + 8 * index.toNat := by
  have hi := index.isLt
  have ht := table.isLt
  rw [slotAddress, toNat_add_of_lt, toNat_ofNat_of_lt (by omega)]
  rw [toNat_ofNat_of_lt (by omega)]
  omega

/-- Two entries lie apart. -/
theorem slot_disjoint {t t' : Word} (ht : 4096 ∣ t.toNat) (ht' : 4096 ∣ t'.toNat) {i i' : Index}
    (hne : ¬ (t' = t ∧ i' = i)) :
    Disjoint (span (slotAddress t i) (64 / 8)) (span (slotAddress t' i') (64 / 8)) := by
  have hi := i.isLt
  have hi' := i'.isLt
  have hlt := t.isLt
  have hlt' := t'.isLt
  have hne' : ¬ (t'.toNat = t.toNat ∧ i'.toNat = i.toNat) := fun h =>
    hne ⟨BitVec.eq_of_toNat_eq h.1, BitVec.eq_of_toNat_eq h.2⟩
  apply span_disjoint
  · rw [slotAddress_toNat ht]
    omega
  · rw [slotAddress_toNat ht']
    omega
  · rw [slotAddress_toNat ht, slotAddress_toNat ht']
    omega

/-- An entry lies in the frame of its table. -/
theorem slot_subset {t : Word} (ht : 4096 ∣ t.toNat) (i : Index) :
    span (slotAddress t i) (64 / 8) ⊆ span t 4096 := by
  have hi := i.isLt
  have hlt := t.isLt
  apply span_subset (by omega)
  rw [slotAddress_toNat ht]
  omega

/-- Frames lie apart. -/
theorem frame_disjoint {t t' : Word} (ht : 4096 ∣ t.toNat) (ht' : 4096 ∣ t'.toNat) (hne : t' ≠ t) :
    Disjoint (span t 4096) (span t' 4096) := by
  have hlt := t.isLt
  have hlt' := t'.isLt
  have hne' : t'.toNat ≠ t.toNat := fun h => hne (BitVec.eq_of_toNat_eq h)
  exact span_disjoint (by omega) (by omega) (by omega)

/-- A byte lies in the frame of its page. -/
theorem mem_frame_of_page (x : Word) : x ∈ span (pageBase x) 4096 := by
  have hx := x.isLt
  rw [mem_span_iff (by rw [pageBase_toNat]; omega), pageBase_toNat]
  omega

theorem pageBase_of_mem_frame {t x : Word} (ht : 4096 ∣ t.toNat) (hx : x ∈ span t 4096) :
    pageBase x = t := by
  have hlt := t.isLt
  rw [mem_span_iff (by omega)] at hx
  apply BitVec.eq_of_toNat_eq
  rw [pageBase_toNat]
  omega

/-- Every byte of a frame belongs to an entry, so the entries determine the frame. -/
theorem eqOn_frame_of_entries {b b' : ByteMachine} {t : Word} (ht : 4096 ∣ t.toNat)
    (h : ∀ i, b'.entry t i = b.entry t i) : Set.EqOn b'.bytes b.bytes (span t 4096) := by
  intro x hx
  have hlt := t.isLt
  rw [mem_span_iff (by omega)] at hx
  let i : Index := BitVec.ofNat 9 ((x.toNat - t.toNat) / 8)
  have hi : i.toNat = (x.toNat - t.toNat) / 8 := by
    rw [BitVec.toNat_ofNat, Nat.mod_eq_of_lt (by omega)]
  have hslot := slotAddress_toNat ht i
  apply eqOn_of_load_eq (h i)
  rw [mem_span_iff (by rw [hslot]; omega), hslot]
  omega

/-! ## The same machine, with tables -/

/-- `s` is the machine `b` as far as the tables go: the entry of a table is the word in
    its frame, and the pmm, which is in order, is the same. -/
structure ByteMachine.Shows (b : ByteMachine) (s : Machine) : Prop where
  pmm_eq : b.pmm = s.pmm
  inv : s.pmm.Inv
  aligned : s.pmm.Aligned
  entry_eq : ∀ table index, 4096 ∣ table.toNat → s.mem table index = b.entry table index

/-- The table at every address. -/
def ByteMachine.tables (b : ByteMachine) : Machine := ⟨b.pmm, b.entry⟩

theorem ByteMachine.tables_shows {b : ByteMachine} (hinv : b.pmm.Inv) (hal : b.pmm.Aligned) :
    b.Shows b.tables :=
  ⟨rfl, hinv, hal, fun _ _ _ => rfl⟩

namespace ByteMachine.Shows

variable {b : ByteMachine} {s : Machine} (h : b.Shows s)

include h

theorem store {table : Word} (hal : 4096 ∣ table.toNat) (index : Index) (entry : Word) :
    (b.store table index entry).Shows (s.store table index entry) := by
  refine ⟨h.pmm_eq, h.inv, h.aligned, fun t i ht => ?_⟩
  show (if t = table ∧ i = index then entry else s.mem t i) = load 64 _ (slotAddress t i)
  by_cases heq : t = table ∧ i = index
  · obtain ⟨rfl, rfl⟩ := heq
    rw [if_pos ⟨rfl, rfl⟩]
    exact (load_store_same _ _ _ (by decide) (by decide)).symm
  · rw [if_neg heq, h.entry_eq t i ht]
    exact (load_store_of_disjoint _ _ _ (by decide) (by decide) (slot_disjoint hal ht heq)).symm

/-- The pmm after a call. -/
theorem withPmm {pmm : Pmm} (hinv : pmm.Inv) (hlay : pmm.layout = s.pmm.layout) :
    ByteMachine.Shows { b with pmm } { s with pmm } := by
  refine ⟨rfl, hinv, ?_, h.entry_eq⟩
  unfold Pmm.Aligned
  rw [hlay]
  exact h.aligned

/-- A frame is cleared. -/
theorem clear {frame : Word} (hal : 4096 ∣ frame.toNat) :
    ByteMachine.Shows { b with bytes := Flat.memset b.bytes frame 0#32 frameSize }
      { s with mem := PointerTree.fill s.mem frame 0#64 } := by
  refine ⟨h.pmm_eq, h.inv, h.aligned, fun t i ht => ?_⟩
  show (if t = frame then 0#64 else s.mem t i) = load 64 _ (slotAddress t i)
  rw [memset_eq]
  by_cases heq : t = frame
  · subst heq
    rw [if_pos rfl]
    exact (load_fill_zero _ _ _ (by decide) (by decide) (slot_subset ht i)).symm
  · rw [if_neg heq, h.entry_eq t i ht]
    refine (load_fill_of_disjoint _ _ _ _ (by decide) (by decide) ?_).symm
    exact (frame_disjoint hal ht heq).mono_right (slot_subset ht i)

end ByteMachine.Shows

/-- The same table, in a frame of its own. -/
def SameTable (x : Word × ByteMachine) (y : Word × Machine) : Prop :=
  x.1 = y.1 ∧ 4096 ∣ y.1.toNat ∧ x.2.Shows y.2

/-- The same result. -/
def SameResult (x : Int × ByteMachine) (y : Int × Machine) : Prop := x.1 = y.1 ∧ x.2.Shows y.2

theorem null_aligned : 4096 ∣ null.toNat := ⟨0, rfl⟩

theorem physAddrMask_aligned (e : Word) : 4096 ∣ (e &&& physAddrMask).toNat := by
  rw [and_physAddrMask_toNat]
  exact Dvd.intro_left _ rfl

section Functions

variable {b : ByteMachine} {s : Machine} (h : b.Shows s)

include h

theorem allocTable_shows : ResultRel SameTable (Flat.allocTable b) (allocTable s) := by
  unfold Flat.allocTable allocTable
  rw [h.pmm_eq]
  rcases Pmm.frameAllocate_count h.inv with ⟨hcall, _⟩ | ⟨frame, pmm, hcall, hfit, hne, _⟩
  · rw [hcall]
    exact .ok ⟨rfl, null_aligned, h.withPmm h.inv rfl⟩
  · have hfree : s.pmm.Free frame := by
      have hrun := hfit.free_run Nat.one_pos
      rwa [Pmm.Takes.runFrame_one Nat.one_pos] at hrun
    have hal := Pmm.free_aligned h.aligned hfree
    rw [hcall]
    simp only [bind, Except.bind, if_neg hne]
    exact .ok ⟨rfl, hal, (h.withPmm (hfit.inv h.inv) hfit.layout_eq).clear hal⟩

theorem nextTable_shows {table : Word} (hal : 4096 ∣ table.toNat) (index : Index) (flags : Word) :
    ResultRel SameTable (Flat.nextTable b table index flags) (nextTable s table index flags) := by
  unfold Flat.nextTable nextTable
  rw [h.entry_eq table index hal]
  refine .ite Iff.rfl (fun _ => ?_) fun _ => .ite Iff.rfl (fun _ => ?_) fun _ => ?_
  · refine (allocTable_shows h).bind ?_
    rintro ⟨next, b1⟩ ⟨next', s1⟩ ⟨rfl, hnext, h1⟩
    refine .ite Iff.rfl (fun _ => ?_) fun _ => ?_
    · exact .ok ⟨rfl, null_aligned, h1⟩
    · exact .ok ⟨rfl, hnext, h1.store hal index _⟩
  · exact .ok ⟨rfl, null_aligned, h⟩
  · have h1 := h.store hal index (b.entry table index ||| (flags &&& userSupervisorBit))
    have hnext := congrArg (· &&& physAddrMask) (h1.entry_eq table index hal).symm
    exact .ok ⟨hnext, physAddrMask_aligned _, h1⟩

variable {root : Word} (hroot : 4096 ∣ root.toNat) (v p flags : Word)

include hroot

theorem mapPage_shows :
    ResultRel SameResult (Flat.mapPage b root v p flags) (mapPage s root v p flags) := by
  unfold Flat.mapPage mapPage
  refine (nextTable_shows h hroot _ _).bind ?_
  rintro ⟨pdp, b1⟩ ⟨_, s1⟩ ⟨rfl, hpdp, h1⟩
  refine .ite Iff.rfl (fun _ => .ok ⟨rfl, h1⟩) fun _ => ?_
  refine (nextTable_shows h1 hpdp _ _).bind ?_
  rintro ⟨pd, b2⟩ ⟨_, s2⟩ ⟨rfl, hpd, h2⟩
  refine .ite Iff.rfl (fun _ => .ok ⟨rfl, h2⟩) fun _ => ?_
  have hentry := h2.entry_eq pd (index2 v) hpd
  refine .ite (by rw [hentry]) (fun _ => .ok ⟨?_, h2⟩) fun _ => ?_
  · exact congrArg (fun e => if largeTarget e v = p &&& physAddrMask then (0 : Int) else -1) hentry.symm
  refine (nextTable_shows h2 hpd _ _).bind ?_
  rintro ⟨pt, b3⟩ ⟨_, s3⟩ ⟨rfl, hpt, h3⟩
  exact .ite Iff.rfl (fun _ => .ok ⟨rfl, h3⟩) fun _ => .ok ⟨rfl, h3.store hpt _ _⟩

theorem mapLargePage_shows :
    ResultRel SameResult (Flat.mapLargePage b root v p flags) (mapLargePage s root v p flags) := by
  unfold Flat.mapLargePage mapLargePage
  refine (nextTable_shows h hroot _ _).bind ?_
  rintro ⟨pdp, b1⟩ ⟨_, s1⟩ ⟨rfl, hpdp, h1⟩
  refine .ite Iff.rfl (fun _ => .ok ⟨rfl, h1⟩) fun _ => ?_
  refine (nextTable_shows h1 hpdp _ _).bind ?_
  rintro ⟨pd, b2⟩ ⟨_, s2⟩ ⟨rfl, hpd, h2⟩
  refine .ite Iff.rfl (fun _ => .ok ⟨rfl, h2⟩) fun _ => ?_
  have hentry := h2.entry_eq pd (index2 v) hpd
  exact .ite (by rw [hentry]) (fun _ => .ok ⟨rfl, h2⟩) fun _ => .ok ⟨rfl, h2.store hpd _ _⟩

theorem tryLarge_shows (stop : Word) :
    ResultRel SameResult (Flat.mapRange.tryLarge b root v p stop flags)
      (mapRange.tryLarge s root v p stop flags) := by
  unfold Flat.mapRange.tryLarge mapRange.tryLarge
  exact .ite Iff.rfl (fun _ => mapLargePage_shows h hroot v p flags) fun _ => .ok ⟨rfl, h⟩

omit h in
theorem mapRange_loop_shows (stop : Word) (fuel : Nat) {b : ByteMachine} {s : Machine}
    (h : b.Shows s) (v p : Word) :
    ResultRel SameResult (Flat.mapRange.loop root stop flags fuel b v p)
      (mapRange.loop root stop flags fuel s v p) := by
  induction fuel generalizing b s v p with
  | zero => exact .error _
  | succ fuel ih =>
      unfold Flat.mapRange.loop mapRange.loop
      refine .ite Iff.rfl (fun _ => ?_) fun _ => .ok ⟨rfl, h⟩
      refine (tryLarge_shows h hroot v p flags stop).bind ?_
      rintro ⟨large, b1⟩ ⟨_, s1⟩ ⟨rfl, h1⟩
      refine .ite Iff.rfl (fun _ => ih h1 _ _) fun _ => ?_
      refine (mapPage_shows h1 hroot v p flags).bind ?_
      rintro ⟨small, b2⟩ ⟨_, s2⟩ ⟨rfl, h2⟩
      exact .ite Iff.rfl (fun _ => .ok ⟨rfl, h2⟩) fun _ => ih h2 _ _

theorem mapRange_shows (fuel : Nat) (length : Word) :
    ResultRel SameResult (Flat.mapRange fuel b root v p length flags)
      (mapRange fuel s root v p length flags) :=
  mapRange_loop_shows hroot flags _ fuel h _ _

end Functions

/-! ## `get_heap`, and calls in general -/

/-- The release loop keeps the pmm in order, whatever it frees. -/
theorem release_keeps {a : Word} {left i : Nat} {pm pm' : Pmm} (hinv : pm.Inv)
    (h : getHeap.release a left i pm = .ok pm') : pm'.Inv ∧ pm'.layout = pm.layout := by
  induction left generalizing i pm with
  | zero =>
      cases h
      exact ⟨hinv, rfl⟩
  | succ left ih =>
      obtain ⟨pm1, hcall, hrest⟩ := except_bind_ok h
      have hkeeps : pm1.Inv ∧ pm1.layout = pm.layout := by
        rcases frameFree_cases hinv (a + BitVec.ofNat 64 i * frameSize) with
          ⟨hmiss, _⟩ | ⟨pm2, hfreed, hreleased⟩
        · cases hcall.symm.trans hmiss
          exact ⟨hinv, rfl⟩
        · cases hcall.symm.trans hfreed
          exact ⟨hreleased.inv hinv, hreleased.layout_eq⟩
      obtain ⟨hinv', hlay⟩ := ih hkeeps.1 hrest
      exact ⟨hinv', hlay.trans hkeeps.2⟩

theorem framesAllocate_keeps {pm pm' : Pmm} {count a : Word} (hinv : pm.Inv)
    (h : framesAllocate pm count = .ok (a, pm')) : pm'.Inv ∧ pm'.layout = pm.layout := by
  have hrun : (PmmCall.framesAllocate count).run pm = .ok (some a, pm') := by
    rw [PmmCall.run, h]
    rfl
  obtain ⟨r, pm1, hcall, hkeeps⟩ := (PmmCall.framesAllocate count).run_inv hinv
  cases hrun.symm.trans hcall
  exact hkeeps

section Calls

variable {b : ByteMachine} {s : Machine} (h : b.Shows s) {root : Word} (hroot : 4096 ∣ root.toNat)

include h

theorem initPml4_shows : ResultRel SameTable (Flat.initPml4 b) (initPml4 s) := allocTable_shows h

include hroot

theorem getHeap_shows (fuel : Nat) (v length : Word) :
    ResultRel SameResult (Flat.getHeap fuel b root v length) (getHeap fuel s root v length) := by
  unfold Flat.getHeap getHeap
  rw [h.pmm_eq]
  refine (ResultRel.same fun x hx => framesAllocate_keeps h.inv hx).bind ?_
  rintro ⟨a, pmm⟩ ⟨_, _⟩ ⟨⟨⟩, hinv, hlay⟩
  have h1 := h.withPmm hinv hlay
  refine .ite Iff.rfl (fun _ => .ok ⟨rfl, h1⟩) fun _ => ?_
  refine (mapRange_shows h1 hroot v a readWriteBit fuel _).bind ?_
  rintro ⟨mapped, b2⟩ ⟨_, s2⟩ ⟨rfl, h2⟩
  refine .ite Iff.rfl (fun _ => ?_) fun _ => .ok ⟨rfl, h2⟩
  -- what was reserved goes back
  rw [h2.pmm_eq]
  refine (ResultRel.same fun x hx => release_keeps h2.inv hx).bind ?_
  rintro pm3 _ ⟨rfl, hinv3, hlay3⟩
  exact .ok ⟨rfl, h2.withPmm hinv3 hlay3⟩

end Calls

/-- The call on memory as bytes. -/
def TableCall.runFlat (fuel : Nat) (s : ByteMachine) (pml4 : Word) :
    TableCall → Except Abort (Int × ByteMachine)
  | .mapPage vaddr paddr flags => Flat.mapPage s pml4 vaddr paddr flags
  | .mapLargePage vaddr paddr flags => Flat.mapLargePage s pml4 vaddr paddr flags
  | .mapRange vaddr paddr length flags => Flat.mapRange fuel s pml4 vaddr paddr length flags
  | .getHeap vaddr length => Flat.getHeap fuel s pml4 vaddr length

theorem TableCall.runFlat_shows (call : TableCall) {fuel : Nat} {b : ByteMachine} {s : Machine}
    (h : b.Shows s) {root : Word} (hroot : 4096 ∣ root.toNat) :
    ResultRel SameResult (call.runFlat fuel b root) (call.run fuel s root) := by
  cases call with
  | mapPage vaddr paddr flags => exact mapPage_shows h hroot vaddr paddr flags
  | mapLargePage vaddr paddr flags => exact mapLargePage_shows h hroot vaddr paddr flags
  | mapRange vaddr paddr length flags => exact mapRange_shows h hroot vaddr paddr flags fuel length
  | getHeap vaddr length => exact getHeap_shows h hroot fuel vaddr length

section Results

variable {call : TableCall} {fuel : Nat} {b b' : ByteMachine} {s s' : Machine} {root : Word} {r : Int}
  (h : b.Shows s) (hroot : 4096 ∣ root.toNat)

include h hroot

/-- What a call does on the bytes it does on the tables. -/
theorem TableCall.run_of_flat (run : call.runFlat fuel b root = .ok (r, b')) :
    ∃ s', call.run fuel s root = .ok (r, s') ∧ b'.Shows s' := by
  have hrel : ResultRel SameResult (call.runFlat fuel b root) (call.run fuel s root) :=
    call.runFlat_shows h hroot
  rw [run] at hrel
  obtain ⟨⟨r', s'⟩, hcall, rfl, hshows⟩ := hrel.of_ok_left
  exact ⟨s', hcall, hshows⟩

/-- What a call does on the tables it does on the bytes. -/
theorem TableCall.flat_of_run (run : call.run fuel s root = .ok (r, s')) :
    ∃ b', call.runFlat fuel b root = .ok (r, b') ∧ b'.Shows s' := by
  have hrel : ResultRel SameResult (call.runFlat fuel b root) (call.run fuel s root) :=
    call.runFlat_shows h hroot
  rw [run] at hrel
  obtain ⟨⟨r', b'⟩, hflat, hr, hshows⟩ := hrel.of_ok_right
  cases hr
  exact ⟨b', hflat, hshows⟩

end Results

end EchOS
