/-
  EchOS.Kernel.Memory.PageOffsets

  `map_page` and the offsets of its two addresses in their pages.

  The indices and the new entry drop both offsets.  The test on a 2 MiB page that
  covers the address does not: it compares the byte that `vaddr` maps to with the
  first byte of `paddr`'s frame.  `coveringEntry` is that 2 MiB page, read off the
  tables before the call.
-/
import EchOS.Kernel.Memory.PageOverlap
import EchOS.Kernel.Memory.TableFrames

namespace EchOS

/-! ## Rounding -/

section Rounding

variable (v : Word)

theorem index1_pageBase : index1 (pageBase v) = index1 v := by
  rw [index1_eq_iff, pageBase_toNat]
  omega

theorem index2_pageBase : index2 (pageBase v) = index2 v := by
  rw [index2_eq_iff, pageBase_toNat]
  omega

theorem index3_pageBase : index3 (pageBase v) = index3 v := by
  rw [index3_eq_iff, pageBase_toNat]
  omega

theorem index4_pageBase : index4 (pageBase v) = index4 v := by
  rw [index4_eq_iff, pageBase_toNat]
  omega

theorem pageBase_and_physAddrMask : pageBase v &&& physAddrMask = v &&& physAddrMask := by
  apply BitVec.eq_of_toNat_eq
  rw [and_physAddrMask_toNat, and_physAddrMask_toNat, pageBase_toNat]
  omega

theorem initPtEntry_pageBase (flags : Word) : initPtEntry (pageBase v) flags = initPtEntry v flags := by
  rw [initPtEntry, initPtEntry, pageBase_and_physAddrMask]

/-- Inside a 2 MiB page the offset moves the target by itself. -/
theorem largeTarget_toNat (e : Word) :
    (largeTarget e v).toNat = (largeTarget e (pageBase v)).toNat + v.toNat % 4096 := by
  have hv := and_largeOffset_toNat v
  have hbase := and_largeOffset_toNat (pageBase v)
  have hframe := and_not_largeOffset_toNat (e &&& physAddrMask)
  have hround := pageBase_toNat v
  have hlt := (e &&& physAddrMask).isLt
  unfold largeTarget
  rw [toNat_add_of_lt (by omega), toNat_add_of_lt (by omega)]
  omega

theorem largeTarget_pageBase_aligned (e : Word) : 4096 ∣ (largeTarget e (pageBase v)).toNat := by
  have hbase := and_largeOffset_toNat (pageBase v)
  have hframe := and_not_largeOffset_toNat (e &&& physAddrMask)
  have hround := pageBase_toNat v
  have hlt := (e &&& physAddrMask).isLt
  unfold largeTarget
  rw [toNat_add_of_lt (by omega)]
  omega

/-- Only the address field of a 2 MiB entry counts. -/
theorem largeTarget_congr {e e' : Word} (h : e &&& physAddrMask = e' &&& physAddrMask) :
    largeTarget e v = largeTarget e' v := by
  rw [largeTarget, largeTarget, h]

end Rounding

/-! ## The 2 MiB page over an address -/

/-- The table an entry of the two upper levels leads to. -/
def nextOf (entry : Word) : Option Word :=
  if entry &&& presentBit ≠ 0 ∧ entry &&& pageSizeBit = 0 ∧ entry &&& physAddrMask ≠ null then
    some (entry &&& physAddrMask)
  else none

/-- An entry that is a 2 MiB page. -/
def IsLarge (entry : Word) : Prop := entry &&& presentBit ≠ 0 ∧ entry &&& pageSizeBit ≠ 0

instance (entry : Word) : Decidable (IsLarge entry) := inferInstanceAs (Decidable (_ ∧ _))

/-- The entry of the 2 MiB page that covers `vaddr`. -/
def coveringEntry (mem : Mem) (pml4 vaddr : Word) : Option Word := do
  let pdp ← nextOf (mem pml4 (index4 vaddr))
  let pd ← nextOf (mem pdp (index3 vaddr))
  if IsLarge (mem pd (index2 vaddr)) then some (mem pd (index2 vaddr)) else none

theorem nextOf_eq_some {e a : Word} :
    nextOf e = some a ↔ e &&& presentBit ≠ 0 ∧ e &&& pageSizeBit = 0 ∧ a ≠ null ∧
      e &&& physAddrMask = a := by
  unfold nextOf
  split
  · next h =>
      constructor
      · rintro ⟨⟩
        exact ⟨h.1, h.2.1, h.2.2, rfl⟩
      · exact fun h' => congrArg some h'.2.2.2
  · next h =>
      constructor
      · rintro ⟨⟩
      · rintro ⟨h1, h2, h3, rfl⟩
        exact absurd ⟨h1, h2, h3⟩ h

theorem coveringEntry_eq_some {mem : Mem} {root v e : Word} :
    coveringEntry mem root v = some e ↔
      ∃ pdp pd, nextOf (mem root (index4 v)) = some pdp ∧ nextOf (mem pdp (index3 v)) = some pd ∧
        mem pd (index2 v) = e ∧ IsLarge e := by
  unfold coveringEntry
  simp only [Option.bind_eq_bind, Option.bind_eq_some_iff]
  constructor
  · rintro ⟨pdp, h4, pd, h3, hlarge⟩
    split at hlarge
    · next h => exact ⟨pdp, pd, h4, h3, Option.some.inj hlarge, Option.some.inj hlarge ▸ h⟩
    · cases hlarge
  · rintro ⟨pdp, pd, h4, h3, rfl, hlarge⟩
    exact ⟨pdp, h4, pd, h3, if_pos hlarge⟩

/-! ## One level down -/

/-- The entries of `s` and `s'` differ in `USER_SUPERVISOR_BIT` at most. -/
def Machine.Touched (s s' : Machine) : Prop :=
  ∀ table index m, userSupervisorBit &&& m = 0#64 →
    s'.mem table index &&& m = s.mem table index &&& m

section Level

variable {s s' : Machine} {table next flags : Word} {index : Index}

theorem Machine.Touched.trans {s s' s'' : Machine} (h : s.Touched s') (h' : s'.Touched s'') :
    s.Touched s'' :=
  fun table index m hm => (h' table index m hm).trans (h table index m hm)

theorem Machine.touched_store (s : Machine) (table : Word) (index : Index) (flags : Word) :
    s.Touched (s.store table index (s.mem table index ||| (flags &&& userSupervisorBit))) := by
  intro table' index' m hm
  show (if table' = table ∧ index' = index then _ else _) &&& m = _
  split
  · next h =>
      rw [h.1, h.2]
      exact touched_and hm _ _
  · rfl

theorem Machine.Touched.nextOf_eq (h : s.Touched s') :
    nextOf (s'.mem table index) = nextOf (s.mem table index) := by
  unfold nextOf
  rw [h table index presentBit (by decide), h table index pageSizeBit (by decide),
    h table index physAddrMask (by decide)]

theorem Machine.Touched.isLarge_iff (h : s.Touched s') :
    IsLarge (s'.mem table index) ↔ IsLarge (s.mem table index) := by
  unfold IsLarge
  rw [h table index presentBit (by decide), h table index pageSizeBit (by decide)]

/-- `next_table` goes to the table that is there. -/
theorem nextTable_of_nextOf (flags : Word) (h : nextOf (s.mem table index) = some next) :
    ∃ s', nextTable s table index flags = .ok (next, s') ∧ s.Touched s' := by
  obtain ⟨hpresent, hsize, _, haddress⟩ := nextOf_eq_some.mp h
  refine ⟨_, ?_, s.touched_store table index flags⟩
  unfold nextTable
  rw [if_neg hpresent, if_neg (not_not_intro hsize), ← haddress]
  refine congrArg (fun a => Except.ok (a, _)) ?_
  show (if table = table ∧ index = index then _ else _) &&& physAddrMask = _
  rw [if_pos ⟨rfl, rfl⟩, touched_and (by decide)]

theorem Pmm.free_aligned {pm : Pmm} (hal : pm.Aligned) {a : Word} (h : pm.Free a) :
    4096 ∣ a.toNat := by
  obtain ⟨b, hb, _, f, _, rfl, _⟩ := h
  have hb : 4096 ∣ b.address.toNat := hal b.layout (List.mem_map_of_mem hb)
  exact PmBlock.frame_aligned hb f

/-- A table that `next_table` returns was there, or it sits in a frame that was free,
    with no entry of the page size in it. -/
theorem nextTable_next (hinv : s.pmm.Inv) (hal : s.pmm.Aligned)
    (h : nextTable s table index flags = .ok (next, s')) (hne : next ≠ null) :
    (nextOf (s.mem table index) = some next ∧ s.Touched s') ∨
    (s.pmm.Free next ∧ (∀ i, ¬ IsLarge (s'.mem next i)) ∧
      (table ≠ next → ∀ i, s'.mem next i = 0#64)) := by
  unfold nextTable at h
  split at h
  · obtain ⟨⟨frame, s1⟩, halloc, h⟩ := except_bind_ok h
    unfold allocTable at halloc
    obtain ⟨⟨frame', pmm⟩, hcall, halloc⟩ := except_bind_ok halloc
    rcases Pmm.frameAllocate_count hinv with ⟨hfail, _⟩ | ⟨a, pmm', hok, hfit, hsome, _⟩
    · rw [hcall] at hfail
      cases hfail
      simp only [if_pos] at halloc
      cases halloc
      simp only [if_pos] at h
      cases h
      exact absurd rfl hne
    · rw [hcall] at hok
      cases hok
      simp only [if_neg hsome] at halloc
      cases halloc
      by_cases hnull : frame = null
      · simp only [if_pos hnull] at h
        cases h
        exact absurd rfl hne
      simp only [if_neg hnull] at h
      cases h
      have hfree : s.pmm.Free next := by
        have hrun := hfit.free_run Nat.one_pos
        rwa [Pmm.Takes.runFrame_one Nat.one_pos] at hrun
      have hslot : ∀ i, PointerTree.write (PointerTree.fill s.mem next 0#64) table index
          (linkEntry next flags) next i
            = if next = table ∧ i = index then linkEntry next flags else 0#64 := fun i =>
        if_congr Iff.rfl rfl (if_pos rfl)
      refine .inr ⟨hfree, fun i hlarge => ?_, fun htable i => ?_⟩
      · have hlarge : IsLarge (if next = table ∧ i = index then linkEntry next flags else 0#64) :=
          hslot i ▸ hlarge
        split at hlarge
        · exact hlarge.2 (linkEntry_pageSize (Pmm.free_aligned hal hfree) flags)
        · exact hlarge.1 BitVec.zero_and
      · exact (hslot i).trans (if_neg fun h => htable h.1.symm)
  · next hpresent =>
      split at h
      · cases h
        exact absurd rfl hne
      · next hsize =>
          have hstored := s.touched_store table index flags
          cases h
          refine .inl ⟨nextOf_eq_some.mpr ⟨hpresent, not_not.mp hsize, hne, ?_⟩, hstored⟩
          exact (hstored table index physAddrMask (by decide)).symm

/-- `next_table` runs to its end and keeps the allocator's invariant. -/
theorem nextTable_ok (hinv : s.pmm.Inv) (table : Word) (index : Index) (flags : Word) :
    ∃ next s', nextTable s table index flags = .ok (next, s') ∧ s'.pmm.Inv ∧
      s'.pmm.layout = s.pmm.layout := by
  unfold nextTable
  split
  · unfold allocTable
    rcases Pmm.frameAllocate_count hinv with ⟨hfail, _⟩ | ⟨a, pmm, hok, hfit, hsome, _⟩
    · rw [hfail]
      exact ⟨_, _, rfl, hinv, rfl⟩
    · rw [hok]
      simp only [bind, Except.bind, pure, Except.pure, if_neg hsome]
      by_cases hnull : a = null
      · rw [if_pos hnull]
        exact ⟨_, _, rfl, hfit.inv hinv, hfit.layout_eq⟩
      · rw [if_neg hnull]
        exact ⟨_, _, rfl, hfit.inv hinv, hfit.layout_eq⟩
  · split
    · exact ⟨_, _, rfl, hinv, rfl⟩
    · exact ⟨_, _, rfl, hinv, rfl⟩

theorem nextTable_keeps (hinv : s.pmm.Inv) (h : nextTable s table index flags = .ok (next, s')) :
    s'.pmm.Inv ∧ s'.pmm.layout = s.pmm.layout := by
  obtain ⟨_, _, hcall, hkeeps⟩ := nextTable_ok hinv table index flags
  cases hcall.symm.trans h
  exact hkeeps

end Level

/-! ## The call -/

section Call

variable {s : Machine} {root v p flags : Word}

theorem mapPage_ok (hinv : s.pmm.Inv) (root v p flags : Word) :
    ∃ r s', mapPage s root v p flags = .ok (r, s') := by
  obtain ⟨pdp, s1, hpdp, hinv1, _⟩ := nextTable_ok hinv root (index4 v) flags
  unfold mapPage
  rw [hpdp]
  simp only [bind, Except.bind, pure, Except.pure]
  split
  · exact ⟨_, _, rfl⟩
  obtain ⟨pd, s2, hpd, hinv2, _⟩ := nextTable_ok hinv1 pdp (index3 v) flags
  rw [hpd]
  simp only []
  split
  · exact ⟨_, _, rfl⟩
  split
  · exact ⟨_, _, rfl⟩
  obtain ⟨pt, s3, hpt, _⟩ := nextTable_ok hinv2 pd (index2 v) flags
  rw [hpt]
  simp only []
  split
  · exact ⟨_, _, rfl⟩
  · exact ⟨_, _, rfl⟩

/-- Under a 2 MiB page the call compares, byte by byte of the page. -/
theorem mapPage_covered {e : Word} (h : coveringEntry s.mem root v = some e) (flags : Word) :
    ∃ s', ∀ w p, index4 w = index4 v → index3 w = index3 v → index2 w = index2 v →
      mapPage s root w p flags
        = .ok (if largeTarget e w = p &&& physAddrMask then 0 else -1, s') := by
  obtain ⟨pdp, pd, h4, h3, rfl, hlarge⟩ := coveringEntry_eq_some.mp h
  obtain ⟨s1, hpdp, htouched1⟩ := nextTable_of_nextOf flags h4
  rw [← htouched1.nextOf_eq] at h3
  obtain ⟨s2, hpd, htouched2⟩ := nextTable_of_nextOf flags h3
  have htouched := htouched1.trans htouched2
  have hlarge2 : IsLarge (s2.mem pd (index2 v)) := htouched.isLarge_iff.mpr hlarge
  have hne1 : pdp ≠ null := (nextOf_eq_some.mp h4).2.2.1
  have hne2 : pd ≠ null := (nextOf_eq_some.mp h3).2.2.1
  refine ⟨s2, fun w p hw4 hw3 hw2 => ?_⟩
  have htarget := largeTarget_congr w (htouched pd (index2 v) physAddrMask (by decide))
  unfold IsLarge at hlarge2
  unfold mapPage
  rw [hw4, hw3, hw2, hpdp]
  simp only [bind, Except.bind, pure, Except.pure, if_neg hne1]
  rw [hpd]
  simp only [if_neg hne2]
  rw [if_pos hlarge2, htarget]

/-- What is not covered before the call is not when the call looks: a table it makes
    on the way has no 2 MiB page in it. -/
theorem not_isLarge_of_uncovered (hinv : s.pmm.Inv) (hal : s.pmm.Aligned)
    (hroot : ¬ s.pmm.Free root) (h : coveringEntry s.mem root v = none) {pdp pd : Word}
    {s1 s2 : Machine} (hpdp : nextTable s root (index4 v) flags = .ok (pdp, s1)) (hne1 : pdp ≠ null)
    (hpd : nextTable s1 pdp (index3 v) flags = .ok (pd, s2)) (hne2 : pd ≠ null) :
    ¬ IsLarge (s2.mem pd (index2 v)) := by
  obtain ⟨hinv1, hlayout⟩ := nextTable_keeps hinv hpdp
  have hal1 : s1.pmm.Aligned := by
    unfold Pmm.Aligned
    rw [hlayout]
    exact hal
  rcases nextTable_next hinv1 hal1 hpd hne2 with ⟨h3, htouched2⟩ | ⟨_, hnot, _⟩
  · rcases nextTable_next hinv hal hpdp hne1 with ⟨h4, htouched1⟩ | ⟨hfree, _, hzero⟩
    · intro hlarge
      rw [htouched1.nextOf_eq] at h3
      have hcovered := coveringEntry_eq_some.mpr
        ⟨pdp, pd, h4, h3, rfl, (htouched1.trans htouched2).isLarge_iff.mp hlarge⟩
      rw [h] at hcovered
      cases hcovered
    · -- the root is in use, so the new table is another one and empty
      have hother : root ≠ pdp := fun heq => hroot (heq ▸ hfree)
      rw [hzero hother] at h3
      exact absurd BitVec.zero_and (nextOf_eq_some.mp h3).1
  · exact hnot _

theorem mapPage_uncovered (hinv : s.pmm.Inv) (hal : s.pmm.Aligned) (hroot : ¬ s.pmm.Free root)
    (h : coveringEntry s.mem root v = none) :
    mapPage s root (pageBase v) (pageBase p) flags = mapPage s root v p flags := by
  unfold mapPage
  rw [index1_pageBase, index2_pageBase, index3_pageBase, index4_pageBase, initPtEntry_pageBase]
  cases hpdp : nextTable s root (index4 v) flags with
  | error e => rfl
  | ok result =>
      obtain ⟨pdp, s1⟩ := result
      simp only [bind, Except.bind]
      by_cases hne1 : pdp = null
      · rw [if_pos hne1, if_pos hne1]
      rw [if_neg hne1, if_neg hne1]
      cases hpd : nextTable s1 pdp (index3 v) flags with
      | error e => rfl
      | ok result =>
          obtain ⟨pd, s2⟩ := result
          simp only []
          by_cases hne2 : pd = null
          · rw [if_pos hne2, if_pos hne2]
          have hnot := not_isLarge_of_uncovered hinv hal hroot h hpdp hne1 hpd hne2
          unfold IsLarge at hnot
          rw [if_neg hne2, if_neg hne2, if_neg hnot, if_neg hnot]

/-- The condition under which the offset of `vaddr` does not count: there is none, or
    no 2 MiB page maps the page to the frame. -/
def OffsetFree (mem : Mem) (root v p : Word) : Prop :=
  v &&& 0xFFF#64 = 0#64 ∨
    ∀ e, coveringEntry mem root v = some e → largeTarget e (pageBase v) ≠ p &&& physAddrMask

/-- Both calls leave the same machine, and they return the same exactly under
    `OffsetFree`. -/
theorem mapPage_pageBase (hinv : s.pmm.Inv) (hal : s.pmm.Aligned) (hroot : ¬ s.pmm.Free root) :
    ∃ r r' s', mapPage s root v p flags = .ok (r, s') ∧
      mapPage s root (pageBase v) (pageBase p) flags = .ok (r', s') ∧
      (r = r' ↔ OffsetFree s.mem root v p) := by
  cases hcover : coveringEntry s.mem root v with
  | none =>
      obtain ⟨r, s', hcall⟩ := mapPage_ok hinv root v p flags
      refine ⟨r, r, s', hcall, (mapPage_uncovered hinv hal hroot hcover).trans hcall, ?_⟩
      exact iff_of_true rfl (.inr fun e he => absurd (hcover.symm.trans he) (by simp))
  | some e =>
      obtain ⟨s', hcall⟩ := mapPage_covered hcover flags
      refine ⟨_, _, s', hcall v p rfl rfl rfl, hcall (pageBase v) (pageBase p) (index4_pageBase v)
        (index3_pageBase v) (index2_pageBase v), ?_⟩
      have hfree : OffsetFree s.mem root v p ↔
          v &&& 0xFFF#64 = 0#64 ∨ largeTarget e (pageBase v) ≠ p &&& physAddrMask := by
        unfold OffsetFree
        rw [hcover]
        exact or_congr_right (by simp)
      rw [hfree, pageBase_and_physAddrMask]
      -- the frame is a multiple of the page size, the target of the byte need not be
      have htarget := largeTarget_toNat v e
      have haligned := largeTarget_pageBase_aligned v e
      have hframe := and_physAddrMask_toNat p
      have hoffset := and_pageOffset_toNat v
      by_cases hsame : largeTarget e (pageBase v) = p &&& physAddrMask
      · by_cases hzero : v &&& 0xFFF#64 = 0#64
        · have hv : largeTarget e v = p &&& physAddrMask := by
            apply BitVec.eq_of_toNat_eq
            rw [htarget, ← hoffset, hzero, hsame]
            rfl
          rw [if_pos hv, if_pos hsame]
          exact iff_of_true rfl (.inl hzero)
        · have hv : largeTarget e v ≠ p &&& physAddrMask := by
            intro heq
            rw [heq, hsame] at htarget
            refine hzero (BitVec.eq_of_toNat_eq ?_)
            rw [hoffset]
            show _ = 0
            omega
          rw [if_neg hv, if_pos hsame]
          exact iff_of_false (by decide) (not_or.mpr ⟨hzero, not_not_intro hsame⟩)
      · have hv : largeTarget e v ≠ p &&& physAddrMask := by
          intro heq
          rw [heq] at htarget
          refine hsame (BitVec.eq_of_toNat_eq ?_)
          omega
        rw [if_neg hv, if_neg hsame]
        exact iff_of_true rfl (.inr hsame)

end Call

/-! ## In every reachable state -/

/-- The six-page system with the 2 MiB page at 0x400000 mapped to 0x600000. -/
def regionMapped : System :=
  ⟨machineAfter sixPagesSystem.machine
    (mapLargePage sixPagesSystem.machine 0x1000#64 0x400000#64 0x600000#64 readWriteBit),
    some 0x1000#64, []⟩

theorem regionMapped_reachable :
    System.AnyReachable oneBlock sixPagesMap.toMemoryMap regionMapped := by
  obtain ⟨mem, hrun⟩ := sixPagesSystem_reachable.any
  have hcall : TableCall.run 0 sixPagesSystem.machine 0x1000#64
      (.mapLargePage 0x400000#64 0x600000#64 readWriteBit) = .ok (0, regionMapped.machine) := rfl
  exact ⟨mem, hrun.tail (.table sixPagesSystem_pml4 _ hcall)⟩

/-- The page at 0x400000 is mapped to 0x600000 already, and asking for it again is
    fine; asking for the page of its second byte is refused. -/
theorem page_offset_counts :
    System.AnyReachable oneBlock sixPagesMap.toMemoryMap regionMapped ∧
    regionMapped.pml4 = some 0x1000#64 ∧
    ∃ s s', mapPage regionMapped.machine 0x1000#64 0x400001#64 0x600000#64 readWriteBit
        = .ok (-1, s) ∧
      mapPage regionMapped.machine 0x1000#64 (pageBase 0x400001#64) (pageBase 0x600000#64)
        readWriteBit = .ok (0, s') :=
  ⟨regionMapped_reachable, rfl, _, _, rfl, rfl⟩

/-- **When `map_page` depends on page numbers only.**  In every reachable state, for
    any addresses and flags, the call and the call with both addresses rounded down
    leave the same page tables and pmm, and return the same if and only if the
    offset of `vaddr` is 0 or no 2 MiB page maps `vaddr`'s page to `paddr`'s frame
    already. -/
theorem page_offsets_ignored_iff {storage : PmmStorage} {mmap : MemoryMap} {sys : System}
    (h : System.AnyReachable storage mmap sys) {root : Word} (hroot : sys.pml4 = some root)
    (v p flags : Word) :
    ∃ r r' s', mapPage sys.machine root v p flags = .ok (r, s') ∧
      mapPage sys.machine root (pageBase v) (pageBase p) flags = .ok (r', s') ∧
      (r = r' ↔ OffsetFree sys.machine.mem root v p) := by
  obtain ⟨tables, hinv, htables⟩ := h.tracked
  have hal : sys.machine.pmm.Aligned := by
    unfold Pmm.Aligned
    rw [hinv.layout_eq]
    exact buildPmm_aligned storage mmap
  have hheld := List.mem_append_right sys.held (htables root hroot)
  exact mapPage_pageBase hinv.pmm hal (hinv.pool.not_free root hheld)

/-- Nothing maps 0x5000, so 0x5123 and 0x7456 are as good as 0x5000 and 0x7000. -/
theorem page_offsets_ignored_iff_sixPages : ∃ r s,
    mapPage sixPagesSystem.machine 0x1000#64 0x5123#64 0x7456#64 readWriteBit = .ok (r, s) ∧
    mapPage sixPagesSystem.machine 0x1000#64 (pageBase 0x5123#64) (pageBase 0x7456#64) readWriteBit
      = .ok (r, s) := by
  obtain ⟨r, r', s, hcall, hround, hiff⟩ := page_offsets_ignored_iff sixPagesSystem_reachable.any
    sixPagesSystem_pml4 0x5123#64 0x7456#64 readWriteBit
  have huncovered : coveringEntry sixPagesSystem.machine.mem 0x1000#64 0x5123#64 = none := by decide
  have hsame : r = r' := hiff.mpr (.inr fun e he => absurd (huncovered.symm.trans he) (by simp))
  exact ⟨r, s, hcall, hsame ▸ hround⟩

end EchOS
