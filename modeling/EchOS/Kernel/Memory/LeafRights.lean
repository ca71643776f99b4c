/-
  EchOS.Kernel.Memory.LeafRights

  "The leaf entry decides the real permissions", over whole runs.

  Every call on the tree keeps `Machine.Led`, also one that widens shared upper
  entries and then fails (`TableCall.led`), so it holds in every reachable state.
  Leaf entries outside the pages a call is asked to map stay as they are
  (`TableCall.pageEntry_eq`), and with them the rights in force there.
-/
import EchOS.Kernel.Memory.PageOverlap

namespace EchOS

/-! ## Calls -/

namespace TableCall

/-- `w` lies in a page that the call is asked to map. -/
def Asks : TableCall → Word → Prop
  | .mapPage vaddr _ _, w => pageNumber w = pageNumber vaddr
  | .mapLargePage vaddr _ _, w => regionNumber w = regionNumber vaddr
  | .mapRange vaddr _ length _, w =>
      ∃ k, k < length.toNat ∧ pageNumber w = pageNumber (nthByte vaddr k)
  | .getHeap vaddr length, w =>
      ∃ k, k < (heapPages length * frameSize).toNat ∧ pageNumber w = pageNumber (nthByte vaddr k)

/-- The range of the call has a byte and ends clear of the last page. -/
def Clear : TableCall → Prop
  | .mapPage _ _ _ | .mapLargePage _ _ _ => True
  | .mapRange vaddr _ length _ => 0 < length.toNat ∧ ClearRange vaddr length
  | .getHeap vaddr length =>
      0 < (heapPages length * frameSize).toNat ∧ ClearRange vaddr (heapPages length * frameSize)

end TableCall

section Calls

variable {root : Word} {s s' : Machine}

/-- The tree is in the memory; the pmm has no part in it. -/
theorem Machine.Led.of_mem (h : s.Led root) (hmem : s'.mem = s.mem) : s'.Led root := by
  cases s
  cases s'
  cases hmem
  exact ⟨h.pointers, h.users⟩

theorem Machine.pageEntry_of_mem (hmem : s'.mem = s.mem) (w : Word) :
    s'.pageEntry root w = s.pageEntry root w := by
  unfold pageEntry leafEntryAt
  rw [hmem]

/-- Every call on the tree leaves the permissions to the leaves. -/
theorem TableCall.led (hinv : s.TreeInv root) (call : TableCall) {fuel : Nat} {r : Int}
    (h : call.run fuel s root = .ok (r, s')) (hled : s.Led root) : s'.Led root := by
  cases call with
  | mapPage vaddr paddr flags =>
      obtain ⟨_, _, hrewrites⟩ := (mapPage_outcome_of_ok hinv h).rewrites
      exact hrewrites.led hled
  | mapLargePage vaddr paddr flags =>
      obtain ⟨_, _, hrewrites⟩ := (mapLargePage_outcome_of_ok hinv h).rewrites
      exact hrewrites.led hled
  | mapRange vaddr paddr length flags =>
      obtain ⟨_, _, _, hrewrites⟩ := loop_rewrites hinv h
      exact hrewrites.led hled
  | getHeap vaddr length =>
      rcases getHeap_cases hinv h with
        ⟨_, rfl, _⟩ | ⟨a, pmm, s2, r2, _, _, _, hfit, hmap, hend⟩
      · exact hled
      -- giving the reservation back writes no memory
      · obtain ⟨_, _, _, hrewrites⟩ := loop_rewrites (hinv.of_firstFit hfit) hmap
        have hled2 : s2.Led root := hrewrites.led (hled.of_mem rfl)
        rcases hend with ⟨_, _, rfl⟩ | ⟨_, _, hmem, _⟩
        · exact hled2
        · exact hled2.of_mem hmem

/-- A range of bytes that has none of `w`'s page has none of its pages. -/
theorem ClearRange.path_ne {vaddr length w : Word} (h : ClearRange vaddr length)
    (hpos : 0 < length.toNat)
    (hw : ¬ ∃ k, k < length.toNat ∧ pageNumber w = pageNumber (nthByte vaddr k)) {j : Nat}
    (hj : j < spanPages (pageBase vaddr) (vaddr + length)) :
    path 4 w ≠ path 4 (nthPage (pageBase vaddr) j) := by
  intro heq
  obtain ⟨k, hk, hbyte⟩ := h.byte_of_page hpos hj
  exact hw ⟨k, hk, path_four_eq_iff.mp (heq.trans hbyte.symm)⟩

/-- No call changes the leaf entry of a page it is not asked to map. -/
theorem TableCall.pageEntry_eq (hinv : s.TreeInv root) (call : TableCall) (hclear : call.Clear)
    {fuel : Nat} {r : Int} (h : call.run fuel s root = .ok (r, s')) {w : Word}
    (hw : ¬ call.Asks w) : s'.pageEntry root w = s.pageEntry root w := by
  cases call with
  | mapPage vaddr paddr flags =>
      cases mapPage_outcome_of_ok hinv h with
      | covered _ _ opened => rw [Machine.pageEntry_of_same opened.rewrites.leaves_eq]
      | starved _ exhausted =>
          obtain ⟨_, hrewrites⟩ := exhausted.rewrites
          rw [Machine.pageEntry_of_same hrewrites.leaves_eq]
      | written uncovered rewrites =>
          rw [Machine.pageEntry_update_small rewrites.leaves_eq uncovered, if_neg]
          exact fun heq => hw (path_four_eq_iff.mp heq)
  | mapLargePage vaddr paddr flags =>
      cases mapLargePage_outcome_of_ok hinv h with
      | refused _ opened => rw [Machine.pageEntry_of_same opened.rewrites.leaves_eq]
      | starved _ exhausted =>
          obtain ⟨_, hrewrites⟩ := exhausted.rewrites
          rw [Machine.pageEntry_of_same hrewrites.leaves_eq]
      | written noTable rewrites =>
          rw [Machine.pageEntry_update_large rewrites.leaves_eq, if_neg]
          exact fun heq => hw (path_three_eq_iff.mp heq)
  -- every page of the span holds a byte of the range, so `w`'s is none of them
  | mapRange vaddr paddr length flags =>
      obtain ⟨hpos, hrange⟩ := hclear
      exact loop_span_pageEntry hrange.stop_le hinv h fun _ hj => hrange.path_ne hpos hw hj
  | getHeap vaddr length =>
      obtain ⟨hpos, hrange⟩ := hclear
      rcases getHeap_cases hinv h with
        ⟨_, rfl, _⟩ | ⟨a, pmm, s2, r2, _, _, _, hfit, hmap, hend⟩
      · rfl
      · have hsame : s2.pageEntry root w = s.pageEntry root w :=
          loop_span_pageEntry hrange.stop_le (hinv.of_firstFit hfit) hmap fun _ hj =>
            hrange.path_ne hpos hw hj
        rcases hend with ⟨_, _, rfl⟩ | ⟨_, _, hmem, _⟩
        · exact hsame
        · exact (Machine.pageEntry_of_mem hmem w).trans hsame

end Calls

/-! ## Runs -/

namespace System

/-- The leaf entries of the tree, if there is one, decide. -/
def Led (sys : System) : Prop := ∀ root, sys.pml4 = some root → sys.machine.Led root

variable {built : Pmm} {sys sys' : System}

theorem Led.anyStep (hled : sys.Led) (hinv : sys.Inv built) (h : AnyStep sys sys') : sys'.Led := by
  have htable : ∀ {root fuel r s} (call : TableCall), sys.pml4 = some root →
      call.run fuel sys.machine root = .ok (r, s) → ∀ root', sys.pml4 = some root' →
      s.Led root' := by
    intro root fuel r s call hroot hrun root' hroot'
    cases hroot.symm.trans hroot'
    exact call.led (hinv.tree root hroot) hrun (hled root hroot)
  cases h with
  | step h =>
      cases h with
      | pmm call allowed run => exact fun root hroot => (hled root hroot).of_mem rfl
      | initPml4 first run =>
          intro root hroot
          rcases initPml4_cases hinv.pmm hinv.frames hinv.machine_null_not_free run with
            ⟨hnull, _⟩ | ⟨hne, _, _, _, hzero⟩
          · rw [if_pos hnull] at hroot
            cases hroot
          · rw [if_neg hne] at hroot
            cases hroot
            -- a new root has neither pointers nor leaves
            constructor
            · intro i p e hslot hpointer
              rw [hzero _ e hslot, entryTable_zero] at hpointer
              exact absurd rfl hpointer
            · rintro i p ⟨e, hslot, hpresent, _⟩
              rw [hzero _ e hslot] at hpresent
              exact absurd BitVec.zero_and hpresent
      | table pml4 call plain run => exact htable call pml4 run
  | table pml4 call run => exact htable call pml4 run

/-- In every reachable state the leaf entries decide. -/
theorem AnyReachable.led {storage : PmmStorage} {mmap : PhysicalMap}
    (h : AnyReachable storage mmap.toMemoryMap sys) : sys.Led := by
  obtain ⟨mem, hrun⟩ := h
  induction hrun with
  | refl =>
      intro root hroot
      cases hroot
  | tail hbefore hstep ih =>
      exact ih.anyStep (System.AnyReachable.inv ⟨mem, hbefore⟩) hstep

end System

/-! ## The leaf decides the permissions -/

/-- Two calls of `map_page` in `strayBoot`, for the pages 0 and 0x1000. -/
def strayMapped : Machine :=
  let first := machineAfter strayBoot.machine
    (mapPage strayBoot.machine 0x10000000000000#64 0#64 0x5000#64 readWriteBit)
  machineAfter first (mapPage first 0x10000000000000#64 0x1000#64 0x6000#64 readWriteBit)

theorem strayMapped_reachable :
    System.Reachable oneBlock highMap ⟨strayMapped, some 0x10000000000000#64, []⟩ := by
  obtain ⟨mem, hrun⟩ := strayBoot_reachable
  have hroot : strayBoot.pml4 = some 0x10000000000000#64 := rfl
  have hplain : ∀ v p, TableCall.Plain (.mapPage v p readWriteBit) := fun _ _ =>
    plainFlags_readWriteBit
  have hfirst : TableCall.run 0 strayBoot.machine 0x10000000000000#64
      (.mapPage 0#64 0x5000#64 readWriteBit)
      = .ok (0, machineAfter strayBoot.machine
        (mapPage strayBoot.machine 0x10000000000000#64 0#64 0x5000#64 readWriteBit)) := rfl
  have hsecond : TableCall.run 0 (machineAfter strayBoot.machine
        (mapPage strayBoot.machine 0x10000000000000#64 0#64 0x5000#64 readWriteBit))
      0x10000000000000#64 (.mapPage 0x1000#64 0x6000#64 readWriteBit) = .ok (0, strayMapped) := rfl
  exact ⟨mem, (hrun.tail (.table hroot _ (hplain _ _) hfirst)).tail (.table rfl _ (hplain _ _) hsecond)⟩

/-- `map_range` of no bytes from the middle of page 0x5000, without write access. -/
def emptyMapped : Machine :=
  machineAfter oneMapped.machine
    (mapRange 2 oneMapped.machine 0x1000#64 0x5800#64 0x7800#64 0#64 0#64)

/-- With memory at 2^52 the second `map_page` follows an entry that lost the upper
    bits of its table, so its writable leaf hangs below entries that allow no
    writes.  And a range without bytes maps the page its start lies in. -/
theorem leaf_decides_rights_fails :
    (System.Reachable oneBlock highMap ⟨strayMapped, some 0x10000000000000#64, []⟩ ∧
      walkEntries strayMapped.mem 0x10000000000000#64 0x1000#64
        = some [0x10000000001003#64, 0x2001#64, 0x3001#64, 0x6003#64]) ∧
    System.Reachable oneBlock sixPagesMap.toMemoryMap oneMapped ∧
    oneMapped.pml4 = some 0x1000#64 ∧
    mapRange 2 oneMapped.machine 0x1000#64 0x5800#64 0x7800#64 0#64 0#64 = .ok (0, emptyMapped) ∧
    effectiveRights oneMapped.machine.mem 0x1000#64 0x5000#64 = some ⟨true, false, false⟩ ∧
    effectiveRights emptyMapped.mem 0x1000#64 0x5000#64 = some ⟨false, false, false⟩ :=
  ⟨⟨strayMapped_reachable, by decide⟩, oneMapped_reachable, rfl, rfl, by decide, by decide⟩

/-- **The leaf entry decides the real permissions.**  In every reachable state, for
    every address that is mapped: the entries above the leaf entry are present and
    writable, do not forbid execution, and allow user accesses whenever the leaf
    entry does, so the rights in force are those of the leaf entry.  And no call on
    the tree, whatever it returns, changes the rights in force at a page outside the
    range it was asked to map. -/
theorem leaf_decides_rights {storage : PmmStorage} {mmap : PhysicalMap} {sys : System}
    (h : System.AnyReachable storage mmap.toMemoryMap sys) {root : Word}
    (hroot : sys.pml4 = some root) :
    (∀ v es, walkEntries sys.machine.mem root v = some es → ∃ upper leaf, es = upper ++ [leaf] ∧
      leaf &&& presentBit ≠ 0 ∧
      (∀ u ∈ upper, u &&& presentBit ≠ 0 ∧ u &&& readWriteBit ≠ 0 ∧ u &&& nxBit = 0 ∧
        (leaf &&& userSupervisorBit ≠ 0 → u &&& userSupervisorBit ≠ 0)) ∧
      effectiveRights sys.machine.mem root v = some (.ofEntry leaf)) ∧
    ∀ (call : TableCall), call.Clear → ∀ fuel r s,
      call.run fuel sys.machine root = .ok (r, s) → ∀ w, ¬ call.Asks w →
      effectiveRights s.mem root w = effectiveRights sys.machine.mem root w := by
  have htree := h.inv.tree root hroot
  have hled := h.led root hroot
  constructor
  · intro v es hwalk
    rcases Machine.walkEntries_cases sys.machine root v with
      ⟨hnone, _⟩ | ⟨upper, leaf, hsome, hentry, hslot, hpresent, hpointers, _⟩
    · rw [hwalk] at hnone
      cases hnone
    · rw [hwalk] at hsome
      cases hsome
      refine ⟨upper, leaf, rfl, hpresent,
        fun u hu => hled.upper hpointers hslot hpresent hu, ?_⟩
      rw [hled.effectiveRights_eq, hentry]
      rfl
  · intro call hclear fuel r s hrun w hw
    have hled' := call.led htree hrun hled
    rw [hled.effectiveRights_eq, hled'.effectiveRights_eq,
      call.pageEntry_eq htree hclear hrun hw]

/-- In the state with page 0x5000 mapped, mapping page 0x6000 for user accesses gives
    page 0x5000 none. -/
theorem leaf_decides_rights_oneMapped :
    effectiveRights (machineAfter oneMapped.machine
      (mapPage oneMapped.machine 0x1000#64 0x6000#64 0x8000#64 userSupervisorBit)).mem
      0x1000#64 0x5000#64 = some ⟨true, false, false⟩ := by
  obtain ⟨_, hframe⟩ := leaf_decides_rights oneMapped_reachable.any oneMapped_pml4
  have hsame := hframe (.mapPage 0x6000#64 0x8000#64 userSupervisorBit) trivial 0 0 _ rfl
    0x5000#64 (show ¬ pageNumber 0x5000#64 = pageNumber 0x6000#64 by decide)
  exact hsame.trans (by decide)

end EchOS
