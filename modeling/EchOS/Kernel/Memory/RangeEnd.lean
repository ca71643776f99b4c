/-
  EchOS.Kernel.Memory.RangeEnd

  How far `map_range`'s loop arithmetic is right.

  The end of a range is `vaddr + length` modulo 2^64.  As long as it stays clear of
  the last page of the address space the cursor cannot wrap, and `RangeRight` holds
  in every reachable state.  A range that ends at 2^64 has the end 0, so nothing is
  mapped and 0 returned; a range that ends inside the last page makes the cursor
  wrap to 0, below the end again.  `Spacious` machines show the latter: no 2 MiB page
  and a frame for every table, so no turn ever ends the loop.
-/
import EchOS.Kernel.Memory.RangeMapping
import Mathlib.Algebra.Order.BigOperators.Group.Finset

namespace EchOS

/-! ## The pages the loop visits -/

/-- The loop comes by a number of turns to the machine `s'` and the cursor at `v'`
    and `p'`. -/
inductive mapRange.Reaches (pml4 stop flags : Word) (s : Machine) (v p : Word) :
    Machine → Word → Word → Prop
  | start : Reaches pml4 stop flags s v p s v p
  | next {s' s'' : Machine} {v' p' : Word} {n : Nat} (before : Reaches pml4 stop flags s v p s' v' p')
      (more : v' < stop) (turn : mapRange.turn s' pml4 v' p' stop flags = .ok (some n, s'')) :
      Reaches pml4 stop flags s v p s'' (nthPage v' n) (nthPage p' n)

/-- `map_range` calls `map_page` for the page `w`, or `map_large_page` for 512 pages
    with `w` among them. -/
def mapRange.Visits (s : Machine) (pml4 vaddr paddr length flags w : Word) : Prop :=
  ∃ s' v p, mapRange.Reaches pml4 (vaddr + length) flags s (pageBase vaddr) (pageBase paddr) s' v p ∧
    v < vaddr + length ∧
    (w = v ∨ LargeFits v p (vaddr + length) ∧ ∃ j, j < 512 ∧ w = nthPage v j)

/-- The number of pages that meet `[vaddr, vaddr + length)`. -/
def pagesMet (vaddr length : Word) : Nat := (vaddr.toNat % 4096 + length.toNat + 4095) / 4096

/-- What `map_range`'s loop owes to the range `[vaddr, vaddr + length)`. -/
structure Machine.RangeRight (s : Machine) (root vaddr paddr length flags : Word) : Prop where
  /-- The loop takes at most one turn for each page of the range. -/
  returns : ∀ fuel, pagesMet vaddr length < fuel →
    ∃ r s', mapRange fuel s root vaddr paddr length flags = .ok (r, s')
  /-- Every page it visits meets the range. -/
  visits : ∀ w, mapRange.Visits s root vaddr paddr length flags w →
    vaddr.toNat < w.toNat + 4096 ∧ w.toNat < vaddr.toNat + length.toNat
  /-- With 0 every byte of the range is mapped. -/
  mapped : ∀ fuel s', mapRange fuel s root vaddr paddr length flags = .ok (0, s') →
    ∀ k, k < length.toNat → translate s'.mem root (nthByte vaddr k) ≠ none

/-! ## Ranges clear of the last page -/

section Clear

variable {flags root vaddr paddr length : Word} {s s' : Machine}

/-- The cursor goes through the pages of the span in order. -/
theorem mapRange.Reaches.span {stop v p v' p' : Word} (hclear : stop.toNat ≤ 2 ^ 64 - 4096)
    (hinv : s.TreeInv root) (h : mapRange.Reaches root stop flags s v p s' v' p') :
    s'.TreeInv root ∧ ∃ k, k ≤ spanPages v stop ∧ v' = nthPage v k := by
  induction h with
  | start => exact ⟨hinv, 0, Nat.zero_le _, (nthPage_zero v).symm⟩
  | next before more turn ih =>
      rename_i s1 s2 v1 p1 n
      obtain ⟨hinv1, k, hk, rfl⟩ := ih
      have hkn := (span_lt_iff hclear hk).mp more
      obtain ⟨advance, s3, hturn, hentries⟩ :
          ∃ advance s3, mapRange.turn s1 root (nthPage v k) p1 stop flags = .ok (advance, s3) ∧
            s1.EntryTurn flags root (nthPage v k) p1 stop advance s3 :=
        turn_cases hinv1 (nthPage v k) p1
      cases hturn.symm.trans turn
      obtain ⟨_, _, hrewrites⟩ := hentries.rewrites
      exact ⟨hrewrites.grows.inv, k + n, (hentries.span hclear hkn).2, nthPage_add v k n⟩

/-- A run that returns 0 has mapped every page of the span. -/
theorem loop_span_mapped {stop v p : Word} (hclear : stop.toNat ≤ 2 ^ 64 - 4096)
    (hinv : s.TreeInv root) {fuel : Nat}
    (h : mapRange.loop root stop flags fuel s v p = .ok (0, s')) {j : Nat}
    (hj : j < spanPages v stop) : s'.pageEntry root (nthPage v j) ≠ none := by
  -- the invariant is that all pages before the cursor are mapped
  have hrun := loop_span_induct hclear
    (I := fun k s1 => s1.TreeInv root ∧ ∀ j, j < k → s1.pageEntry root (nthPage v j) ≠ none)
    (J := fun _ => True) (fun k s1 h => h.1)
    (fun k s1 n s2 _ _ h hturn => by
      obtain ⟨_, _, hrewrites⟩ := hturn.rewrites
      refine ⟨hrewrites.grows.inv, fun j hj => ?_⟩
      rcases Nat.lt_or_ge j k with hjk | hjk
      · exact hturn.mapped (h.2 j hjk)
      · have hpage := hturn.present (show j - k < n by omega)
        rwa [nthPage_add, Nat.add_sub_cancel' hjk] at hpage)
    (fun _ _ _ _ _ _ => trivial) ⟨hinv, fun j hj => absurd hj (Nat.not_lt_zero j)⟩ h
  rcases hrun with ⟨_, hdone⟩ | ⟨h0, _⟩
  · exact hdone.2 j hj
  · exact absurd h0 (by decide)

theorem translate_ne_none_of_pageEntry {w : Word} (h : s.pageEntry root w ≠ none) :
    translate s.mem root w ≠ none := by
  rw [translate_eq, ne_eq, Option.map_eq_none_iff, Machine.pageFrame_eq_none_iff]
  exact h

/-- The loop is right for every range that ends clear of the last page. -/
theorem ClearRange.rangeRight (h : ClearRange vaddr length) (hpos : 0 < length.toNat)
    (hinv : s.TreeInv root) (paddr flags : Word) : s.RangeRight root vaddr paddr length flags := by
  have hspan : spanPages (pageBase vaddr) (vaddr + length) = pagesMet vaddr length := h.span_eq
  have hstop := h.stop_le
  have hend := h.end_toNat
  have hbase := pageBase_toNat vaddr
  refine ⟨fun fuel hfuel => ?_, fun w hvisit => ?_, fun fuel s' hrun k hk => ?_⟩
  · rw [← hspan] at hfuel
    exact loop_span_returns hstop hinv hfuel
  · obtain ⟨s', v, p, hreach, hlt, hw⟩ := hvisit
    obtain ⟨_, k, hk, rfl⟩ := hreach.span hstop hinv
    have hkn := (span_lt_iff hstop hk).mp hlt
    have hpage := span_toNat hstop hk
    have hlt' := BitVec.lt_def.mp hlt
    rcases hw with rfl | ⟨hfits, j, hj, rfl⟩
    · omega
    -- a 2 MiB step fits into the span with all its pages
    · have hroom := (span_fits hstop hkn hfits).2.2
      rw [nthPage_toNat (by omega)]
      omega
  · obtain ⟨hj, hpath⟩ := h.page_of_byte hk
    have hmapped := loop_span_mapped hstop hinv hrun hj
    rw [← Machine.pageEntry_congr hpath] at hmapped
    exact translate_ne_none_of_pageEntry hmapped

end Clear

/-! ## Ranges that end inside the last page -/

/-- The paths that a table can hang at. -/
def everyTable : Finset (List Index) :=
  (Finset.range (2 ^ 27)).biUnion fun n => tablePaths 3 (BitVec.ofNat 64 (n * 2 ^ 21))

theorem everyTable_card_le : everyTable.card ≤ 2 ^ 29 := by
  have hthree : ∀ n ∈ Finset.range (2 ^ 27),
      (tablePaths 3 (BitVec.ofNat 64 (n * 2 ^ 21))).card ≤ 3 := fun n _ =>
    Finset.card_image_le.trans (Finset.card_range 3).le
  have hle := Finset.card_biUnion_le_card_mul _ _ 3 hthree
  rw [Finset.card_range] at hle
  exact hle.trans (by decide)

theorem tablePaths_congr {v w : Word} (h : path 3 v = path 3 w) :
    tablePaths 3 v = tablePaths 3 w := by
  have h2 := path_two_eq_of_path_three_eq h
  have h1 := path_one_eq_of_path_two_eq h2
  rw [tablePaths_succ, tablePaths_succ, tablePaths_succ, tablePaths_succ, tablePaths_succ,
    tablePaths_succ, h, h2, h1]
  rfl

theorem tablePaths_subset_everyTable (v : Word) : tablePaths 3 v ⊆ everyTable := by
  have hlt : regionNumber v < 2 ^ 27 := Nat.mod_lt _ (by decide)
  have hregion : path 3 v = path 3 (BitVec.ofNat 64 (regionNumber v * 2 ^ 21)) := by
    rw [path_three_eq_iff]
    show regionNumber v = (BitVec.ofNat 64 (regionNumber v * 2 ^ 21)).toNat / 2 ^ 21 % 2 ^ 27
    rw [toNat_ofNat_of_lt (by omega)]
    omega
  rw [tablePaths_congr hregion]
  exact Finset.subset_biUnion_of_mem (fun n => tablePaths 3 (BitVec.ofNat 64 (n * 2 ^ 21)))
    (Finset.mem_range.mpr hlt)

/-- A machine without 2 MiB pages and with a free frame for every missing table. -/
structure Machine.Spacious (root : Word) (s : Machine) : Prop where
  inv : s.TreeInv root
  noLarge : ∀ w, s.leafEntryAt root (path 3 w) = none
  room : (s.missing root everyTable).card ≤ s.pmm.freeCount

section Endless

variable {flags root v p stop : Word} {s s' : Machine}

/-- Where no 2 MiB step fits, a turn maps one page and leaves the machine spacious. -/
theorem Machine.Spacious.turn (h : s.Spacious root) (hfits : ¬ LargeFits v p stop)
    {advance : Option Nat} (hturn : s.EntryTurn flags root v p stop advance s') :
    advance = some 1 ∧ s'.Spacious root := by
  have hmissing : s.missing root (tablePaths 3 v) ⊆ s.missing root everyTable :=
    Finset.filter_subset_filter _ (tablePaths_subset_everyTable v)
  cases hturn with
  | large fits _ _ => exact absurd fits hfits
  | kept _ covered _ _ =>
      rw [h.noLarge] at covered
      cases covered
  | small notLarge uncovered rewrites =>
      refine ⟨rfl, rewrites.grows.inv, fun w => ?_, ?_⟩
      · rw [rewrites.leaves_eq, Function.update_of_ne (path_ne_of_length_ne (by decide))]
        exact h.noLarge w
      · -- the frames taken are those of tables that are no longer missing
        have hcount := rewrites.grows.freeCount_add h.inv.pmm
        have hroom := h.room
        rw [rewrites.grows.missing_eq, Finset.card_sdiff_of_subset hmissing]
        omega
  | clash _ covered _ _ =>
      rw [h.noLarge] at covered
      cases covered
  | starved depth_eq uncovered short rewrites =>
      rw [if_neg fun hlarge => hfits hlarge.1] at depth_eq
      rw [depth_eq] at short
      have hle := Finset.card_le_card hmissing
      have hroom := h.room
      omega

/-- While the cursor is below the end and no 2 MiB step fits, the loop goes on. -/
theorem Machine.Spacious.loop (h : s.Spacious root) (hbelow : ∀ n, nthPage v n < stop)
    (hfits : ∀ n, ¬ LargeFits (nthPage v n) (nthPage p n) stop) (fuel : Nat) :
    mapRange.loop root stop flags fuel s v p = .error .outOfFuel := by
  induction fuel generalizing s v p with
  | zero => rfl
  | succ fuel ih =>
      have hlt := hbelow 0
      have hno := hfits 0
      rw [nthPage_zero] at hlt
      rw [nthPage_zero, nthPage_zero] at hno
      obtain ⟨advance, s1, hturn, hentries⟩ :
          ∃ advance s1, mapRange.turn s root v p stop flags = .ok (advance, s1) ∧
            s.EntryTurn flags root v p stop advance s1 :=
        turn_cases h.inv v p
      obtain ⟨rfl, hspacious⟩ := h.turn hno hentries
      rw [loop_of_turn hlt hturn]
      refine ih hspacious (fun n => ?_) fun n => ?_
      · rw [nthPage_add]
        exact hbelow _
      · rw [nthPage_add, nthPage_add]
        exact hfits _

/-- An end in the last page is above every page, and one page between the two
    cursors keeps 2 MiB steps from fitting. -/
theorem Machine.Spacious.mapRange {vaddr length : Word} (h : s.Spacious root)
    (hend : 2 ^ 64 - 4096 < (vaddr + length).toNat) (fuel : Nat) :
    mapRange fuel s root vaddr (nthPage (pageBase vaddr) 1) length flags = .error .outOfFuel := by
  have hv := pageBase_aligned vaddr
  unfold EchOS.mapRange
  rw [pageBase_of_aligned (nthPage_aligned hv 1)]
  refine h.loop (fun n => ?_) (fun n hfits => ?_) fuel
  -- a page boundary is at most 2^64 - 4096
  · have hpage := nthPage_aligned hv n
    have hlt := (nthPage (pageBase vaddr) n).isLt
    rw [BitVec.lt_def]
    omega
  -- a 2 MiB step needs both cursors on its boundary
  · obtain ⟨hfirst, hsecond, _⟩ := largeFits_iff.mp hfits
    rw [nthPage_add, Nat.add_comm, ← nthPage_add, nthPage_one, BitVec.toNat_add, frameSize_toNat]
      at hsecond
    omega

end Endless

/-- 2^29 + 1 pages of conventional memory at 0x1000. -/
def hugePages : EfiMemoryDescriptor :=
  { type := .conventionalMemory, physicalStart := 0x1000#64, numberOfPages := 0x20000001#64,
    attr := 0#64 }

def hugeMap : PhysicalMap where
  descs := [hugePages]
  wellFormed desc hdesc := by
    rw [List.mem_singleton.mp hdesc]
    exact ⟨by decide, by decide⟩
  apart := List.pairwise_singleton _ _
  addressable desc hdesc := by
    rw [List.mem_singleton.mp hdesc]
    decide

/-- A storage of one block and as many bitmap words as `hugePages` needs. -/
def hugeBlock : PmmStorage := ⟨1#64, 0x1000000#64, fun _ => 0#64⟩

theorem hugeBlock_freeCount : (buildPmm hugeBlock hugeMap.descs).freeCount = 0x20000001 := rfl

/-- `init_pml4` succeeds while there is a free frame. -/
theorem initPml4_succeeds {s : Machine} (hinv : s.pmm.Inv) (haddr : s.pmm.Addressable)
    (hnull : ¬ s.pmm.Free null) (hpos : 0 < s.pmm.freeCount) :
    ∃ root s', initPml4 s = .ok (root, s') ∧ root ≠ null ∧ s'.TreeInv root ∧
      s'.pmm.freeCount + 1 = s.pmm.freeCount ∧ ∀ p, s'.leafEntryAt root p = none := by
  rcases Pmm.frameAllocate_count hinv with ⟨_, hzero⟩ | ⟨root, pmm, hcall, hfit, hne, _⟩
  · omega
  have hboot : initPml4 s = .ok (root, ⟨pmm, PointerTree.fill s.mem root 0#64⟩) := by
    unfold initPml4 allocTable
    rw [hcall]
    simp only [bind, Except.bind, pure, Except.pure, if_neg hne]
  rcases initPml4_cases hinv haddr hnull hboot with ⟨hroot, _⟩ | ⟨hroot, _, htree, _, hzero⟩
  · have hfree := hfit.free_run Nat.one_pos
    rw [Pmm.Takes.runFrame_one Nat.one_pos, hroot] at hfree
    exact absurd hfree hnull
  · refine ⟨root, _, hboot, hroot, htree, hfit.freeCount_add hinv, fun p => ?_⟩
    cases p with
    | nil => rfl
    | cons i p =>
        rw [Machine.leafEntryAt, PointerTree.leafAt, Option.bind_eq_none_iff]
        intro e he
        rw [hzero _ e he]
        exact leafEntry_of_absent BitVec.zero_and

/-- After `init_pml4` this memory is spacious, and nothing is mapped. -/
theorem exists_spacious : ∃ sys root, System.AnyReachable hugeBlock hugeMap.toMemoryMap sys ∧
    sys.pml4 = some root ∧ sys.machine.Spacious root ∧
    ∀ w, sys.machine.pageEntry root w = none := by
  have hinv := System.Inv.start hugeBlock hugeMap fun _ _ => 0#64
  have hcount := hugeBlock_freeCount
  obtain ⟨root, s, hboot, hroot, htree, hleft, hleaf⟩ :=
    initPml4_succeeds hinv.pmm hinv.frames hinv.machine_null_not_free
      (show 0 < (buildPmm hugeBlock hugeMap.descs).freeCount by omega)
  have hleft' : s.pmm.freeCount + 1 = (buildPmm hugeBlock hugeMap.descs).freeCount := hleft
  have hroom : (s.missing root everyTable).card ≤ s.pmm.freeCount := by
    have hle : (s.missing root everyTable).card ≤ everyTable.card :=
      Finset.card_le_card (Finset.filter_subset _ _)
    have hall := everyTable_card_le
    omega
  refine ⟨⟨s, if root = null then none else some root, []⟩, root,
    ⟨_, .single (.step (.initPml4 rfl hboot))⟩, if_neg hroot, ⟨htree, fun w => hleaf _, hroom⟩,
    fun w => ?_⟩
  show s.pageEntry root w = none
  rw [Machine.pageEntry_of_small (hleaf _), hleaf]

/-! ## The condition -/

/-- A range whose end is 0: 0 comes back, and nothing was mapped. -/
theorem mapRange_of_end_zero {s : Machine} {root vaddr paddr length flags : Word}
    (hend : vaddr + length = 0#64) (fuel : Nat) :
    mapRange (fuel + 1) s root vaddr paddr length flags = .ok (0, s) := by
  unfold mapRange
  rw [hend, mapRange.loop, if_neg (BitVec.not_lt_zero)]

/-- `map_range` of the last page of the address space in the six-page system returns
    0 at once, and the page is not mapped. -/
theorem range_end_lost : ¬ sixPagesSystem.machine.RangeRight 0x1000#64 0xFFFFFFFFFFFFF000#64
    0x7000#64 0x1000#64 readWriteBit := by
  intro h
  have hrun : mapRange 1 sixPagesSystem.machine 0x1000#64 0xFFFFFFFFFFFFF000#64 0x7000#64 0x1000#64
      readWriteBit = .ok (0, sixPagesSystem.machine) := rfl
  exact h.mapped 1 _ hrun 0 (by decide) (by decide)

/-- **The loop arithmetic is right up to the last page.**  For a range of at least
    one byte that ends at or below 2^64: in every reachable state, whatever the
    physical address and the flags, the loop ends after at most one turn a page,
    visits pages of the range only and has mapped all of them when it returns 0, if
    and only if the range ends clear of the last page of the address space. -/
theorem range_right_iff {vaddr length : Word} (hpos : 0 < length.toNat)
    (hend : vaddr.toNat + length.toNat ≤ 2 ^ 64) :
    (∀ storage (mmap : PhysicalMap) sys, System.AnyReachable storage mmap.toMemoryMap sys →
      ∀ root, sys.pml4 = some root → ∀ paddr flags,
        sys.machine.RangeRight root vaddr paddr length flags) ↔
      vaddr.toNat + length.toNat ≤ 2 ^ 64 - 4096 := by
  constructor
  · intro h
    by_contra hover
    obtain ⟨sys, root, hreach, hroot, hspacious, hempty⟩ := exists_spacious
    have hright := h hugeBlock hugeMap sys hreach root hroot (nthPage (pageBase vaddr) 1) readWriteBit
    have hsum : (vaddr + length).toNat = (vaddr.toNat + length.toNat) % 2 ^ 64 :=
      BitVec.toNat_add _ _
    rcases Nat.eq_or_lt_of_le hend with heq | hlt
    · -- the end is 0
      have hzero : vaddr + length = 0#64 := by
        apply BitVec.eq_of_toNat_eq
        rw [hsum, heq]
        rfl
      refine hright.mapped 1 _ (mapRange_of_end_zero hzero 0) 0 hpos ?_
      rw [translate_eq, Machine.pageFrame_eq_none_iff.mpr (hempty _)]
      rfl
    · -- the cursor never gets past the end
      obtain ⟨r, s', hreturns⟩ := hright.returns _ (Nat.lt_succ_self _)
      rw [hspacious.mapRange (by omega)] at hreturns
      cases hreturns
  -- clear of the last page nothing wraps
  · intro hclear storage mmap sys hreach root hroot paddr flags
    have hrange : ClearRange vaddr length := hclear
    exact hrange.rangeRight hpos (hreach.inv.tree root hroot) paddr flags

/-- Page 0x5000 in the six-page system. -/
theorem range_right_iff_lowPage : sixPagesSystem.machine.RangeRight 0x1000#64 0x5000#64 0x7000#64
    0x1000#64 readWriteBit := by
  have hpos : 0 < (0x1000#64 : Word).toNat := by decide
  have hend : (0x5000#64 : Word).toNat + (0x1000#64 : Word).toNat ≤ 2 ^ 64 := by decide
  have hright := (range_right_iff hpos hend).mpr (by decide)
  exact hright oneBlock sixPagesMap _ sixPagesSystem_reachable.any _ sixPagesSystem_pml4 0x7000#64
    readWriteBit

end EchOS
