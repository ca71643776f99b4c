/-
  EchOS.Kernel.Memory.PageOverlap

  Calls over pages that are mapped already.

  `map_page` looks for a 2 MiB page in its way and `map_large_page` for a page
  table; neither looks at an entry of the size it is about to write, so a 4 KiB
  entry is replaced by a 4 KiB entry and a 2 MiB entry by a 2 MiB entry.  The
  lemmas here say for each function on which states an overlap is refused.
-/
import EchOS.Kernel.Memory.MapStall

namespace EchOS

/-- The page `w` is present with another frame than `frame`. -/
def Machine.Overlaps (root : Word) (s : Machine) (w frame : Word) : Prop :=
  ∃ x, translate s.mem root w = some x ∧ x ≠ frame

/-- The call that returned `r` refused to map `w`, and left it as it was. -/
def Machine.Refused (root w : Word) (s : Machine) (r : Int) (s' : Machine) : Prop :=
  r = -1 ∧ translate s'.mem root w = translate s.mem root w

/-- The frame for the page `w` of a 2 MiB page at `paddr`. -/
def frameInLarge (paddr w : Word) : Word :=
  (paddr + (w &&& (largePageSize - 1#64))) &&& physAddrMask

section Aligned

variable {root w : Word} {s s' : Machine}

/-- The first byte of a page translates to the page's frame. -/
theorem translate_of_aligned (hw : 4096 ∣ w.toNat) :
    translate s.mem root w = s.pageFrame root w := by
  have hoff : w &&& 0xFFF#64 = 0#64 := by
    apply BitVec.eq_of_toNat_eq
    rw [and_pageOffset_toNat]
    exact Nat.mod_eq_zero_of_dvd hw
  rw [translate_eq, hoff]
  simp

end Aligned

/-! ## One page -/

section OnePage

variable {root v p flags : Word} {s : Machine}

/-- `map_page` refuses an overlap if and only if the page is part of a 2 MiB page. -/
theorem mapPage_refused_iff (hinv : s.TreeInv root) (hflags : PlainFlags flags)
    (hv : 4096 ∣ v.toNat) :
    ∃ r s', mapPage s root v p flags = .ok (r, s') ∧
      ((s.Overlaps root v (p &&& physAddrMask) → s.Refused root v r s') ↔
        (s.Overlaps root v (p &&& physAddrMask) → s.leafAt root (path 3 v) ≠ none)) := by
  have hoff : v &&& 0xFFF#64 = 0#64 := by
    apply BitVec.eq_of_toNat_eq
    rw [and_pageOffset_toNat]
    exact Nat.mod_eq_zero_of_dvd hv
  have hbefore : translate s.mem root v = s.pageFrame root v := translate_of_aligned hv
  rcases mapPage_cases hinv v flags p hflags with
    ⟨b, s', hcov, hcall, _, hleaf⟩ | ⟨s', hunc, hcall, hstarve⟩ | ⟨s', hunc, hcall, _, _⟩
  · -- under a 2 MiB page: refused when the frames differ
    have hframe := Machine.pageFrame_eq_of_leafAt hleaf
    refine ⟨_, s', hcall, iff_of_true (fun ⟨x, hx, hne⟩ => ?_) fun _ => ?_⟩
    · rw [hbefore, Machine.pageFrame_of_large hcov] at hx
      cases hx
      rw [hoff, BitVec.add_zero, if_neg hne]
      exact ⟨rfl, translate_eq_of_pageFrame (congrFun hframe v)⟩
    · exact ne_of_eq_of_ne hcov (Option.some_ne_none b)
  · -- a page that is present has all its tables
    have habsent : ¬ s.Overlaps root v (p &&& physAddrMask) := by
      rintro ⟨x, hx, _⟩
      rw [hbefore] at hx
      have hshort := hstarve.card_lt hinv.pmm
      rw [Machine.missing_eq_empty_of_pageFrame (Nat.le_refl 3) hx hunc] at hshort
      exact Nat.not_lt_zero _ hshort
    exact ⟨_, s', hcall, iff_of_true (fun h => absurd h habsent) fun h => absurd h habsent⟩
  · -- the entry is written, whatever it was
    refine ⟨_, s', hcall, ?_⟩
    constructor
    · exact fun h hover => absurd (h hover).1 (by decide)
    · exact fun h hover => absurd hunc (h hover)

/-- `map_large_page` refuses the overlaps in its region if and only if there is a
    page table in its way. -/
theorem mapLargePage_refused_iff (hinv : s.TreeInv root) (hflags : PlainFlags flags) :
    ∃ r s', mapLargePage s root v p flags = .ok (r, s') ∧
      ((∀ w, 4096 ∣ w.toNat → regionNumber w = regionNumber v →
          s.Overlaps root w (frameInLarge p w) → s.Refused root w r s') ↔
        ∀ w, 4096 ∣ w.toNat → regionNumber w = regionNumber v →
          s.Overlaps root w (frameInLarge p w) → s.tableAt root (path 3 v) ≠ none) := by
  rcases mapLargePage_cases hinv v flags p hflags with
    ⟨s', htable, hcall, _, hleaf⟩ | ⟨s', hnone, hcall, hstarve⟩ | ⟨s', hnone, hcall, _, _⟩
  · have hframe := Machine.pageFrame_eq_of_leafAt hleaf
    refine ⟨_, s', hcall, iff_of_true (fun w _ _ _ => ?_) fun w _ _ _ => htable⟩
    exact ⟨rfl, translate_eq_of_pageFrame (congrFun hframe w)⟩
  · -- no page of the region is present when its tables are missing
    have habsent : ∀ w, 4096 ∣ w.toNat → regionNumber w = regionNumber v →
        ¬ s.Overlaps root w (frameInLarge p w) := by
      rintro w hw hregion ⟨x, hx, _⟩
      have hpath := path_three_eq_iff.mpr hregion
      rw [translate_of_aligned hw] at hx
      cases hleaf : s.leafAt root (path 3 w) with
      | none =>
          rw [Machine.pageFrame_of_small hleaf] at hx
          rw [← hpath] at hnone
          exact Machine.tableAt_isSome_of_leafAt hx hnone
      | some b =>
          rw [hpath] at hleaf
          have hshort := hstarve.card_lt hinv.pmm
          rw [Machine.missing_tablePaths_eq_empty (Machine.tableAt_isSome_of_leafAt hleaf)] at hshort
          exact Nat.not_lt_zero _ hshort
    exact ⟨_, s', hcall, iff_of_true (fun w hw hr h => absurd h (habsent w hw hr))
      fun w hw hr h => absurd h (habsent w hw hr)⟩
  · refine ⟨_, s', hcall, ?_⟩
    constructor
    · exact fun h w hw hr hover => absurd (h w hw hr hover).1 (by decide)
    · exact fun h w hw hr hover => absurd hnone (h w hw hr hover)

end OnePage

/-! ## A range -/

/-- How many pages a range of `length` bytes from a page boundary on has. -/
def rangePages (length : Word) : Nat := (length.toNat + 4095) / 4096

/-- `map_range` refuses every overlap in its range. -/
def Machine.RangeRefused (root : Word) (s : Machine) (vaddr paddr length flags : Word) : Prop :=
  ∀ k, k < rangePages length →
    s.Overlaps root (nthPage vaddr k) (nthPage paddr k &&& physAddrMask) →
    ∃ bound s', (∀ fuel, bound ≤ fuel →
      mapRange fuel s root vaddr paddr length flags = .ok (-1, s')) ∧
      s.Refused root (nthPage vaddr k) (-1) s'

/-- At or before every overlap there is a page that cannot be mapped; or all pages
    before one that cannot be mapped are mapped as asked. -/
def Machine.RangeGuarded (root : Word) (s : Machine) (vaddr paddr length : Word) : Prop :=
  (∀ k, k < rangePages length →
    s.Overlaps root (nthPage vaddr k) (nthPage paddr k &&& physAddrMask) →
    ∃ (R : PageRange) (m : Nat), R.vaddr = vaddr ∧ R.paddr = paddr ∧ R.stop = vaddr + length ∧
      m ≤ k ∧ m < R.pages ∧ R.Blocked root s m) ∨
  s.Stalled root vaddr paddr (vaddr + length)

section Range

variable {root vaddr paddr length flags : Word} {s : Machine}

/-- A page before which some page is blocked is refused. -/
theorem PageRange.refused_of_blocked {R : PageRange} (hinv : s.TreeInv root)
    (hflags : PlainFlags flags) {k m : Nat} (hk : k < R.pages) (hmk : m ≤ k)
    (hblocked : R.Blocked root s m) :
    ∃ s', (∀ fuel, R.pages < fuel →
      mapRange.loop root R.stop flags fuel s R.vaddr R.paddr = .ok (-1, s')) ∧
      s'.pageFrame root (R.page k) = s.pageFrame root (R.page k) := by
  obtain ⟨r, s', hrun⟩ := R.run_returns hinv hflags
  rcases R.run_cases hinv hflags (hrun _ (Nat.lt_succ_self _)) with
    ⟨_, _, hfree⟩ | ⟨rfl, c, s1, _, hc, hprog, _, hframe, _, hfree⟩
  -- a run that returned 0 passed the blocked page
  · exact absurd hblocked (hfree m (Nat.lt_of_le_of_lt hmk hk))
  · -- the run stopped at or before the blocked page
    have hcm : c ≤ m := by
      by_contra hlt
      exact hfree m (Nat.lt_of_not_le hlt) hblocked
    refine ⟨s', hrun, ?_⟩
    rw [hframe]
    refine hprog.rest _ fun j hj heq => ?_
    have := R.page_inj hk (Nat.lt_trans hj hc) heq
    omega

/-- A page that a failed run left present with another frame was not reached. -/
theorem PageRange.blocked_of_refused {R : PageRange} (hinv : s.TreeInv root)
    (hflags : PlainFlags flags) {fuel k : Nat} {s' : Machine}
    (hrun : mapRange.loop root R.stop flags fuel s R.vaddr R.paddr = .ok (-1, s'))
    (hne : s'.pageFrame root (R.page k) ≠ some (R.target k)) :
    ∃ m, m ≤ k ∧ m < R.pages ∧ R.Blocked root s m := by
  rcases R.run_cases hinv hflags hrun with
    ⟨hr, _⟩ | ⟨_, m, s1, _, hm, hprog, _, hframe, hblocked, _⟩
  · cases hr
  · refine ⟨m, ?_, hm, hblocked⟩
    by_contra hlt
    refine hne ?_
    rw [hframe]
    exact hprog.done k (Nat.lt_of_not_le hlt)

/-- The pages of a range that some `PageRange` describes. -/
theorem PageRange.pages_eq_rangePages {R : PageRange} (hv : R.vaddr = vaddr)
    (hstop : R.stop = vaddr + length) (hpos : 0 < R.pages) : R.pages = rangePages length := by
  have hnum : (vaddr + length).toNat = (vaddr.toNat + length.toNat) % 2 ^ 64 := BitVec.toNat_add _ _
  have hlen := length.isLt
  have hlt := vaddr.isLt
  unfold PageRange.pages at hpos ⊢
  unfold rangePages
  rw [hv, hstop] at hpos ⊢
  omega

/-- Guarded ranges are refused. -/
theorem rangeRefused_of_guarded (hinv : s.TreeInv root) (hflags : PlainFlags flags)
    (hv : 4096 ∣ vaddr.toNat) (hp : 4096 ∣ paddr.toNat)
    (h : s.RangeGuarded root vaddr paddr length) :
    s.RangeRefused root vaddr paddr length flags := by
  intro k hk hover
  have hcall : ∀ fuel, mapRange fuel s root vaddr paddr length flags
      = mapRange.loop root (vaddr + length) flags fuel s vaddr paddr := fun fuel => by
    rw [mapRange, pageBase_of_aligned hv, pageBase_of_aligned hp]
  -- the run stops at a blocked page, or at one that can never be mapped
  rcases h with hblocked | ⟨c, hlt, hmapped, hstuck⟩
  · obtain ⟨R, m, rfl, rfl, hstop, hmk, hm, hblocked⟩ := hblocked k hk hover
    have hpages := PageRange.pages_eq_rangePages rfl hstop (Nat.zero_lt_of_lt hm)
    obtain ⟨s', hrun, hframe⟩ :=
      R.refused_of_blocked hinv hflags (k := k) (by omega) hmk hblocked
    refine ⟨R.pages + 1, s', fun fuel hfuel => ?_, rfl, translate_eq_of_pageFrame hframe⟩
    rw [hcall, ← hstop]
    exact hrun fuel hfuel
  · obtain ⟨s', hframe, hrun⟩ := loop_stuckAt hflags hinv hv hlt hmapped hstuck
    refine ⟨c + 1, s', fun fuel hfuel => ?_, rfl, translate_eq_of_pageFrame (congrFun hframe _)⟩
    rw [hcall]
    exact hrun fuel hfuel

/-- Refused ranges of at most 2^48 bytes that do not end in the last page of the
    address space are guarded. -/
theorem rangeGuarded_of_refused (hinv : s.TreeInv root) (hflags : PlainFlags flags)
    (hv : 4096 ∣ vaddr.toNat) (hp : 4096 ∣ paddr.toNat) (hlen : length.toNat ≤ 2 ^ 48)
    (hend : vaddr.toNat + length.toNat ≤ 2 ^ 64 - 4096 ∨ 2 ^ 64 ≤ vaddr.toNat + length.toNat)
    (h : s.RangeRefused root vaddr paddr length flags) :
    s.RangeGuarded root vaddr paddr length := by
  refine .inl fun k hk hover => ?_
  obtain ⟨bound, s', hrun, _, hkept⟩ := h k hk hover
  have hloop := hrun bound (Nat.le_refl _)
  rw [mapRange, pageBase_of_aligned hv, pageBase_of_aligned hp] at hloop
  have hstop : (vaddr + length).toNat = (vaddr.toNat + length.toNat) % 2 ^ 64 := BitVec.toNat_add _ _
  rcases hend with hclear | hwrap
  · let R : PageRange := ⟨vaddr, paddr, vaddr + length, hv, hp, by omega, by omega⟩
    have hpage : translate s'.mem root (nthPage vaddr k) ≠ some (R.target k) := by
      obtain ⟨x, hx, hne⟩ := hover
      rw [hkept, hx]
      exact fun heq => hne (Option.some.inj heq)
    rw [translate_of_aligned (nthPage_aligned hv k)] at hpage
    obtain ⟨m, hmk, hm, hblocked⟩ := R.blocked_of_refused hinv hflags hloop hpage
    exact ⟨R, m, rfl, rfl, rfl, hmk, hm, hblocked⟩
  · -- a range that wraps is over before it begins
    have hlt := vaddr.isLt
    have hnot : ¬ vaddr < vaddr + length := by
      rw [BitVec.lt_def, hstop]
      omega
    -- so it returns 0, which is no refusal
    cases loop_of_not_lt hnot hloop

end Range

/-- Mapping the page again, to frame 0x8000, replaces the entry and returns 0. -/
theorem overlap_replaced :
    System.Reachable oneBlock sixPagesMap.toMemoryMap oneMapped ∧
    oneMapped.pml4 = some 0x1000#64 ∧
    translate oneMapped.machine.mem 0x1000#64 0x5000#64 = some 0x7000#64 ∧
    ∃ s, mapPage oneMapped.machine 0x1000#64 0x5000#64 0x8000#64 readWriteBit = .ok (0, s) ∧
      translate s.mem 0x1000#64 0x5000#64 = some 0x8000#64 :=
  ⟨oneMapped_reachable, rfl, by decide, machineAfter oneMapped.machine
    (mapPage oneMapped.machine 0x1000#64 0x5000#64 0x8000#64 readWriteBit), rfl, by decide⟩

/-- **When an overlap is refused.**  In every reachable state, for page-aligned
    addresses and flags outside the address field: `map_page` refuses a page that
    is present with another frame if and only if it is part of a 2 MiB page;
    `map_large_page` refuses such pages in its region if and only if the region
    has a page table; and `map_range` refuses them in a guarded range, and in one
    of at most 2^48 bytes that does not end in the last page only there. -/
theorem overlap_refused_iff {storage : PmmStorage} {mmap : PhysicalMap} {sys : System}
    (h : System.Reachable storage mmap.toMemoryMap sys) {root : Word}
    (hroot : sys.pml4 = some root) {vaddr paddr flags : Word} (hv : 4096 ∣ vaddr.toNat)
    (hp : 4096 ∣ paddr.toNat) (hflags : PlainFlags flags) :
    (∃ r s, mapPage sys.machine root vaddr paddr flags = .ok (r, s) ∧
      ((sys.machine.Overlaps root vaddr (paddr &&& physAddrMask) →
          sys.machine.Refused root vaddr r s) ↔
        (sys.machine.Overlaps root vaddr (paddr &&& physAddrMask) →
          sys.machine.leafAt root (path 3 vaddr) ≠ none))) ∧
    (2 ^ 21 ∣ vaddr.toNat → 2 ^ 21 ∣ paddr.toNat →
      ∃ r s, mapLargePage sys.machine root vaddr paddr flags = .ok (r, s) ∧
      ((∀ w, 4096 ∣ w.toNat → regionNumber w = regionNumber vaddr →
          sys.machine.Overlaps root w (frameInLarge paddr w) → sys.machine.Refused root w r s) ↔
        ∀ w, 4096 ∣ w.toNat → regionNumber w = regionNumber vaddr →
          sys.machine.Overlaps root w (frameInLarge paddr w) →
          sys.machine.tableAt root (path 3 vaddr) ≠ none)) ∧
    ∀ length,
      (sys.machine.RangeGuarded root vaddr paddr length →
        sys.machine.RangeRefused root vaddr paddr length flags) ∧
      (length.toNat ≤ 2 ^ 48 →
        vaddr.toNat + length.toNat ≤ 2 ^ 64 - 4096 ∨ 2 ^ 64 ≤ vaddr.toNat + length.toNat →
        (sys.machine.RangeRefused root vaddr paddr length flags ↔
          sys.machine.RangeGuarded root vaddr paddr length)) := by
  have htree := h.inv.tree root hroot
  refine ⟨mapPage_refused_iff htree hflags hv, fun _ _ => mapLargePage_refused_iff htree hflags,
    fun length => ⟨rangeRefused_of_guarded htree hflags hv hp, fun hlen hend => ?_⟩⟩
  exact ⟨rangeGuarded_of_refused htree hflags hv hp hlen hend,
    rangeRefused_of_guarded htree hflags hv hp⟩

/-- In the state with page 0x5000 mapped to frame 0x7000, asking for frame 0x8000
    is not refused. -/
theorem overlap_refused_iff_oneMapped : ∃ r s,
    mapPage oneMapped.machine 0x1000#64 0x5000#64 0x8000#64 readWriteBit = .ok (r, s) ∧
    ¬ (oneMapped.machine.Overlaps 0x1000#64 0x5000#64 0x8000#64 →
      oneMapped.machine.Refused 0x1000#64 0x5000#64 r s) := by
  have hv : 4096 ∣ (0x5000#64 : Word).toNat := by decide
  have hp : 4096 ∣ (0x8000#64 : Word).toNat := by decide
  have hover : oneMapped.machine.Overlaps 0x1000#64 0x5000#64 0x8000#64 :=
    ⟨0x7000#64, by decide, by decide⟩
  obtain ⟨⟨r, s, hcall, hiff⟩, _⟩ := overlap_refused_iff oneMapped_reachable oneMapped_pml4 hv hp
    plainFlags_readWriteBit
  exact ⟨r, s, hcall, fun hrefused => hiff.mp hrefused hover (by decide)⟩

end EchOS
