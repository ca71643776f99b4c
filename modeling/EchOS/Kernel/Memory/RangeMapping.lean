/-
  EchOS.Kernel.Memory.RangeMapping

  `map_range` as an update of the translation of a range of bytes.

  `PageRange.run_cases` carries the loop's outcome over to any call that returns;
  the rest of the module relates the pages of a `PageRange` to the bytes of the
  range that was asked for.
-/
import EchOS.Kernel.Memory.MapRange
import EchOS.Kernel.Memory.PointUpdates

namespace EchOS

namespace PageRange

variable {R : PageRange} {flags root : Word} {s s' : Machine}

theorem page_zero : R.page 0 = R.vaddr := nthPage_zero _

theorem frame_zero : R.frame 0 = R.paddr := nthPage_zero _

/-- Every sufficient number of turns gives the same result. -/
theorem run_returns (R : PageRange) (hinv : s.TreeInv root) (hflags : PlainFlags flags) :
    ∃ r s', ∀ fuel, R.pages < fuel →
      mapRange.loop root R.stop flags fuel s R.vaddr R.paddr = .ok (r, s') := by
  have hzero : R.Progress flags root s 0 s := .zero hinv
  have hloop := Progress.loop hinv hflags (R.pages + 1) hzero
    (fun j hj => absurd hj (Nat.not_lt_zero j)) (by omega)
  rw [page_zero, frame_zero] at hloop
  rcases hloop with ⟨s', hrun, _⟩ | ⟨m, s1, s', new, hrun, _⟩
  · exact ⟨0, s', fun fuel hfuel => loop_fuel_mono hfuel hrun⟩
  · exact ⟨-1, s', fun fuel hfuel => loop_fuel_mono hfuel hrun⟩

/-- A run over the range that returned: all pages are mapped and none was blocked,
    or the run stopped at the first blocked page. -/
theorem run_cases (hinv : s.TreeInv root) (hflags : PlainFlags flags) {fuel : Nat} {r : Int}
    (h : mapRange.loop root R.stop flags fuel s R.vaddr R.paddr = .ok (r, s')) :
    (r = 0 ∧ R.Progress flags root s R.pages s' ∧ ∀ j, j < R.pages → ¬ R.Blocked root s j) ∨
    (r = -1 ∧ ∃ m s1 new, m < R.pages ∧ R.Progress flags root s m s1 ∧
      s1.Grows flags root new s' ∧ s'.pageFrame root = s1.pageFrame root ∧ R.Blocked root s m ∧
      ∀ j, j < m → ¬ R.Blocked root s j) := by
  have hzero : R.Progress flags root s 0 s := .zero hinv
  have hmore := loop_fuel_mono (Nat.le_max_left fuel (R.pages + 1)) h
  have hloop := Progress.loop hinv hflags (max fuel (R.pages + 1)) hzero
    (fun j hj => absurd hj (Nat.not_lt_zero j)) (by omega)
  rw [page_zero, frame_zero, hmore] at hloop
  rcases hloop with ⟨s2, hrun, hdone⟩ | ⟨m, s1, s2, new, hrun, hstop⟩
  · cases hrun
    exact .inl ⟨rfl, hdone⟩
  · cases hrun
    exact .inr ⟨rfl, m, s1, new, hstop⟩

/-! ## Pages and bytes -/

/-- The pages of a call `map_range(vaddr, paddr, length)` whose end is `stop`. -/
def ofCall (vaddr paddr stop : Word) (clear : stop.toNat ≤ 2 ^ 64 - 4096)
    (short : stop.toNat ≤ (pageBase vaddr).toNat + 2 ^ 48) : PageRange where
  vaddr := pageBase vaddr
  paddr := pageBase paddr
  stop
  vaddr_aligned := pageBase_aligned vaddr
  paddr_aligned := pageBase_aligned paddr
  clear
  short

end PageRange

/-- The byte `k` bytes after `a`. -/
def nthByte (a : Word) (k : Nat) : Word := a + BitVec.ofNat 64 k

theorem nthByte_toNat {a : Word} {k : Nat} (h : a.toNat + k < 2 ^ 64) :
    (nthByte a k).toNat = a.toNat + k := by
  have hk : (BitVec.ofNat 64 k).toNat = k := toNat_ofNat_of_lt (by omega)
  unfold nthByte
  rw [toNat_add_of_lt (by omega), hk]

/-- The page of a byte, when the pages start at the page of `vaddr`. -/
theorem path_of_byte {vaddr stop : Word} (hclear : stop.toNat ≤ 2 ^ 64 - 4096) {k : Nat}
    (hk : vaddr.toNat + k < 2 ^ 64)
    (hj : (vaddr.toNat % 4096 + k) / 4096 ≤ spanPages (pageBase vaddr) stop) :
    path 4 (nthByte vaddr k)
      = path 4 (nthPage (pageBase vaddr) ((vaddr.toNat % 4096 + k) / 4096)) := by
  rw [path_four_eq_iff, pageNumber, pageNumber, nthByte_toNat hk, span_toNat hclear hj,
    pageBase_toNat]
  omega

theorem PageRange.path_of_byte {R : PageRange} {vaddr : Word} (hbase : R.vaddr = pageBase vaddr)
    {k : Nat} (hk : vaddr.toNat + k < 2 ^ 64)
    (hj : (vaddr.toNat % 4096 + k) / 4096 ≤ R.pages) :
    path 4 (nthByte vaddr k) = path 4 (R.page ((vaddr.toNat % 4096 + k) / 4096)) := by
  unfold PageRange.pages at hj
  rw [PageRange.page, hbase]
  rw [hbase] at hj
  exact EchOS.path_of_byte R.clear hk hj

/-- A range of bytes that ends clear of the last page of the address space. -/
def ClearRange (vaddr length : Word) : Prop := vaddr.toNat + length.toNat ≤ 2 ^ 64 - 4096

namespace ClearRange

variable {vaddr length : Word} (h : ClearRange vaddr length)

include h

theorem end_toNat : (vaddr + length).toNat = vaddr.toNat + length.toNat := by
  unfold ClearRange at h
  exact toNat_add_of_lt (by omega)

theorem stop_le : (vaddr + length).toNat ≤ 2 ^ 64 - 4096 := by
  rw [h.end_toNat]
  exact h

theorem span_eq : spanPages (pageBase vaddr) (vaddr + length)
    = (vaddr.toNat % 4096 + length.toNat + 4095) / 4096 := by
  unfold spanPages
  rw [h.end_toNat, pageBase_toNat]
  omega

/-- The page of a byte. -/
theorem page_of_byte {k : Nat} (hk : k < length.toNat) :
    (vaddr.toNat % 4096 + k) / 4096 < spanPages (pageBase vaddr) (vaddr + length) ∧
    path 4 (nthByte vaddr k)
      = path 4 (nthPage (pageBase vaddr) ((vaddr.toNat % 4096 + k) / 4096)) := by
  have hspan := h.span_eq
  have hlt : (vaddr.toNat % 4096 + k) / 4096 < spanPages (pageBase vaddr) (vaddr + length) := by
    omega
  have hbound : vaddr.toNat + length.toNat < 2 ^ 64 := by
    unfold ClearRange at h
    omega
  exact ⟨hlt, path_of_byte h.stop_le (by omega) hlt.le⟩

/-- A byte of each page. -/
theorem byte_of_page (hpos : 0 < length.toNat) {j : Nat}
    (hj : j < spanPages (pageBase vaddr) (vaddr + length)) :
    ∃ k, k < length.toNat ∧ path 4 (nthByte vaddr k) = path 4 (nthPage (pageBase vaddr) j) := by
  have hspan := h.span_eq
  have hbound : vaddr.toNat + length.toNat < 2 ^ 64 := by
    unfold ClearRange at h
    omega
  -- the first page holds the first byte, a later one its own first byte
  have hk : ∃ k, k < length.toNat ∧ (vaddr.toNat + k) / 4096 = vaddr.toNat / 4096 + j := by
    rcases Nat.eq_zero_or_pos j with hj0 | hj0
    · exact ⟨0, hpos, by omega⟩
    · exact ⟨j * 4096 - vaddr.toNat % 4096, by omega, by omega⟩
  obtain ⟨k, hk, hnum⟩ := hk
  refine ⟨k, hk, path_four_eq_iff.mpr ?_⟩
  unfold pageNumber
  rw [nthByte_toNat (by omega), span_toNat h.stop_le hj.le, pageBase_toNat]
  omega

end ClearRange

/-- A range of bytes in one canonical half, clear of the last page of the address
    space. -/
def CanonicalRange (vaddr length : Word) : Prop :=
  vaddr.toNat + length.toNat ≤ 2 ^ 47 ∨
  2 ^ 64 - 2 ^ 47 ≤ vaddr.toNat ∧ vaddr.toNat + length.toNat ≤ 2 ^ 64 - 4096

theorem CanonicalRange.end_toNat {vaddr length : Word} (h : CanonicalRange vaddr length) :
    (vaddr + length).toNat = vaddr.toNat + length.toNat := by
  unfold CanonicalRange at h
  exact toNat_add_of_lt (by omega)

section Bytes

variable {vaddr paddr length : Word} (h : CanonicalRange vaddr length)

/-- The pages of a range of bytes. -/
def CanonicalRange.range (paddr : Word) : PageRange :=
  .ofCall vaddr paddr (vaddr + length)
    (by
      have := h.end_toNat
      unfold CanonicalRange at h
      omega)
    (by
      have := h.end_toNat
      have := pageBase_toNat vaddr
      unfold CanonicalRange at h
      omega)

/-- Such a range is clear of the last page. -/
theorem CanonicalRange.clear (h : CanonicalRange vaddr length) : ClearRange vaddr length := by
  unfold CanonicalRange at h
  unfold ClearRange
  omega

theorem CanonicalRange.pages_eq (paddr : Word) :
    (h.range paddr).pages = (vaddr.toNat % 4096 + length.toNat + 4095) / 4096 :=
  h.clear.span_eq

/-- The page of a byte. -/
theorem CanonicalRange.page_of_byte (paddr : Word) {k : Nat} (hk : k < length.toNat) :
    (vaddr.toNat % 4096 + k) / 4096 < (h.range paddr).pages ∧
    path 4 (nthByte vaddr k)
      = path 4 ((h.range paddr).page ((vaddr.toNat % 4096 + k) / 4096)) :=
  h.clear.page_of_byte hk

/-- A byte of each page. -/
theorem CanonicalRange.byte_of_page (hpos : 0 < length.toNat) {j : Nat}
    (hj : j < (h.range paddr).pages) :
    ∃ k, k < length.toNat ∧ path 4 (nthByte vaddr k) = path 4 ((h.range paddr).page j) :=
  h.clear.byte_of_page hpos hj

section Targets

variable (hoff : vaddr.toNat % 4096 = paddr.toNat % 4096)
  (hphys : paddr.toNat + length.toNat ≤ 2 ^ 52) {j : Nat} (hj : j < (h.range paddr).pages)

include hoff hphys hj

/-- The frame of each page fits an entry. -/
theorem CanonicalRange.target_toNat :
    ((h.range paddr).target j).toNat = paddr.toNat / 4096 * 4096 + j * 4096 := by
  have hpages := h.pages_eq paddr
  have hbase : (h.range paddr).paddr.toNat = paddr.toNat / 4096 * 4096 := pageBase_toNat paddr
  have hlen := length.isLt
  have hbound : j * 4096 < vaddr.toNat % 4096 + length.toNat := by omega
  have hframe : ((h.range paddr).frame j).toNat = paddr.toNat / 4096 * 4096 + j * 4096 := by
    rw [PageRange.frame, nthPage_toNat (by omega), hbase]
  unfold PageRange.target
  rw [and_physAddrMask_of_aligned (by omega) (by omega), hframe]

/-- What a byte of the page is to translate to. -/
theorem CanonicalRange.target_add {k : Nat} (hk : k < length.toNat)
    (hpage : (vaddr.toNat % 4096 + k) / 4096 = j) :
    (h.range paddr).target j = pageBase (nthByte paddr k) ∧
      pageBase (nthByte paddr k) + (nthByte vaddr k &&& 0xFFF#64) = nthByte paddr k := by
  have htarget := h.target_toNat hoff hphys hj
  have hbound : vaddr.toNat + length.toNat < 2 ^ 64 := by
    unfold CanonicalRange at h
    omega
  have hv := nthByte_toNat (a := vaddr) (k := k) (by omega)
  have hp := nthByte_toNat (a := paddr) (k := k) (by omega)
  have hbase := pageBase_toNat (nthByte paddr k)
  have hlow := and_pageOffset_toNat (nthByte vaddr k)
  constructor
  · apply BitVec.eq_of_toNat_eq
    rw [htarget, hbase, hp]
    omega
  · apply BitVec.eq_of_toNat_eq
    rw [toNat_add_of_lt (by omega), hbase, hlow, hp, hv]
    omega

end Targets

end Bytes

/-- In memory at 2^52 `map_range` returns 0 and maps nothing. -/
theorem range_mapping_fails_high :
    System.Reachable oneBlock highMap (bootSystem oneBlock highMap) ∧
    (bootSystem oneBlock highMap).pml4 = some 0x10000000000000#64 ∧
    mapRange 2 (bootSystem oneBlock highMap).machine 0x10000000000000#64 0#64 0x5000#64 0x1000#64
      readWriteBit = .ok (0, highMapped) ∧
    translate highMapped.mem 0x10000000000000#64 (nthByte 0#64 0) = none :=
  ⟨bootSystem_reachable oneBlock highMap, rfl, rfl, by decide⟩

/-- **`map_range` maps exactly its range.**  In every reachable state, for a range
    in one canonical half, congruent addresses and frames that fit an entry, the
    call returns; with 0 each byte translates to its counterpart; pages outside
    the range translate as before; and with -1 a page of the range translates as
    before or as intended. -/
theorem range_mapping {storage : PmmStorage} {mmap : PhysicalMap} {sys : System}
    (h : System.Reachable storage mmap.toMemoryMap sys) {root : Word}
    (hroot : sys.pml4 = some root) {vaddr paddr length flags : Word}
    (hoff : vaddr.toNat % 4096 = paddr.toNat % 4096) (hpos : 0 < length.toNat)
    (hrange : CanonicalRange vaddr length) (hphys : paddr.toNat + length.toNat ≤ 2 ^ 52)
    (hflags : PlainFlags flags) :
    ∃ r s bound,
      (∀ fuel, bound ≤ fuel →
        mapRange fuel sys.machine root vaddr paddr length flags = .ok (r, s)) ∧
      (r = 0 ∨ r = -1) ∧
      (r = 0 → ∀ k, k < length.toNat →
        translate s.mem root (nthByte vaddr k) = some (nthByte paddr k)) ∧
      (∀ w, (∀ k, k < length.toNat → pageNumber w ≠ pageNumber (nthByte vaddr k)) →
        translate s.mem root w = translate sys.machine.mem root w) ∧
      (r = -1 → ∀ w k, k < length.toNat → pageNumber w = pageNumber (nthByte vaddr k) →
        translate s.mem root w = translate sys.machine.mem root w ∨
        translate s.mem root w = some (pageBase (nthByte paddr k) + (w &&& 0xFFF#64))) := by
  have htree := h.inv.tree root hroot
  obtain ⟨r, s, hcall⟩ := (hrange.range paddr).run_returns htree hflags
  -- a page that is none of the first `m`, or not in the range, is left alone
  have houtside : ∀ {m : Nat} {s1 : Machine},
      (hrange.range paddr).Progress flags root sys.machine m s1 → ∀ w,
      (∀ k, k < length.toNat → pageNumber w ≠ pageNumber (nthByte vaddr k)) →
      s1.pageFrame root w = sys.machine.pageFrame root w := by
    intro m s1 hprog w hw
    refine hprog.rest w fun j hj heq => ?_
    obtain ⟨k, hk, hbyte⟩ := hrange.byte_of_page hpos (Nat.lt_of_lt_of_le hj hprog.le)
    exact hw k hk (path_four_eq_iff.mp (heq.trans hbyte.symm))
  refine ⟨r, s, (hrange.range paddr).pages + 1, hcall, ?_⟩
  rcases (hrange.range paddr).run_cases htree hflags (hcall _ (Nat.le_refl _)) with
    ⟨rfl, hprog, _⟩ | ⟨rfl, m, s1, _, hm, hprog, _, hframe, _⟩
  · refine ⟨.inl rfl, fun _ k hk => ?_, fun w hw => translate_eq_of_pageFrame (houtside hprog w hw),
      fun h0 => absurd h0 (by decide)⟩
    obtain ⟨hj, hpath⟩ := hrange.page_of_byte paddr hk
    obtain ⟨htarget, hadd⟩ := hrange.target_add hoff hphys hj hk rfl
    have hdone := hprog.done _ hj
    rw [← Machine.pageFrame_congr hpath, htarget] at hdone
    rw [translate_of_pageFrame hdone, hadd]
  · refine ⟨.inr rfl, fun h0 => absurd h0 (by decide), fun w hw => ?_, fun _ w k hk hw => ?_⟩
    · apply translate_eq_of_pageFrame
      rw [hframe, houtside hprog w hw]
    · obtain ⟨hj, hpath⟩ := hrange.page_of_byte paddr hk
      have hw4 := (path_four_eq_iff.mpr hw).trans hpath
      rcases Nat.lt_or_ge ((vaddr.toNat % 4096 + k) / 4096) m with hbefore | hafter
      · -- reached: as intended
        right
        apply translate_of_pageFrame
        rw [hframe, Machine.pageFrame_congr hw4, hprog.done _ hbefore,
          (hrange.target_add hoff hphys hj hk rfl).1]
      · -- not reached: as before
        left
        apply translate_eq_of_pageFrame
        rw [hframe]
        refine hprog.rest w fun i hi heq => ?_
        have := PageRange.page_inj _ (by omega) hj (heq.symm.trans hw4)
        omega

/-- Mapping three bytes around the end of page 0x5000 in the six-page system. -/
theorem range_mapping_sixPages :
    ∃ r s bound,
      (∀ fuel, bound ≤ fuel → mapRange fuel sixPagesSystem.machine 0x1000#64 0x5FFE#64 0x7FFE#64 3#64
        readWriteBit = .ok (r, s)) ∧
      (r = 0 → ∀ k, k < (3#64 : Word).toNat →
        translate s.mem 0x1000#64 (nthByte 0x5FFE#64 k) = some (nthByte 0x7FFE#64 k)) := by
  have hoff : (0x5FFE#64 : Word).toNat % 4096 = (0x7FFE#64 : Word).toNat % 4096 := by decide
  have hrange : CanonicalRange 0x5FFE#64 3#64 := .inl (by decide)
  obtain ⟨r, s, bound, hcall, _, hzero, _⟩ := range_mapping sixPagesSystem_reachable
    sixPagesSystem_pml4 hoff (by decide) hrange (by decide) plainFlags_readWriteBit
  exact ⟨r, s, bound, hcall, hzero⟩

end EchOS
