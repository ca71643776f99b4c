/-
  EchOS.Kernel.Memory.MapRange

  `map_range`'s loop over a range of pages that does not wrap.

  `PageRange` carries what the loop relies on: page-aligned starts, an end clear
  of the last page, and no more pages than a 48-bit space has.  The loop invariant
  `Progress` says what has happened after `k` pages: the pages before are mapped
  as asked, everything else translates as before, the 2 MiB slots ahead are
  untouched, and the frames taken from the pmm are exactly one for each table
  that was missing (`needed`).

  `PageRange.Blocked` is decided by the state before the call; `loop_outcome`
  shows that the loop returns 0 when no page is blocked and otherwise stops with
  -1 at the first page that is.
-/
import EchOS.Kernel.Memory.MapSpan
import Mathlib.Data.Finset.Union

namespace EchOS

/-- The pages `map_range`'s loop goes over. -/
structure PageRange where
  vaddr : Word
  paddr : Word
  stop : Word
  vaddr_aligned : 4096 ∣ vaddr.toNat
  paddr_aligned : 4096 ∣ paddr.toNat
  clear : stop.toNat ≤ 2 ^ 64 - 4096
  short : stop.toNat ≤ vaddr.toNat + 2 ^ 48

namespace PageRange

variable (R : PageRange)

/-- How many pages there are. -/
def pages : Nat := (R.stop.toNat - R.vaddr.toNat + 4095) / 4096

/-- The `k`-th page. -/
def page (k : Nat) : Word := nthPage R.vaddr k

/-- The frame asked for the `k`-th page, as `map_range` passes it on. -/
def frame (k : Nat) : Word := nthPage R.paddr k

/-- The frame the `k`-th page is to be mapped to. -/
def target (k : Nat) : Word := R.frame k &&& physAddrMask

/-! ## Addresses of the pages -/

theorem pages_le : R.pages ≤ 2 ^ 36 := by
  have := R.short
  unfold pages
  omega

theorem page_toNat {k : Nat} (hk : k ≤ R.pages) : (R.page k).toNat = R.vaddr.toNat + k * 4096 :=
  span_toNat R.clear hk

theorem page_aligned (k : Nat) : 4096 ∣ (R.page k).toNat :=
  nthPage_aligned R.vaddr_aligned k

theorem page_lt_stop_iff {k : Nat} (hk : k ≤ R.pages) : R.page k < R.stop ↔ k < R.pages :=
  span_lt_iff R.clear hk

theorem page_add (k n : Nat) : nthPage (R.page k) n = R.page (k + n) := nthPage_add _ _ _

theorem frame_add (k n : Nat) : nthPage (R.frame k) n = R.frame (k + n) := nthPage_add _ _ _

/-- The pages of a range are distinct. -/
theorem page_inj {j k : Nat} (hj : j < R.pages) (hk : k < R.pages)
    (h : path 4 (R.page j) = path 4 (R.page k)) : j = k := by
  have halign := R.vaddr_aligned
  have hle := R.pages_le
  have hnum := path_four_eq_iff.mp h
  unfold pageNumber at hnum
  rw [R.page_toNat hj.le, R.page_toNat hk.le] at hnum
  omega

/-! ## 2 MiB steps -/

/-- The test for a 2 MiB step holds at the `k`-th page. -/
def Fits (k : Nat) : Prop := LargeFits (R.page k) (R.frame k) R.stop

instance (k : Nat) : Decidable (R.Fits k) := inferInstanceAs (Decidable (LargeFits _ _ _))

section Fits

variable {R} {k : Nat} (hk : k < R.pages) (hfits : R.Fits k)

include hk hfits

/-- The numbers behind the test. -/
theorem Fits.toNat :
    (R.vaddr.toNat + k * 4096) % 2 ^ 21 = 0 ∧ (R.frame k).toNat % 2 ^ 21 = 0 ∧
      R.vaddr.toNat + k * 4096 + 2 ^ 21 ≤ R.stop.toNat :=
  span_fits R.clear hk hfits

theorem Fits.add_le : k + 512 ≤ R.pages := span_fits_add_le R.clear hk hfits

/-- The 512 pages of a 2 MiB step are one region. -/
theorem Fits.path_three_iff {j : Nat} (hj : j < R.pages) :
    path 3 (R.page j) = path 3 (R.page k) ↔ k ≤ j ∧ j < k + 512 := by
  obtain ⟨hv, _, hroom⟩ := hfits.toNat hk
  have hle := R.pages_le
  have hadd := hfits.add_le hk
  rw [path_three_eq_iff, regionNumber, regionNumber, R.page_toNat hj.le, R.page_toNat hk.le]
  omega

/-- Every page of the region is one of them. -/
theorem Fits.exists_page {w : Word} (h : path 3 w = path 3 (R.page k)) :
    ∃ j, k ≤ j ∧ j < k + 512 ∧ path 4 w = path 4 (R.page j) := by
  obtain ⟨hv, _, _⟩ := hfits.toNat hk
  have hadd := hfits.add_le hk
  rw [path_three_eq_iff, regionNumber, regionNumber, R.page_toNat hk.le] at h
  refine ⟨k + w.toNat / 4096 % 512, by omega, by omega, ?_⟩
  rw [path_four_eq_iff, pageNumber, pageNumber, R.page_toNat (by omega)]
  omega

/-- The 2 MiB leaf maps each of them to its own target. -/
theorem Fits.largeFrame_target {j : Nat} (hkj : k ≤ j) (hj : j < k + 512) :
    Machine.largeFrame (R.target k) (R.page j) = R.target j := by
  obtain ⟨hv, hp, hroom⟩ := hfits.toNat hk
  have hadd := hfits.add_le hk
  have hframe : (R.frame j).toNat = (R.frame k).toNat + (j - k) * 4096 := by
    have hlt := (R.frame k).isLt
    have hsplit : R.frame j = nthPage (R.frame k) (j - k) := by
      rw [R.frame_add, Nat.add_sub_cancel' hkj]
    rw [hsplit, nthPage_toNat (by omega)]
  apply BitVec.eq_of_toNat_eq
  unfold target
  rw [Machine.largeFrame_toNat, and_physAddrMask_toNat, and_physAddrMask_toNat, hframe,
    R.page_toNat (by omega)]
  omega

end Fits

/-! ## What the state before the call decides -/

section Before

variable (root : Word) (s0 : Machine)

/-- The loop takes a 2 MiB step at the `k`-th page, if it gets there. -/
def LargeStep (k : Nat) : Prop := R.Fits k ∧ s0.tableAt root (path 3 (R.page k)) = none

instance (k : Nat) : Decidable (R.LargeStep root s0 k) :=
  inferInstanceAs (Decidable (_ ∧ _))

/-- The `j`-th page is mapped by a 2 MiB step. -/
def Covered (j : Nat) : Prop := ∃ k, k < j + 1 ∧ j < k + 512 ∧ R.LargeStep root s0 k

instance (j : Nat) : Decidable (R.Covered root s0 j) :=
  inferInstanceAs (Decidable (∃ k, k < j + 1 ∧ j < k + 512 ∧ R.LargeStep root s0 k))

/-- The tables that mapping the `j`-th page goes through, the PML4 left out: no
    page table where a 2 MiB page is there or will be. -/
def needs (j : Nat) : Finset (List Index) :=
  tablePaths (if R.Covered root s0 j ∨ s0.leafAt root (path 3 (R.page j)) ≠ none then 2 else 3)
    (R.page j)

/-- The tables missing for the pages before `k`. -/
def needed (k : Nat) : Finset (List Index) :=
  s0.missing root ((Finset.range k).biUnion (R.needs root s0))

/-- The `j`-th page lies under a 2 MiB page that maps it elsewhere, and is not
    part of a 2 MiB step. -/
def Clash (j : Nat) : Prop :=
  ¬ R.Covered root s0 j ∧
    ∃ b, s0.leafAt root (path 3 (R.page j)) = some b ∧
      Machine.largeFrame b (R.page j) ≠ R.target j

/-- The loop cannot get past the `j`-th page: a clash, or more tables missing up
    to it than there are free frames. -/
def Blocked (j : Nat) : Prop :=
  R.Clash root s0 j ∨ s0.pmm.freeCount < (R.needed root s0 (j + 1)).card

end Before

section Needed

variable {R} {root : Word} {s0 : Machine}

theorem needed_mono {j k : Nat} (h : j ≤ k) : R.needed root s0 j ⊆ R.needed root s0 k := by
  unfold needed Machine.missing
  refine Finset.filter_subset_filter _ (Finset.biUnion_subset_biUnion_of_subset_left _ ?_)
  exact Finset.range_subset_range.mpr h

/-- Pages that need the same tables. -/
theorem needed_add {k n : Nat} (hn : 0 < n) {paths : Finset (List Index)}
    (h : ∀ j, k ≤ j → j < k + n → R.needs root s0 j = paths) :
    R.needed root s0 (k + n) = R.needed root s0 k ∪ s0.missing root paths := by
  unfold needed Machine.missing
  rw [← Finset.filter_union]
  congr 1
  ext q
  rw [Finset.mem_union, Finset.mem_biUnion, Finset.mem_biUnion]
  constructor
  · rintro ⟨j, hj, hq⟩
    rw [Finset.mem_range] at hj
    rcases Nat.lt_or_ge j k with hlt | hge
    · exact .inl ⟨j, Finset.mem_range.mpr hlt, hq⟩
    · exact .inr (h j hge hj ▸ hq)
  · rintro (⟨j, hj, hq⟩ | hq)
    · rw [Finset.mem_range] at hj
      exact ⟨j, Finset.mem_range.mpr (by omega), hq⟩
    · exact ⟨k, Finset.mem_range.mpr (by omega), (h k (Nat.le_refl k) (by omega)).symm ▸ hq⟩

theorem mem_needs_length {j : Nat} {q : List Index} (h : q ∈ R.needs root s0 j)
    (hlen : q.length = 3) : q = path 3 (R.page j) := by
  obtain ⟨d, _, rfl⟩ := mem_tablePaths.mp h
  rw [path_length] at hlen
  rw [hlen]

/-- A page of a region that is covered needs no page table. -/
theorem not_mem_needed {k : Nat} (hk : k < R.pages) (hfits : R.Fits k) :
    path 3 (R.page k) ∉ R.needed root s0 k := by
  intro hmem
  obtain ⟨hmem, _⟩ := Machine.mem_missing.mp hmem
  obtain ⟨j, hj, hq⟩ := Finset.mem_biUnion.mp hmem
  rw [Finset.mem_range] at hj
  have heq := mem_needs_length hq (path_length 3 _)
  have := (hfits.path_three_iff hk (Nat.lt_trans hj hk)).mp heq.symm
  omega

theorem needs_of_largeStep {k : Nat} (hk : k < R.pages) (h : R.LargeStep root s0 k) {j : Nat}
    (hkj : k ≤ j) (hj : j < k + 512) : R.needs root s0 j = tablePaths 2 (R.page k) := by
  have hcov : R.Covered root s0 j := ⟨k, by omega, hj, h⟩
  have hadd := h.1.add_le hk
  have h3 := (h.1.path_three_iff hk (by omega)).mpr ⟨hkj, hj⟩
  have h2 := path_two_eq_of_path_three_eq h3
  have h1 := path_one_eq_of_path_two_eq h2
  have htwo : ∀ v, tablePaths 2 v = {path 1 v} ∪ {path 2 v} := fun v => by
    rw [tablePaths_succ, tablePaths_succ]
    rfl
  unfold needs
  rw [if_pos (.inl hcov), htwo, htwo, h1, h2]

end Needed

/-! ## The loop invariant -/

/-- The machine after the loop has mapped the pages before `k`. -/
structure Progress (flags root : Word) (s0 : Machine) (k : Nat) (s : Machine) : Prop where
  le : k ≤ R.pages
  /-- `k` is not inside a 2 MiB step. -/
  start : ∀ j, j < k → R.LargeStep root s0 j → j + 512 ≤ k
  grows : s0.Grows flags root (R.needed root s0 k) s
  done : ∀ j, j < k → s.pageFrame root (R.page j) = some (R.target j)
  rest : ∀ w, (∀ j, j < k → path 4 w ≠ path 4 (R.page j)) →
    s.pageFrame root w = s0.pageFrame root w
  ahead : ∀ j, k ≤ j → j < R.pages →
    s.leafAt root (path 3 (R.page j)) = s0.leafAt root (path 3 (R.page j))

variable {R} {flags root : Word} {s0 s s' : Machine} {k : Nat}

theorem Progress.zero (hinv : s0.TreeInv root) : R.Progress flags root s0 0 s0 where
  le := Nat.zero_le _
  start j hj := absurd hj (Nat.not_lt_zero j)
  grows := .refl hinv
  done j hj := absurd hj (Nat.not_lt_zero j)
  rest _ _ := rfl
  ahead _ _ _ := rfl

section Step

variable (hinv : s0.TreeInv root) (h : R.Progress flags root s0 k s) (hk : k < R.pages)

include h

/-- The frames taken so far were there. -/
theorem Progress.needed_le (hinv : s0.TreeInv root) :
    (R.needed root s0 k).card ≤ s0.pmm.freeCount := by
  have := h.grows.freeCount_add hinv.pmm
  omega

theorem Progress.notCovered (hlarge : ¬ R.LargeStep root s0 k) : ¬ R.Covered root s0 k := by
  rintro ⟨j, hj, hlt, hstep⟩
  rcases Nat.lt_or_ge j k with hjk | hjk
  · have := h.start j hjk hstep
    omega
  · exact hlarge (show j = k by omega ▸ hstep)

include hk

/-- At a page where the test holds, the page table is missing now if it was
    missing before the call. -/
theorem Progress.largeStep_iff :
    LargeFits (R.page k) (R.frame k) R.stop ∧ s.tableAt root (path 3 (R.page k)) = none ↔
      R.LargeStep root s0 k := by
  refine and_congr_right fun hfits => ?_
  rw [h.grows.tableAt_eq_none_iff]
  exact and_iff_left (not_mem_needed hk hfits)

/-- The needs of the page the loop stands at. -/
theorem Progress.needs_eq (hleaf : s.leafAt root (path 3 (R.page k)) = none) :
    R.needs root s0 k = tablePaths (if LargeFits (R.page k) (R.frame k) R.stop ∧
      s.tableAt root (path 3 (R.page k)) = none then 2 else 3) (R.page k) := by
  rw [h.ahead k (Nat.le_refl k) hk] at hleaf
  unfold needs
  by_cases hlarge : R.LargeStep root s0 k
  · rw [if_pos ((h.largeStep_iff hk).mpr hlarge), if_pos (.inl ⟨k, by omega, by omega, hlarge⟩)]
  · rw [if_neg fun h' => hlarge ((h.largeStep_iff hk).mp h'), if_neg]
    rintro (hcov | hsome)
    · exact h.notCovered hlarge hcov
    · exact hsome hleaf

/-- No frame is needed for a page that is covered by a 2 MiB page already. -/
theorem Progress.needed_succ_of_leaf {b : Word}
    (hleaf : s.leafAt root (path 3 (R.page k)) = some b) :
    R.needed root s0 (k + 1) = R.needed root s0 k := by
  rw [h.ahead k (Nat.le_refl k) hk] at hleaf
  have hneeds : R.needs root s0 k = tablePaths 2 (R.page k) := by
    unfold needs
    rw [if_pos (.inr (ne_of_eq_of_ne hleaf (Option.some_ne_none b)))]
  have hadd : R.needed root s0 (k + 1)
      = R.needed root s0 k ∪ s0.missing root (tablePaths 2 (R.page k)) :=
    needed_add Nat.one_pos fun j hkj hj => by rw [show j = k by omega, hneeds]
  rw [hadd, Machine.missing_tablePaths_eq_empty (Machine.tableAt_isSome_of_leafAt hleaf),
    Finset.union_empty]

omit hk in
/-- Growing by the tables the state lacks is growing by the tables the state
    before the call lacked. -/
theorem Progress.grows_add {n : Nat} (hn : 0 < n) {paths : Finset (List Index)}
    (hneeds : ∀ j, k ≤ j → j < k + n → R.needs root s0 j = paths)
    (hgrows : s.Grows flags root (s.missing root paths) s') :
    s0.Grows flags root (R.needed root s0 (k + n)) s' := by
  have hunion : R.needed root s0 (k + n) = R.needed root s0 k ∪ s.missing root paths := by
    rw [needed_add hn hneeds, h.grows.missing_eq, Finset.union_sdiff_self_eq_union]
  rw [hunion]
  exact h.grows.trans hgrows

/-- A 2 MiB step. -/
theorem Progress.large (hlarge : R.LargeStep root s0 k)
    (hgrows : s.Grows flags root (s.missing root (tablePaths 2 (R.page k))) s')
    (hleaf : s'.leafAt root
      = Function.update (s.leafAt root) (path 3 (R.page k)) (some (R.target k))) :
    R.Progress flags root s0 (k + 512) s' := by
  have hfits := hlarge.1
  have hadd := hfits.add_le hk
  have hframe := Machine.pageFrame_update_large hleaf
  refine ⟨hadd, fun j hj hstep => ?_, h.grows_add (by decide) ?_ hgrows, fun j hj => ?_,
    fun w hw => ?_, fun j hkj hj => ?_⟩
  · rcases Nat.lt_or_ge j k with hjk | hjk
    · have := h.start j hjk hstep
      omega
    · -- two 2 MiB steps do not overlap
      have h1 := (hfits.toNat hk).1
      have h2 := (hstep.1.toNat (by omega)).1
      omega
  · exact fun j hkj hj => needs_of_largeStep hk hlarge hkj hj
  · rw [hframe]
    rcases Nat.lt_or_ge j k with hjk | hjk
    · rw [if_neg fun heq => ?_]
      · exact h.done j hjk
      · have := (hfits.path_three_iff hk (by omega)).mp heq
        omega
    · rw [if_pos ((hfits.path_three_iff hk (by omega)).mpr ⟨hjk, hj⟩),
        hfits.largeFrame_target hk hjk hj]
  · rw [hframe, if_neg fun heq => ?_]
    · exact h.rest w fun j hj => hw j (by omega)
    · obtain ⟨j, _, hj, heq4⟩ := hfits.exists_page hk heq
      exact hw j hj heq4
  · rw [hleaf, Function.update_of_ne fun heq => ?_]
    · exact h.ahead j (by omega) hj
    · have := (hfits.path_three_iff hk hj).mp heq
      omega

/-- A step of one page. -/
theorem Progress.one (hlarge : ¬ R.LargeStep root s0 k)
    (hgrows : s0.Grows flags root (R.needed root s0 (k + 1)) s')
    (hframe : ∀ w, s'.pageFrame root w
      = if path 4 w = path 4 (R.page k) then some (R.target k) else s.pageFrame root w)
    (hahead : ∀ j, s'.leafAt root (path 3 (R.page j)) = s.leafAt root (path 3 (R.page j))) :
    R.Progress flags root s0 (k + 1) s' := by
  refine ⟨hk, fun j hj hstep => ?_, hgrows, fun j hj => ?_, fun w hw => ?_, fun j hkj hj => ?_⟩
  · rcases Nat.lt_or_ge j k with hjk | hjk
    · have := h.start j hjk hstep
      omega
    · exact absurd ((show j = k by omega) ▸ hstep) hlarge
  · rw [hframe]
    by_cases hjk : j = k
    · rw [hjk, if_pos rfl]
    · rw [if_neg fun heq => hjk (R.page_inj (by omega) hk heq)]
      exact h.done j (by omega)
  · rw [hframe, if_neg (hw k (by omega))]
    exact h.rest w fun j hj => hw j (by omega)
  · rw [hahead]
    exact h.ahead j (by omega) hj

/-- A page that a 2 MiB page maps as asked. -/
theorem Progress.kept {b : Word} (hlarge : ¬ R.LargeStep root s0 k)
    (hcovered : s.leafAt root (path 3 (R.page k)) = some b)
    (hsame : Machine.largeFrame b (R.page k) = R.frame k &&& physAddrMask)
    (hgrows : s.Grows flags root ∅ s') (hleaf : s'.leafAt root = s.leafAt root) :
    R.Progress flags root s0 (k + 1) s' := by
  have hneeded := h.needed_succ_of_leaf hk hcovered
  have htotal : s0.Grows flags root (R.needed root s0 (k + 1)) s' := by
    have := h.grows.trans hgrows
    rw [Finset.union_empty, ← hneeded] at this
    exact this
  refine h.one hk hlarge htotal (fun w => ?_) fun j => congrFun hleaf _
  rw [Machine.pageFrame_eq_of_leafAt hleaf]
  split
  · next heq =>
      rw [Machine.pageFrame_congr heq, Machine.pageFrame_of_large hcovered, hsame]
      rfl
  · rfl

/-- A page that gets a page table entry. -/
theorem Progress.small (hlarge : ¬ R.LargeStep root s0 k)
    (huncovered : s.leafAt root (path 3 (R.page k)) = none)
    (hgrows : s.Grows flags root (s.missing root (tablePaths 3 (R.page k))) s')
    (hleaf : s'.leafAt root = Function.update (s.leafAt root) (path 4 (R.page k))
      (some (R.frame k &&& physAddrMask))) :
    R.Progress flags root s0 (k + 1) s' := by
  have hneeds := h.needs_eq hk huncovered
  rw [if_neg fun h' => hlarge ((h.largeStep_iff hk).mp h')] at hneeds
  have htotal := h.grows_add Nat.one_pos (fun j hkj hj => by
    rw [show j = k by omega]
    exact hneeds) hgrows
  refine h.one hk hlarge htotal (Machine.pageFrame_update_small hleaf huncovered) fun j => ?_
  rw [hleaf, Function.update_of_ne (path_ne_of_length_ne (by decide))]

/-- A 2 MiB page that maps the page elsewhere was there before the call. -/
theorem Progress.blocked_of_clash {b : Word} (hlarge : ¬ R.LargeStep root s0 k)
    (hcovered : s.leafAt root (path 3 (R.page k)) = some b)
    (hdiffers : Machine.largeFrame b (R.page k) ≠ R.frame k &&& physAddrMask) : R.Blocked root s0 k := by
  refine .inl ⟨h.notCovered hlarge, b, ?_, hdiffers⟩
  rw [← h.ahead k (Nat.le_refl k) hk]
  exact hcovered

/-- When the frames run out there were too few for the tables up to this page. -/
theorem Progress.blocked_of_starved (hinv : s0.TreeInv root) {depth : Nat}
    (hdepth : depth = if LargeFits (R.page k) (R.frame k) R.stop ∧
      s.tableAt root (path 3 (R.page k)) = none then 2 else 3)
    (huncovered : s.leafAt root (path 3 (R.page k)) = none)
    (hshort : s.pmm.freeCount < (s.missing root (tablePaths depth (R.page k))).card) :
    R.Blocked root s0 k := by
  have hneeds := h.needs_eq hk huncovered
  rw [← hdepth] at hneeds
  -- the tables missing now come on top of those already taken
  have hunion : R.needed root s0 (k + 1)
      = R.needed root s0 k ∪ s.missing root (tablePaths depth (R.page k)) := by
    rw [needed_add Nat.one_pos fun j hkj hj => by rw [show j = k by omega, hneeds],
      h.grows.missing_eq, Finset.union_sdiff_self_eq_union]
  have hdisj : Disjoint (R.needed root s0 k) (s.missing root (tablePaths depth (R.page k))) := by
    rw [h.grows.missing_eq]
    exact Finset.disjoint_sdiff
  have hcount := h.grows.freeCount_add hinv.pmm
  refine .inr ?_
  rw [hunion, Finset.card_union_of_disjoint hdisj]
  omega

omit h hk in
/-- A page is past as soon as its tables were there or could be had. -/
theorem Progress.not_short (hinv : s0.TreeInv root) {n j : Nat}
    (hnext : R.Progress flags root s0 n s') (hj : j < n) :
    ¬ s0.pmm.freeCount < (R.needed root s0 (j + 1)).card := by
  intro hlt
  have hsub : R.needed root s0 (j + 1) ⊆ R.needed root s0 n := needed_mono hj
  have hle := Finset.card_le_card hsub
  have := hnext.needed_le hinv
  omega

include hinv

/-- One turn of the loop: it moves on past pages that are not blocked, or it ends
    at a page that is, with the translation as it was. -/
theorem Progress.turn {advance : Option Nat}
    (hturn : s.Turn flags root (R.page k) (R.frame k) R.stop advance s') :
    (∃ n, advance = some n ∧ 0 < n ∧ R.Progress flags root s0 (k + n) s' ∧
      ∀ j, k ≤ j → j < k + n → ¬ R.Blocked root s0 j) ∨
    (advance = none ∧ R.Blocked root s0 k ∧ s'.pageFrame root = s.pageFrame root) := by
  have hstep := h.largeStep_iff hk
  cases hturn with
  | large fits noTable grows leaf =>
      have hlarge := hstep.mp ⟨fits, noTable⟩
      have hnext := h.large hk hlarge grows leaf
      refine .inl ⟨512, rfl, by decide, hnext, fun j hkj hj => ?_⟩
      rintro (hclash | hshort)
      · exact hclash.1 ⟨k, by omega, hj, hlarge⟩
      · exact Progress.not_short hinv hnext hj hshort
  | kept notLarge covered same grows leaf =>
      have hnext := h.kept hk (mt hstep.mpr notLarge) covered same grows leaf
      refine .inl ⟨1, rfl, Nat.one_pos, hnext, fun j hkj hj => ?_⟩
      rintro (⟨_, b, hb, hne⟩ | hshort)
      · have hjk : j = k := by omega
        rw [hjk, ← h.ahead k (Nat.le_refl k) hk, covered] at hb
        cases hb
        rw [hjk] at hne
        exact hne same
      · exact Progress.not_short hinv hnext hj hshort
  | small notLarge uncovered grows leaf =>
      have hnext := h.small hk (mt hstep.mpr notLarge) uncovered grows leaf
      refine .inl ⟨1, rfl, Nat.one_pos, hnext, fun j hkj hj => ?_⟩
      rintro (⟨_, b, hb, _⟩ | hshort)
      · rw [show j = k by omega, ← h.ahead k (Nat.le_refl k) hk, uncovered] at hb
        cases hb
      · exact Progress.not_short hinv hnext hj hshort
  | clash notLarge covered differs grows leaf =>
      exact .inr ⟨rfl, h.blocked_of_clash hk (mt hstep.mpr notLarge) covered differs,
        Machine.pageFrame_eq_of_leafAt leaf⟩
  | starved depth_eq uncovered short grows leaf =>
      exact .inr ⟨rfl, h.blocked_of_starved hk hinv depth_eq uncovered short,
        Machine.pageFrame_eq_of_leafAt leaf⟩

end Step

/-! ## Whole runs -/

/-- The loop from the `k`-th page on: it returns 0 after all pages, none of them
    blocked, or -1 at the first blocked page, with the pages before it mapped. -/
theorem Progress.loop (hinv : s0.TreeInv root) (hflags : PlainFlags flags) (fuel : Nat)
    (h : R.Progress flags root s0 k s) (hbefore : ∀ j, j < k → ¬ R.Blocked root s0 j)
    (hfuel : R.pages - k < fuel) :
    (∃ s', mapRange.loop root R.stop flags fuel s (R.page k) (R.frame k) = .ok (0, s') ∧
      R.Progress flags root s0 R.pages s' ∧ ∀ j, j < R.pages → ¬ R.Blocked root s0 j) ∨
    (∃ m s1 s' new, mapRange.loop root R.stop flags fuel s (R.page k) (R.frame k) = .ok (-1, s') ∧
      m < R.pages ∧ R.Progress flags root s0 m s1 ∧ s1.Grows flags root new s' ∧
      s'.pageFrame root = s1.pageFrame root ∧ R.Blocked root s0 m ∧
      ∀ j, j < m → ¬ R.Blocked root s0 j) := by
  induction fuel generalizing s k with
  | zero => omega
  | succ fuel ih =>
      by_cases hk : k < R.pages
      · have hlt : R.page k < R.stop := (R.page_lt_stop_iff hk.le).mpr hk
        obtain ⟨advance, s1, hturn, hloop⟩ :=
          loop_turn (p := R.frame k) h.grows.inv hflags (R.page_aligned k) hlt
        rw [hloop]
        rcases h.turn hinv hk hturn with ⟨n, rfl, hn, hnext, hfree⟩ | ⟨rfl, hblocked, hframe⟩
        -- the turn passes `n` pages, 1 or 512, none of them blocked
        · have hstep : afterTurn root R.stop flags fuel s1 (R.page k) (R.frame k) (some n)
              = mapRange.loop root R.stop flags fuel s1 (R.page (k + n)) (R.frame (k + n)) := by
            rw [← R.page_add, ← R.frame_add]
            rfl
          rw [hstep]
          refine ih hnext (fun j hj => ?_) (by omega)
          rcases Nat.lt_or_ge j k with hjk | hjk
          · exact hbefore j hjk
          · exact hfree j hjk hj
        · obtain ⟨new, hgrows⟩ := hturn.grows
          exact .inr ⟨k, s, s1, new, rfl, hk, h, hgrows, hframe, hblocked, hbefore⟩
      · have hend : k = R.pages := Nat.le_antisymm h.le (Nat.le_of_not_lt hk)
        have hlt : ¬ R.page k < R.stop := fun hlt => hk ((R.page_lt_stop_iff h.le).mp hlt)
        refine .inl ⟨s, ?_, hend ▸ h, hend ▸ hbefore⟩
        rw [mapRange.loop, if_neg hlt]

end PageRange

end EchOS
