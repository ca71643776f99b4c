/-
  EchOS.Kernel.Memory.MapStall

  Runs of `map_range` that fail before they change anything.

  A page that is already mapped as asked costs the loop nothing: no table, no
  change of the translation (`Turn.of_mapped`).  A run over such pages up to one
  that cannot be mapped (`Machine.StuckAt`) returns -1 and leaves every
  translation as it was, for any addresses, also ranges that wrap.  For a
  `PageRange` the converse holds.
-/
import EchOS.Kernel.Memory.RangeMapping

namespace EchOS

namespace Machine

variable {flags root v p stop : Word} {s s' : Machine}

/-- The page `v` is mapped to the frame that an entry for `p` holds. -/
def Mapped (s : Machine) (root v p : Word) : Prop :=
  s.pageFrame root v = some (p &&& physAddrMask)

/-- The tables that mapping the page `v` goes through all exist when `v` is mapped. -/
theorem missing_eq_empty_of_pageFrame {x : Word} {depth : Nat} (hdepth : depth ≤ 3)
    (h : s.pageFrame root v = some x) (hleaf : s.leafAt root (path 3 v) = none) :
    s.missing root (tablePaths depth v) = ∅ := by
  rw [pageFrame_of_small hleaf] at h
  have hall := missing_tablePaths_eq_empty (tableAt_isSome_of_leafAt h)
  have hsub : s.missing root (tablePaths depth v) ⊆ s.missing root (tablePaths 3 v) :=
    Finset.filter_subset_filter _ (tablePaths_mono hdepth v)
  exact Finset.subset_empty.mp (hsub.trans hall.subset)

/-- The depth of the tables for a step of one size or the other. -/
theorem stepDepth_le (P : Prop) [Decidable P] : (if P then 2 else 3) ≤ 3 := by
  split
  · exact Nat.le_succ 2
  · exact Nat.le_refl 3

/-! ## 2 MiB pages that are mapped already -/

/-- Writing a 2 MiB leaf over one that maps the region's first page the same way
    changes no frame. -/
theorem largeFrame_of_same {b : Word} (hv : v.toNat % 2 ^ 21 = 0)
    (hsame : largeFrame b v = p &&& physAddrMask) (w : Word) :
    largeFrame (p &&& physAddrMask) w = largeFrame b w := by
  have hbase := congrArg BitVec.toNat hsame
  have hfirst : v.toNat / 4096 % 512 = 0 := by omega
  rw [largeFrame_toNat, hfirst, Nat.zero_mul, Nat.add_zero] at hbase
  apply BitVec.eq_of_toNat_eq
  rw [largeFrame_toNat, largeFrame_toNat, ← hbase, Nat.mul_div_cancel _ (by decide)]

/-- The pages of a 2 MiB page go to consecutive frames. -/
theorem mapped_of_largeLeaf {b : Word} (hv : v.toNat % 2 ^ 21 = 0) (hp : p.toNat % 2 ^ 21 = 0)
    (hleaf : s.leafAt root (path 3 v) = some b) (hsame : largeFrame b v = p &&& physAddrMask)
    {j : Nat} (hj : j < 512) : s.Mapped root (nthPage v j) (nthPage p j) := by
  have hvlt := v.isLt
  have hplt := p.isLt
  have hvj : (nthPage v j).toNat = v.toNat + j * 4096 := nthPage_toNat (by omega)
  have hpj : (nthPage p j).toNat = p.toNat + j * 4096 := nthPage_toNat (by omega)
  have hregion : path 3 (nthPage v j) = path 3 v := by
    rw [path_three_eq_iff, regionNumber, regionNumber, hvj]
    omega
  have hbase := congrArg BitVec.toNat hsame
  have hfirst : v.toNat / 4096 % 512 = 0 := by omega
  have hnth : (v.toNat + j * 4096) / 4096 % 512 = j := by omega
  have hfield : (p.toNat + j * 4096) / 4096 % 2 ^ 40 * 4096
      = p.toNat / 4096 % 2 ^ 40 * 4096 + j * 4096 := by omega
  rw [largeFrame_toNat, and_physAddrMask_toNat, hfirst, Nat.zero_mul, Nat.add_zero] at hbase
  rw [← hregion] at hleaf
  refine (pageFrame_of_large hleaf).trans (congrArg some (BitVec.eq_of_toNat_eq ?_))
  rw [largeFrame_toNat, and_physAddrMask_toNat, hvj, hpj, hnth, hbase, hfield]

/-! ## Turns at such pages -/

/-- Nothing but entries that already say the same has been written. -/
structure Same (root : Word) (s s' : Machine) : Prop where
  inv : s'.TreeInv root
  pageFrame : s'.pageFrame root = s.pageFrame root
  uncovered : ∀ v, s'.leafAt root (path 3 v) = none ↔ s.leafAt root (path 3 v) = none
  tableAt_none : ∀ q, s'.tableAt root q = none ↔ s.tableAt root q = none
  freeCount : s'.pmm.freeCount = s.pmm.freeCount

theorem Same.of_grows (hinv : s.TreeInv root) (hgrows : s.Grows flags root ∅ s')
    (hframe : s'.pageFrame root = s.pageFrame root)
    (huncovered : ∀ v, s'.leafAt root (path 3 v) = none ↔ s.leafAt root (path 3 v) = none) :
    s.Same root s' where
  inv := hgrows.inv
  pageFrame := hframe
  uncovered := huncovered
  tableAt_none q := by
    rw [hgrows.tableAt_eq_none_iff]
    exact and_iff_left (Finset.notMem_empty q)
  freeCount := hgrows.freeCount_add hinv.pmm

theorem Same.missing_eq (h : s.Same root s') (paths : Finset (List Index)) :
    s'.missing root paths = s.missing root paths :=
  Finset.filter_congr fun q _ => h.tableAt_none q

/-- A turn at a page that is mapped as asked goes on, past pages that are mapped
    as asked. -/
theorem Turn.of_mapped (hinv : s.TreeInv root) {advance : Option Nat}
    (h : s.Turn flags root v p stop advance s') (hmapped : s.Mapped root v p) :
    ∃ n, advance = some n ∧ 0 < n ∧ s.Same root s' ∧
      ∀ j, j < n → s.Mapped root (nthPage v j) (nthPage p j) := by
  have hfirst : ∀ j, j < 1 → s.Mapped root (nthPage v j) (nthPage p j) := by
    intro j hj
    rw [show j = 0 by omega, nthPage_zero, nthPage_zero]
    exact hmapped
  cases h with
  | large fits noTable grows leaf =>
      obtain ⟨hv, hp, _⟩ := largeFits_iff.mp fits
      -- without a page table only a 2 MiB leaf can map the page
      have hcovered : s.leafAt root (path 3 v) ≠ none := by
        intro hnone
        rw [Mapped, pageFrame_of_small hnone] at hmapped
        exact tableAt_isSome_of_leafAt hmapped noTable
      obtain ⟨b, hb⟩ := Option.ne_none_iff_exists'.mp hcovered
      have hsame : largeFrame b v = p &&& physAddrMask := by
        rw [Mapped, pageFrame_of_large hb] at hmapped
        exact Option.some.inj hmapped
      rw [missing_tablePaths_eq_empty (tableAt_isSome_of_leafAt hb)] at grows
      refine ⟨512, rfl, by decide, .of_grows hinv grows (funext fun w => ?_) fun w => ?_,
        fun j hj => mapped_of_largeLeaf hv hp hb hsame hj⟩
      · rw [pageFrame_update_large leaf]
        split
        · next heq =>
            rw [← heq] at hb
            rw [pageFrame_of_large hb, largeFrame_of_same hv hsame]
        · rfl
      · rw [leaf, Function.update_apply]
        split
        · next heq =>
            rw [heq, hb]
            exact iff_of_false (Option.some_ne_none _) (Option.some_ne_none _)
        · rfl
  | kept notLarge covered same grows leaf =>
      exact ⟨1, rfl, Nat.one_pos, .of_grows hinv grows (pageFrame_eq_of_leafAt leaf)
        fun w => by rw [leaf], hfirst⟩
  | small notLarge uncovered grows leaf =>
      rw [missing_eq_empty_of_pageFrame (Nat.le_refl 3) hmapped uncovered] at grows
      -- the entry written is the one that was there
      rw [Mapped, pageFrame_of_small uncovered] at hmapped
      rw [← hmapped, Function.update_eq_self] at leaf
      exact ⟨1, rfl, Nat.one_pos, .of_grows hinv grows (pageFrame_eq_of_leafAt leaf)
        fun w => by rw [leaf], hfirst⟩
  | clash notLarge covered differs grows leaf =>
      rw [Mapped, pageFrame_of_large covered] at hmapped
      exact absurd (Option.some.inj hmapped) differs
  | starved depth_eq uncovered short grows leaf =>
      rename_i depth new
      rw [missing_eq_empty_of_pageFrame (depth_eq ▸ stepDepth_le _) hmapped uncovered] at short
      exact absurd short (Nat.not_lt_zero _)

/-- A turn at the page `v` cannot map it: it lies under a 2 MiB page that maps it
    elsewhere and no 2 MiB step starts there, or more tables are missing than
    there are free frames. -/
def StuckAt (root : Word) (s : Machine) (v p stop : Word) : Prop :=
  s.leafAt root (path 3 v) ≠ none ∧ ¬ LargeFits v p stop ∧ ¬ s.Mapped root v p ∨
  s.leafAt root (path 3 v) = none ∧ s.pmm.freeCount < (s.missing root (tablePaths
    (if LargeFits v p stop ∧ s.tableAt root (path 3 v) = none then 2 else 3) v)).card

theorem StuckAt.congr (h : s.Same root s') (hstuck : s.StuckAt root v p stop) :
    s'.StuckAt root v p stop := by
  unfold StuckAt Mapped at hstuck ⊢
  rw [h.missing_eq, h.freeCount, h.pageFrame, h.uncovered, ne_eq, h.uncovered]
  simp only [h.tableAt_none]
  exact hstuck

/-- Such a turn ends the loop. -/
theorem Turn.of_stuckAt (hinv : s.TreeInv root) {advance : Option Nat}
    (h : s.Turn flags root v p stop advance s') (hstuck : s.StuckAt root v p stop) :
    advance = none ∧ s'.pageFrame root = s.pageFrame root := by
  have hroom : ∀ {depth : Nat}, s.Grows flags root (s.missing root (tablePaths depth v)) s' →
      ¬ s.pmm.freeCount < (s.missing root (tablePaths depth v)).card := by
    intro depth hgrows hlt
    have := hgrows.freeCount_add hinv.pmm
    omega
  cases h with
  | large fits noTable grows leaf =>
      rcases hstuck with ⟨_, hno, _⟩ | ⟨_, hshort⟩
      · exact absurd fits hno
      · rw [if_pos ⟨fits, noTable⟩] at hshort
        exact absurd hshort (hroom grows)
  | kept notLarge covered same grows leaf =>
      rcases hstuck with ⟨_, _, hno⟩ | ⟨hnone, _⟩
      · exact absurd ((pageFrame_of_large covered).trans (congrArg some same)) hno
      · rw [covered] at hnone
        cases hnone
  | small notLarge uncovered grows leaf =>
      rcases hstuck with ⟨hsome, _⟩ | ⟨_, hshort⟩
      · exact absurd uncovered hsome
      · rw [if_neg notLarge] at hshort
        exact absurd hshort (hroom grows)
  | clash notLarge covered differs grows leaf => exact ⟨rfl, pageFrame_eq_of_leafAt leaf⟩
  | starved depth_eq uncovered short grows leaf => exact ⟨rfl, pageFrame_eq_of_leafAt leaf⟩

/-- A page cannot be both. -/
theorem StuckAt.not_mapped (hstuck : s.StuckAt root v p stop) : ¬ s.Mapped root v p := by
  intro hmapped
  rcases hstuck with ⟨_, _, hno⟩ | ⟨hnone, hshort⟩
  · exact hno hmapped
  · rw [missing_eq_empty_of_pageFrame (stepDepth_le _) hmapped hnone] at hshort
    exact Nat.not_lt_zero _ hshort

/-- The loop meets pages that are mapped as asked, and then one it cannot map. -/
def Stalled (root : Word) (s : Machine) (v p stop : Word) : Prop :=
  ∃ c, (∀ j, j ≤ c → nthPage v j < stop) ∧
    (∀ j, j < c → s.Mapped root (nthPage v j) (nthPage p j)) ∧
    s.StuckAt root (nthPage v c) (nthPage p c) stop

end Machine

/-! ## Stalled runs -/

/-- A run that meets such pages returns -1 without a change of the translation. -/
theorem loop_stuckAt {flags root stop : Word} (hflags : PlainFlags flags) {c : Nat} {s : Machine}
    {v p : Word} (hinv : s.TreeInv root) (hv : 4096 ∣ v.toNat)
    (hlt : ∀ j, j ≤ c → nthPage v j < stop)
    (hmapped : ∀ j, j < c → s.Mapped root (nthPage v j) (nthPage p j))
    (hstuck : s.StuckAt root (nthPage v c) (nthPage p c) stop) :
    ∃ s', s'.pageFrame root = s.pageFrame root ∧
      ∀ fuel, c < fuel → mapRange.loop root stop flags fuel s v p = .ok (-1, s') := by
  induction c using Nat.strong_induction_on generalizing s v p with
  | _ c ih =>
      have hfirst := hlt 0 (Nat.zero_le c)
      rw [nthPage_zero] at hfirst
      obtain ⟨advance, s1, hturn, hloop⟩ := loop_turn (p := p) hinv hflags hv hfirst
      rcases Nat.eq_zero_or_pos c with rfl | hpos
      · rw [nthPage_zero, nthPage_zero] at hstuck
        obtain ⟨rfl, hframe⟩ := hturn.of_stuckAt hinv hstuck
        refine ⟨s1, hframe, fun fuel hfuel => ?_⟩
        obtain ⟨fuel, rfl⟩ := Nat.exists_eq_add_one_of_ne_zero (show fuel ≠ 0 by omega)
        exact hloop fuel
      · have hthis := hmapped 0 hpos
        rw [nthPage_zero, nthPage_zero] at hthis
        obtain ⟨n, rfl, hn, hsame, hmore⟩ := hturn.of_mapped hinv hthis
        -- the turn stops at the latest at the page that cannot be mapped
        have hnc : n ≤ c := by
          by_contra hgt
          exact hstuck.not_mapped (hmore c (by omega))
        have hstuck' := hstuck.congr hsame
        rw [show c = n + (c - n) by omega, ← nthPage_add, ← nthPage_add] at hstuck'
        obtain ⟨s', hframe, hrun⟩ := ih (c - n) (by omega) hsame.inv (nthPage_aligned hv n)
          (fun j hj => by
            rw [nthPage_add]
            exact hlt _ (by omega))
          (fun j hj => by
            rw [Machine.Mapped, hsame.pageFrame, nthPage_add, nthPage_add]
            exact hmapped _ (by omega))
          hstuck'
        refine ⟨s', hframe.trans hsame.pageFrame, fun fuel hfuel => ?_⟩
        obtain ⟨fuel, rfl⟩ := Nat.exists_eq_add_one_of_ne_zero (show fuel ≠ 0 by omega)
        rw [hloop]
        exact hrun fuel (by omega)

theorem Machine.Stalled.run {flags root v p stop : Word} {s s' : Machine} {r : Int} {fuel : Nat}
    (h : s.Stalled root v p stop) (hflags : PlainFlags flags) (hinv : s.TreeInv root)
    (hv : 4096 ∣ v.toNat) (hrun : mapRange.loop root stop flags fuel s v p = .ok (r, s')) :
    r = -1 ∧ s'.pageFrame root = s.pageFrame root := by
  obtain ⟨c, hlt, hmapped, hstuck⟩ := h
  obtain ⟨s1, hframe, hall⟩ := loop_stuckAt hflags hinv hv hlt hmapped hstuck
  have hmore := loop_fuel_mono (Nat.le_max_left fuel (c + 1)) hrun
  rw [hall _ (by omega)] at hmore
  cases hmore
  exact ⟨rfl, hframe⟩

namespace PageRange

variable {R : PageRange} {flags root : Word} {s s1 : Machine} {m : Nat}

/-- Pages that are mapped as asked need no table. -/
theorem needed_eq_empty (hmapped : ∀ j, j < m → s.Mapped root (R.page j) (R.frame j)) :
    R.needed root s m = ∅ := by
  refine Finset.filter_false_of_mem fun q hq => ?_
  obtain ⟨j, hj, hq⟩ := Finset.mem_biUnion.mp hq
  have hframe := hmapped j (Finset.mem_range.mp hj)
  have hexists : s.missing root (R.needs root s j) = ∅ := by
    unfold needs
    by_cases hleaf : s.leafAt root (path 3 (R.page j)) = none
    · exact Machine.missing_eq_empty_of_pageFrame (Machine.stepDepth_le _) hframe hleaf
    · obtain ⟨b, hb⟩ := Option.ne_none_iff_exists'.mp hleaf
      rw [if_pos (.inr hleaf)]
      exact Machine.missing_tablePaths_eq_empty (Machine.tableAt_isSome_of_leafAt hb)
  intro hnone
  have hmem : q ∈ s.missing root (R.needs root s j) := Machine.mem_missing.mpr ⟨hq, hnone⟩
  rw [hexists] at hmem
  cases hmem

/-- The first blocked page after pages that are mapped as asked cannot be mapped. -/
theorem stuckAt_of_blocked (hm : m < R.pages)
    (hmapped : ∀ j, j < m → s.Mapped root (R.page j) (R.frame j)) (h : R.Blocked root s m) :
    s.StuckAt root (R.page m) (R.frame m) R.stop := by
  rcases h with ⟨hcov, b, hb, hne⟩ | hshort
  · refine .inl ⟨ne_of_eq_of_ne hb (Option.some_ne_none b), fun hfits => ?_, fun hmap => ?_⟩
    · have hnone : s.tableAt root (path 3 (R.page m)) = none := Machine.tableAt_of_leafAt hb
      exact hcov ⟨m, by omega, by omega, hfits, hnone⟩
    · rw [Machine.Mapped, Machine.pageFrame_of_large hb] at hmap
      exact hne (Option.some.inj hmap)
  · have hneeded : R.needed root s (m + 1) = s.missing root (R.needs root s m) := by
      rw [needed_add Nat.one_pos fun j h1 h2 => by rw [show j = m by omega],
        needed_eq_empty hmapped, Finset.empty_union]
    rw [hneeded] at hshort
    have hleaf : s.leafAt root (path 3 (R.page m)) = none := by
      by_contra hsome
      obtain ⟨b, hb⟩ := Option.ne_none_iff_exists'.mp hsome
      rw [needs, if_pos (.inr hsome),
        Machine.missing_tablePaths_eq_empty (Machine.tableAt_isSome_of_leafAt hb)] at hshort
      exact Nat.not_lt_zero _ hshort
    -- a 2 MiB step that covers the page starts at it
    have hcov : R.Covered root s m ↔ R.LargeStep root s m := by
      refine ⟨fun ⟨k, hk, hlt, hstep⟩ => ?_, fun hstep => ⟨m, by omega, by omega, hstep⟩⟩
      rcases Nat.eq_or_lt_of_le (Nat.le_of_lt_succ hk) with hkm | hkm
      · exact hkm ▸ hstep
      · have hregion := (hstep.1.path_three_iff (by omega) hm).mpr ⟨hkm.le, hlt⟩
        have hframe := hmapped k hkm
        rw [hregion] at hleaf
        rw [Machine.Mapped, Machine.pageFrame_of_small hleaf] at hframe
        exact absurd hstep.2 (Machine.tableAt_isSome_of_leafAt hframe)
    have hor : (R.Covered root s m ∨ s.leafAt root (path 3 (R.page m)) ≠ none)
        ↔ R.LargeStep root s m := by
      rw [hcov]
      exact or_iff_left fun hsome => hsome hleaf
    simp only [needs, hor] at hshort
    exact .inr ⟨hleaf, hshort⟩

/-- A run that fails without a change of the translation was stalled. -/
theorem stalled_of_unchanged (hm : m < R.pages) (h : R.Progress flags root s m s1)
    (hframe : s1.pageFrame root = s.pageFrame root) (hblocked : R.Blocked root s m) :
    s.Stalled root R.vaddr R.paddr R.stop := by
  have hmapped : ∀ j, j < m → s.Mapped root (R.page j) (R.frame j) := fun j hj => by
    rw [Machine.Mapped, ← hframe]
    exact h.done j hj
  refine ⟨m, fun j hj => ?_, hmapped, stuckAt_of_blocked hm hmapped hblocked⟩
  exact (R.page_lt_stop_iff (by omega)).mpr (by omega)

end PageRange

end EchOS
