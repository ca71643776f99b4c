/-
  EchOS.Kernel.Memory.MapSpan

  `map_range`'s loop over the pages from `v` up to an end that is clear of the last
  page of the address space: however many pages there are, and whatever the flags.

  Only the cursor matters here.  A turn moves it on without wrapping and not past
  the last page (`EntryTurn.span`), which bounds the number of turns
  (`loop_span_returns`) and gives the induction over the pages `loop_span_induct`.
-/
import EchOS.Kernel.Memory.MapTurn

namespace EchOS

theorem largeFits_iff {v p stop : Word} :
    LargeFits v p stop ↔
      v.toNat % 2 ^ 21 = 0 ∧ p.toNat % 2 ^ 21 = 0 ∧ 2 ^ 21 ≤ (stop - v).toNat := by
  unfold LargeFits
  rw [← BitVec.toNat_inj, ← BitVec.toNat_inj, and_largeOffset_toNat, and_largeOffset_toNat,
    BitVec.le_def]
  rfl

/-- How many pages the loop has from `v` on. -/
def spanPages (v stop : Word) : Nat := (stop.toNat - v.toNat + 4095) / 4096

section Span

variable {v p stop : Word} {k : Nat} (hclear : stop.toNat ≤ 2 ^ 64 - 4096)

include hclear

theorem span_end_lt : v.toNat + spanPages v stop * 4096 < 2 ^ 64 := by
  have := v.isLt
  unfold spanPages
  omega

theorem span_toNat (hk : k ≤ spanPages v stop) : (nthPage v k).toNat = v.toNat + k * 4096 := by
  have hend : v.toNat + spanPages v stop * 4096 < 2 ^ 64 := span_end_lt hclear
  -- every page starts below the end of the last one
  have hmul : k * 4096 ≤ spanPages v stop * 4096 := Nat.mul_le_mul_right 4096 hk
  exact nthPage_toNat (Nat.lt_of_le_of_lt (Nat.add_le_add_left hmul _) hend)

theorem span_lt_iff (hk : k ≤ spanPages v stop) : nthPage v k < stop ↔ k < spanPages v stop := by
  rw [BitVec.lt_def, span_toNat hclear hk]
  unfold spanPages
  omega

/-- The numbers behind the test for a 2 MiB step. -/
theorem span_fits (hk : k < spanPages v stop) (hfits : LargeFits (nthPage v k) p stop) :
    (v.toNat + k * 4096) % 2 ^ 21 = 0 ∧ p.toNat % 2 ^ 21 = 0 ∧
      v.toNat + k * 4096 + 2 ^ 21 ≤ stop.toNat := by
  have hlt : nthPage v k < stop := (span_lt_iff hclear hk.le).mpr hk
  have hpage := span_toNat hclear hk.le
  obtain ⟨hv, hp, hroom⟩ := largeFits_iff.mp hfits
  rw [hpage] at hv
  rw [BitVec.toNat_sub, hpage] at hroom
  rw [BitVec.lt_def, hpage] at hlt
  have := stop.isLt
  exact ⟨hv, hp, by omega⟩

theorem span_fits_add_le (hk : k < spanPages v stop) (hfits : LargeFits (nthPage v k) p stop) :
    k + 512 ≤ spanPages v stop := by
  have := (span_fits hclear hk hfits).2.2
  unfold spanPages
  omega

end Span

/-! ## The pages of one turn -/

/-- Every page of a 2 MiB region is one of the 512 from its first. -/
theorem exists_page_of_region {v w : Word} (hv : v.toNat % 2 ^ 21 = 0) (h : path 3 w = path 3 v) :
    ∃ j, j < 512 ∧ path 4 w = path 4 (nthPage v j) := by
  have hlt := v.isLt
  rw [path_three_eq_iff, regionNumber, regionNumber] at h
  refine ⟨w.toNat / 4096 % 512, by omega, ?_⟩
  rw [path_four_eq_iff, pageNumber, pageNumber, nthPage_toNat (by omega)]
  omega

/-- The 512 pages from the first page of a region lie in it. -/
theorem path_three_nthPage {v : Word} (hv : v.toNat % 2 ^ 21 = 0) {j : Nat} (hj : j < 512) :
    path 3 (nthPage v j) = path 3 v := by
  have hlt := v.isLt
  rw [path_three_eq_iff, regionNumber, regionNumber, nthPage_toNat (by omega)]
  omega

namespace Machine

variable {flags root v p stop : Word} {s s' : Machine} {n : Nat}

/-- A turn changes no page but those it goes over. -/
theorem EntryTurn.pageEntry_eq (h : s.EntryTurn flags root v p stop (some n) s') {w : Word}
    (hw : ∀ j, j < n → path 4 w ≠ path 4 (nthPage v j)) :
    s'.pageEntry root w = s.pageEntry root w := by
  cases h with
  | large fits noTable rewrites =>
      rw [pageEntry_update_large rewrites.leaves_eq, if_neg]
      intro heq
      obtain ⟨j, hj, heq4⟩ := exists_page_of_region (largeFits_iff.mp fits).1 heq
      exact hw j hj heq4
  | kept notLarge covered same rewrites => rw [pageEntry_of_same rewrites.leaves_eq]
  | small notLarge uncovered rewrites =>
      rw [pageEntry_update_small rewrites.leaves_eq uncovered, if_neg]
      have hfirst := hw 0 Nat.one_pos
      rwa [nthPage_zero] at hfirst

/-- A turn that ends the loop changes no page. -/
theorem EntryTurn.pageEntry_of_none (h : s.EntryTurn flags root v p stop none s') :
    s'.pageEntry root = s.pageEntry root := by
  cases h with
  | clash _ _ _ rewrites => exact pageEntry_of_same rewrites.leaves_eq
  | starved _ _ _ rewrites => exact pageEntry_of_same rewrites.leaves_eq

/-- The pages a turn goes over are mapped afterwards. -/
theorem EntryTurn.present (h : s.EntryTurn flags root v p stop (some n) s') {j : Nat} (hj : j < n) :
    s'.pageEntry root (nthPage v j) ≠ none := by
  cases h with
  | large fits noTable rewrites =>
      rw [pageEntry_update_large rewrites.leaves_eq,
        if_pos (path_three_nthPage (largeFits_iff.mp fits).1 hj)]
      exact Option.some_ne_none _
  | kept notLarge covered same rewrites =>
      rw [show j = 0 by omega, nthPage_zero, pageEntry_of_same rewrites.leaves_eq,
        pageEntry_of_large covered]
      exact Option.some_ne_none _
  | small notLarge uncovered rewrites =>
      rw [show j = 0 by omega, nthPage_zero, pageEntry_update_small rewrites.leaves_eq uncovered,
        if_pos rfl]
      exact Option.some_ne_none _

/-- What was mapped stays mapped. -/
theorem EntryTurn.mapped (h : s.EntryTurn flags root v p stop (some n) s') {w : Word}
    (hw : s.pageEntry root w ≠ none) : s'.pageEntry root w ≠ none := by
  cases h with
  | large fits noTable rewrites =>
      rw [pageEntry_update_large rewrites.leaves_eq]
      split
      · exact Option.some_ne_none _
      · exact hw
  | kept notLarge covered same rewrites =>
      rw [pageEntry_of_same rewrites.leaves_eq]
      exact hw
  | small notLarge uncovered rewrites =>
      rw [pageEntry_update_small rewrites.leaves_eq uncovered]
      split
      · exact Option.some_ne_none _
      · exact hw

/-- The cursor moves on, and not past the last page. -/
theorem EntryTurn.span (hclear : stop.toNat ≤ 2 ^ 64 - 4096) {k : Nat} (hk : k < spanPages v stop)
    (h : s.EntryTurn flags root (nthPage v k) p stop (some n) s') :
    0 < n ∧ k + n ≤ spanPages v stop := by
  cases h with
  | large fits _ _ => exact ⟨by decide, span_fits_add_le hclear hk fits⟩
  | kept _ _ _ _ => exact ⟨Nat.one_pos, hk⟩
  | small _ _ _ => exact ⟨Nat.one_pos, hk⟩

end Machine

/-! ## Whole runs -/

section Runs

variable {flags root v p stop : Word} {s s' : Machine} (hclear : stop.toNat ≤ 2 ^ 64 - 4096)

include hclear

theorem loop_span_returns_from {k fuel : Nat} (hinv : s.TreeInv root) (hk : k ≤ spanPages v stop)
    (hfuel : spanPages v stop - k < fuel) :
    ∃ r s', mapRange.loop root stop flags fuel s (nthPage v k) (nthPage p k) = .ok (r, s') := by
  induction fuel generalizing s k with
  | zero => omega
  | succ fuel ih =>
      by_cases hlt : nthPage v k < stop
      · have hkn := (span_lt_iff hclear hk).mp hlt
        obtain ⟨advance, s1, hturn, hentries⟩ :
            ∃ advance s1,
              mapRange.turn s root (nthPage v k) (nthPage p k) stop flags = .ok (advance, s1) ∧
              s.EntryTurn flags root (nthPage v k) (nthPage p k) stop advance s1 :=
          turn_cases hinv (nthPage v k) (nthPage p k)
        -- one turn, then the induction hypothesis for the pages behind it
        rw [loop_of_turn hlt hturn]
        cases advance with
        | none => exact ⟨-1, s1, rfl⟩
        | some n =>
            obtain ⟨_, _, hrewrites⟩ := hentries.rewrites
            obtain ⟨hn, hle⟩ := hentries.span hclear hkn
            rw [afterTurn, nthPage_add, nthPage_add]
            exact ih hrewrites.grows.inv hle (by omega)
      · rw [mapRange.loop, if_neg hlt]
        exact ⟨0, s, rfl⟩

/-- The loop returns within one turn a page. -/
theorem loop_span_returns (hinv : s.TreeInv root) {fuel : Nat} (hfuel : spanPages v stop < fuel) :
    ∃ r s', mapRange.loop root stop flags fuel s v p = .ok (r, s') := by
  rw [← nthPage_zero v, ← nthPage_zero p]
  exact loop_span_returns_from hclear hinv (Nat.zero_le _) (by omega)

/-- `loop_induct` over the pages of the span: with 0 the loop went over all of them. -/
theorem loop_span_induct {I : Nat → Machine → Prop} {J : Machine → Prop}
    (inv : ∀ k s, I k s → s.TreeInv root)
    (more : ∀ k s n s', k < spanPages v stop → k + n ≤ spanPages v stop → I k s →
      s.EntryTurn flags root (nthPage v k) (nthPage p k) stop (some n) s' → I (k + n) s')
    (stops : ∀ k s s', k < spanPages v stop → I k s →
      s.EntryTurn flags root (nthPage v k) (nthPage p k) stop none s' → J s')
    {fuel : Nat} {r : Int} (start : I 0 s)
    (h : mapRange.loop root stop flags fuel s v p = .ok (r, s')) :
    (r = 0 ∧ I (spanPages v stop) s') ∨ r = -1 ∧ J s' := by
  rw [← nthPage_zero v, ← nthPage_zero p] at h
  -- the cursor's bound goes along with the invariant
  have hrun := loop_induct (I := fun k s => k ≤ spanPages v stop ∧ I k s) (J := J)
    (fun k s hI => inv k s hI.2)
    (fun k s n s' hI hlt hturn => by
      have hk := (span_lt_iff hclear hI.1).mp hlt
      have hle := (hturn.span hclear hk).2
      exact ⟨hle, more k s n s' hk hle hI.2 hturn⟩)
    (fun k s s' hI hlt hturn => stops k s s' ((span_lt_iff hclear hI.1).mp hlt) hI.2 hturn)
    ⟨Nat.zero_le _, start⟩ h
  rcases hrun with ⟨rfl, m, ⟨hm, hI⟩, hge⟩ | hfail
  · rw [span_lt_iff hclear hm] at hge
    rw [show m = spanPages v stop by omega] at hI
    exact .inl ⟨rfl, hI⟩
  · exact .inr hfail

/-- A run changes no page but those of the span. -/
theorem loop_span_pageEntry (hinv : s.TreeInv root) {fuel : Nat} {r : Int}
    (h : mapRange.loop root stop flags fuel s v p = .ok (r, s')) {w : Word}
    (hw : ∀ j, j < spanPages v stop → path 4 w ≠ path 4 (nthPage v j)) :
    s'.pageEntry root w = s.pageEntry root w := by
  have hrun := loop_span_induct hclear
    (I := fun _ s1 => s1.TreeInv root ∧ s1.pageEntry root w = s.pageEntry root w)
    (J := fun s1 => s1.pageEntry root w = s.pageEntry root w) (fun _ _ h => h.1)
    (fun k s1 n s2 _ hle h hturn => by
      obtain ⟨_, _, hrewrites⟩ := hturn.rewrites
      refine ⟨hrewrites.grows.inv, (hturn.pageEntry_eq fun j hj => ?_).trans h.2⟩
      rw [nthPage_add]
      exact hw _ (by omega))
    (fun k s1 s2 _ h hturn => by rw [hturn.pageEntry_of_none, h.2])
    ⟨hinv, rfl⟩ h
  rcases hrun with ⟨_, _, hsame⟩ | ⟨_, hsame⟩
  · exact hsame
  · exact hsame

end Runs

end EchOS
