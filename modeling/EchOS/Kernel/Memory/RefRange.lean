/-
  EchOS.Kernel.Memory.RefRange

  `map_range` refines the same loop without its 2 MiB step.

  `refRange` is that loop.  Its invariant `RefProgress` speaks of the state before
  the call, as `Progress` does for `map_range`, so the two runs are never compared
  turn by turn: a run of `refRange` that succeeds shows that no page is blocked for
  `map_range`, and both have mapped each page to its target in the end.
-/
import EchOS.Kernel.Memory.RangeMapping

namespace EchOS

/-- The loop of `map_range` without the 2 MiB step. -/
def refRange.loop (pml4 «end» flags : Word) :
    (fuel : Nat) → Machine → (vaddr paddr : Word) → Except Abort (Int × Machine)
  | 0, _, _, _ => .error .outOfFuel
  | fuel + 1, s, vaddr, paddr =>
      if vaddr < «end» then do
        let (small, s) ← mapPage s pml4 vaddr paddr flags
        if small ≠ 0 then return (-1, s)
        else refRange.loop pml4 «end» flags fuel s (vaddr + frameSize) (paddr + frameSize)
      else .ok (0, s)

/-- `map_range` with one `map_page` for each page. -/
def refRange (fuel : Nat) (s : Machine) (pml4 vaddr paddr length flags : Word) :
    Except Abort (Int × Machine) :=
  refRange.loop pml4 (vaddr + length) flags fuel s (pageBase vaddr) (pageBase paddr)

/-- A turn that maps its page. -/
theorem refRange.loop_of_mapped {root stop flags v p : Word} {fuel : Nat} {s s' : Machine}
    (hlt : v < stop) (h : mapPage s root v p flags = .ok (0, s')) :
    refRange.loop root stop flags (fuel + 1) s v p
      = refRange.loop root stop flags fuel s' (v + frameSize) (p + frameSize) := by
  rw [refRange.loop, if_pos hlt, h]
  rfl

namespace PageRange

variable (R : PageRange)

/-! ## The tables that single pages need -/

section Before

variable (root : Word) (s0 : Machine)

/-- The tables that mapping the `j`-th page by itself goes through: no page table
    where a 2 MiB page is there. -/
def refNeeds (j : Nat) : Finset (List Index) :=
  tablePaths (if s0.leafAt root (path 3 (R.page j)) ≠ none then 2 else 3) (R.page j)

/-- The tables missing for the pages before `k`. -/
def refNeeded (k : Nat) : Finset (List Index) :=
  s0.missing root ((Finset.range k).biUnion (R.refNeeds root s0))

end Before

section Needed

variable {R} {root : Word} {s0 : Machine}

theorem refNeeded_succ (k : Nat) :
    R.refNeeded root s0 (k + 1) = R.refNeeded root s0 k ∪ s0.missing root (R.refNeeds root s0 k) := by
  unfold refNeeded Machine.missing
  rw [Finset.range_add_one, Finset.biUnion_insert, Finset.filter_union, Finset.union_comm]

/-- With 2 MiB steps no page needs more tables. -/
theorem needs_subset_refNeeds (j : Nat) : R.needs root s0 j ⊆ R.refNeeds root s0 j := by
  apply tablePaths_mono
  by_cases hleaf : s0.leafAt root (path 3 (R.page j)) ≠ none
  · rw [if_pos hleaf, if_pos (.inr hleaf)]
  · rw [if_neg hleaf]
    split
    · exact Nat.le_succ 2
    · exact Nat.le_refl 3

theorem needed_subset_refNeeded {j k : Nat} (h : j ≤ k) :
    R.needed root s0 j ⊆ R.refNeeded root s0 k := by
  refine (needed_mono h).trans (Finset.filter_subset_filter _ ?_)
  exact Finset.biUnion_mono fun j _ => needs_subset_refNeeds j

end Needed

/-! ## The loop invariant -/

/-- The machine after `refRange`'s loop has mapped the pages before `k`. -/
structure RefProgress (flags root : Word) (s0 : Machine) (k : Nat) (s : Machine) : Prop where
  le : k ≤ R.pages
  grows : s0.Grows flags root (R.refNeeded root s0 k) s
  done : ∀ j, j < k → s.pageFrame root (R.page j) = some (R.target j)
  rest : ∀ w, (∀ j, j < k → path 4 w ≠ path 4 (R.page j)) →
    s.pageFrame root w = s0.pageFrame root w
  /-- 2 MiB pages are never written. -/
  large : ∀ w, s.leafAt root (path 3 w) = s0.leafAt root (path 3 w)

variable {R} {flags root : Word} {s0 s s' : Machine} {k : Nat}

theorem RefProgress.zero (hinv : s0.TreeInv root) : R.RefProgress flags root s0 0 s0 where
  le := Nat.zero_le _
  grows := .refl hinv
  done j hj := absurd hj (Nat.not_lt_zero j)
  rest _ _ := rfl
  large _ := rfl

/-- A page is mapped. -/
theorem RefProgress.one (h : R.RefProgress flags root s0 k s) (hk : k < R.pages)
    {new : Finset (List Index)} (hgrows : s.Grows flags root new s')
    (hnew : new = s.missing root (R.refNeeds root s0 k))
    (hframe : ∀ w, s'.pageFrame root w
      = if path 4 w = path 4 (R.page k) then some (R.target k) else s.pageFrame root w)
    (hlarge : ∀ w, s'.leafAt root (path 3 w) = s.leafAt root (path 3 w)) :
    R.RefProgress flags root s0 (k + 1) s' := by
  have hunion : R.refNeeded root s0 (k + 1) = R.refNeeded root s0 k ∪ new := by
    rw [hnew, refNeeded_succ, h.grows.missing_eq, Finset.union_sdiff_self_eq_union]
  refine ⟨hk, hunion ▸ h.grows.trans hgrows, fun j hj => ?_, fun w hw => ?_,
    fun w => (hlarge w).trans (h.large w)⟩
  · rw [hframe]
    by_cases hjk : j = k
    · rw [hjk, if_pos rfl]
    · rw [if_neg fun heq => hjk (R.page_inj (by omega) hk heq)]
      exact h.done j (by omega)
  · rw [hframe, if_neg (hw k (Nat.lt_succ_self k))]
    exact h.rest w fun j hj => hw j (Nat.lt_succ_of_lt hj)

/-- One turn of the loop that goes on. -/
theorem RefProgress.turn (h : R.RefProgress flags root s0 k s) (hk : k < R.pages)
    (hflags : PlainFlags flags)
    (hcall : mapPage s root (R.page k) (R.frame k) flags = .ok (0, s')) :
    R.RefProgress flags root s0 (k + 1) s' := by
  have hneeds : R.refNeeds root s0 k
      = tablePaths (if s.leafAt root (path 3 (R.page k)) ≠ none then 2 else 3) (R.page k) := by
    rw [h.large]
    rfl
  rcases mapPage_cases h.grows.inv (R.page k) flags (R.frame k) hflags with
    ⟨b, s1, hleaf, hrun, hgrows, hsame⟩ | ⟨s1, _, hrun, _⟩ | ⟨s1, hleaf, hrun, hgrows, hupdate⟩
  · -- under a 2 MiB page, which maps it as asked because 0 came back
    have hoff : R.page k &&& 0xFFF#64 = 0#64 := by
      apply BitVec.eq_of_toNat_eq
      rw [and_pageOffset_toNat]
      exact Nat.mod_eq_zero_of_dvd (R.page_aligned k)
    rw [hoff, BitVec.add_zero, show R.frame k &&& physAddrMask = R.target k from rfl] at hrun
    have hfits : Machine.largeFrame b (R.page k) = R.target k := by
      by_contra hne
      rw [if_neg hne] at hrun
      cases hrun.symm.trans hcall
    rw [if_pos hfits] at hrun
    cases hrun.symm.trans hcall
    have hsome : s.leafAt root (path 3 (R.page k)) ≠ none :=
      ne_of_eq_of_ne hleaf (Option.some_ne_none b)
    refine h.one hk hgrows ?_ (fun w => ?_) fun w => congrFun hsame _
    · rw [hneeds, if_pos hsome,
        Machine.missing_tablePaths_eq_empty (Machine.tableAt_isSome_of_leafAt hleaf)]
    · rw [Machine.pageFrame_eq_of_leafAt hsame]
      split
      · next heq => rw [Machine.pageFrame_congr heq, Machine.pageFrame_of_large hleaf, hfits]
      · rfl
  · -- no frame left: -1 came back
    cases hrun.symm.trans hcall
  · cases hrun.symm.trans hcall
    refine h.one hk hgrows ?_ (Machine.pageFrame_update_small hupdate hleaf) fun w => ?_
    · rw [hneeds, if_neg (not_not_intro hleaf)]
    · rw [hupdate, Function.update_of_ne (path_ne_of_length_ne (by decide))]

/-- A run that returns 0 has mapped every page. -/
theorem RefProgress.loop (hflags : PlainFlags flags) {fuel : Nat}
    (h : R.RefProgress flags root s0 k s)
    (hrun : refRange.loop root R.stop flags fuel s (R.page k) (R.frame k) = .ok (0, s')) :
    R.RefProgress flags root s0 R.pages s' := by
  induction fuel generalizing s k with
  | zero => cases hrun
  | succ fuel ih =>
      by_cases hk : k < R.pages
      · have hlt : R.page k < R.stop := (R.page_lt_stop_iff hk.le).mpr hk
        rw [refRange.loop, if_pos hlt] at hrun
        obtain ⟨⟨r, s1⟩, hcall, hrest⟩ := except_bind_ok hrun
        simp only [] at hrest
        by_cases hr : r = 0
        · rw [hr] at hcall
          rw [if_neg (not_not_intro hr), ← nthPage_one, ← nthPage_one, R.page_add,
            R.frame_add] at hrest
          exact ih (h.turn hk hflags hcall) hrest
        -- a failed page ends the run with -1
        · rw [if_pos hr] at hrest
          cases hrest
      · have hend : k = R.pages := Nat.le_antisymm h.le (Nat.le_of_not_lt hk)
        rw [refRange.loop, if_neg fun hlt => hk ((R.page_lt_stop_iff h.le).mp hlt)] at hrun
        cases hrun
        exact hend ▸ h

/-! ## What a successful run says about `map_range` -/

/-- The frames taken were there. -/
theorem RefProgress.refNeeded_le (hinv : s0.TreeInv root) (h : R.RefProgress flags root s0 k s) :
    (R.refNeeded root s0 k).card ≤ s0.pmm.freeCount := by
  have := h.grows.freeCount_add hinv.pmm
  omega

/-- No page is blocked for `map_range`. -/
theorem RefProgress.not_blocked (hinv : s0.TreeInv root)
    (h : R.RefProgress flags root s0 R.pages s) {j : Nat} (hj : j < R.pages) :
    ¬ R.Blocked root s0 j := by
  rintro (⟨_, b, hleaf, hdiffers⟩ | hshort)
  · -- a 2 MiB page that was there maps the page to its target
    rw [← h.large] at hleaf
    have hdone := h.done j hj
    rw [Machine.pageFrame_of_large hleaf] at hdone
    exact hdiffers (Option.some.inj hdone)
  · have hsub : R.needed root s0 (j + 1) ⊆ R.refNeeded root s0 R.pages :=
      needed_subset_refNeeded hj
    have hcard := Finset.card_le_card hsub
    have hroom := h.refNeeded_le hinv
    omega

/-- `map_range` took no more frames. -/
theorem RefProgress.freeCount_le (hinv : s0.TreeInv root)
    (href : R.RefProgress flags root s0 R.pages s) (h : R.Progress flags root s0 R.pages s') :
    s.pmm.freeCount ≤ s'.pmm.freeCount := by
  have hsub : R.needed root s0 R.pages ⊆ R.refNeeded root s0 R.pages :=
    needed_subset_refNeeded (Nat.le_refl _)
  have hcard := Finset.card_le_card hsub
  have hcount := href.grows.freeCount_add hinv.pmm
  have hcount' := h.grows.freeCount_add hinv.pmm
  omega

/-- Both runs end with the same frames. -/
theorem RefProgress.pageFrame_eq (href : R.RefProgress flags root s0 R.pages s)
    (h : R.Progress flags root s0 R.pages s') (w : Word) :
    s'.pageFrame root w = s.pageFrame root w := by
  by_cases hw : ∃ j, j < R.pages ∧ path 4 w = path 4 (R.page j)
  · obtain ⟨j, hj, hpath⟩ := hw
    rw [Machine.pageFrame_congr hpath, Machine.pageFrame_congr hpath, h.done j hj, href.done j hj]
  · have hout : ∀ j, j < R.pages → path 4 w ≠ path 4 (R.page j) := fun j hj heq => hw ⟨j, hj, heq⟩
    rw [h.rest w hout, href.rest w hout]

/-- Where `refRange` succeeds, `map_range` does, with no more frames and the same
    frames under the pages. -/
theorem run_of_refRange (hinv : s0.TreeInv root) (hflags : PlainFlags flags) {fuel : Nat}
    (href : refRange.loop root R.stop flags fuel s0 R.vaddr R.paddr = .ok (0, s)) :
    ∃ s', (∀ fuel, R.pages < fuel →
        mapRange.loop root R.stop flags fuel s0 R.vaddr R.paddr = .ok (0, s')) ∧
      s.pmm.freeCount ≤ s'.pmm.freeCount ∧ s'.pageFrame root = s.pageFrame root := by
  have hzero : R.RefProgress flags root s0 0 s0 := .zero hinv
  have hdone := hzero.loop hflags (k := 0) (by rwa [page_zero, frame_zero])
  obtain ⟨r, s', hcall⟩ := R.run_returns hinv hflags
  rcases R.run_cases hinv hflags (hcall _ (Nat.lt_succ_self _)) with
    ⟨rfl, hprog, _⟩ | ⟨_, m, _, _, hm, _, _, _, hblocked, _⟩
  · exact ⟨s', hcall, hdone.freeCount_le hinv hprog, funext (hdone.pageFrame_eq hprog)⟩
  · exact absurd hblocked (hdone.not_blocked hinv hm)

end PageRange

/-! ## A 2 MiB step that differs -/

/-- Storing an entry that is there already. -/
theorem Machine.store_self (s : Machine) (table : Word) (i : Index) :
    s.store table i (s.mem table i) = s := by
  have hmem : PointerTree.write s.mem table i (s.mem table i) = s.mem := by
    funext a j
    unfold PointerTree.write
    split
    · next h => rw [h.1, h.2]
    · rfl
  unfold Machine.store
  rw [hmem]

/-- `next_table` at a pointer, for flags without user access. -/
theorem nextTable_of_pointer {s : Machine} {table flags e : Word} {i : Index}
    (he : s.mem table i = e) (hpresent : e &&& presentBit ≠ 0) (hsize : e &&& pageSizeBit = 0)
    (huser : flags &&& userSupervisorBit = 0) :
    nextTable s table i flags = .ok (e &&& physAddrMask, s) := by
  subst he
  have hsame : s.mem table i ||| (flags &&& userSupervisorBit) = s.mem table i := by
    rw [huser]
    exact BitVec.or_zero
  unfold nextTable
  rw [if_neg hpresent, if_neg (not_not_intro hsize), hsame, Machine.store_self]

/-- A state after pages 0 and 0x1000 were mapped one by one in `strayBoot`: the walk
    of the first 2 MiB goes through the stray frames, and page 0x1000 is mapped. -/
structure StrayTables (s : Machine) : Prop where
  root : s.mem 0x10000000000000#64 0#9 = 0x10000000001003#64
  first : s.mem 0x1000#64 0#9 = 0x2001#64
  second : s.mem 0x2000#64 0#9 = 0x3001#64
  leaf : s.mem 0x3000#64 1#9 = 0x201003#64

/-- Then `map_page` in the first 2 MiB writes into the stray frame. -/
theorem StrayTables.mapPage_eq {s : Machine} (h : StrayTables s) {v : Word} (hv : v.toNat < 2 ^ 21)
    (p : Word) :
    mapPage s 0x10000000000000#64 v p readWriteBit
      = .ok (0, s.store 0x3000#64 (index1 v) (initPtEntry p (readWriteBit ||| presentBit))) := by
  have hindex : ∀ k, 21 ≤ k → (v >>> k).setWidth 9 = 0#9 := by
    intro k hk
    apply BitVec.eq_of_toNat_eq
    rw [index_toNat, Nat.div_eq_of_lt (Nat.lt_of_lt_of_le hv (Nat.pow_le_pow_right (by decide) hk))]
    rfl
  have h4 : index4 v = 0#9 := hindex 39 (by decide)
  have h3 : index3 v = 0#9 := hindex 30 (by decide)
  have h2 : index2 v = 0#9 := hindex 21 (by decide)
  have huser : readWriteBit &&& userSupervisorBit = 0 := by decide
  have hroot := nextTable_of_pointer h.root (by decide) (by decide) huser
  have hfirst := nextTable_of_pointer h.first (by decide) (by decide) huser
  have hsecond := nextTable_of_pointer h.second (by decide) (by decide) huser
  have hpdp : 0x10000000001003#64 &&& physAddrMask = 0x1000#64 := by decide
  have hpd : 0x2001#64 &&& physAddrMask = 0x2000#64 := by decide
  have hpt : 0x3001#64 &&& physAddrMask = 0x3000#64 := by decide
  have hpointer : ¬ (0x3001#64 &&& presentBit ≠ 0 ∧ 0x3001#64 &&& pageSizeBit ≠ 0) := by decide
  rw [hpdp] at hroot
  rw [hpd] at hfirst
  rw [hpt] at hsecond
  unfold mapPage
  -- three tables down, each pointer without its stray bits, to the leaf's table
  rw [h4, h3, h2, hroot]
  simp only [bind, Except.bind]
  rw [if_neg (by decide), hfirst]
  simp only []
  rw [if_neg (by decide), h.second, if_neg hpointer, hsecond]
  rfl

/-- All further pages of the region go there too. -/
theorem StrayTables.loop {s : Machine} (h : StrayTables s) {k : Nat} (hk : 2 ≤ k) {n : Nat}
    (hn : k + n = 512) :
    ∃ s', refRange.loop 0x10000000000000#64 0x200000#64 readWriteBit (n + 1) s (nthPage 0#64 k)
      (nthPage 0x200000#64 k) = .ok (0, s') ∧ StrayTables s' := by
  have hpage : (nthPage 0#64 k).toNat = k * 4096 := by
    rw [nthPage_toNat]
    · exact Nat.zero_add _
    · show 0 + k * 4096 < 2 ^ 64
      omega
  induction n generalizing s k with
  | zero =>
      have hend : ¬ nthPage 0#64 k < 0x200000#64 := by
        rw [BitVec.lt_def, hpage]
        show ¬ k * 4096 < 0x200000
        omega
      rw [refRange.loop, if_neg hend]
      exact ⟨s, rfl, h⟩
  | succ n ih =>
      have hlt : nthPage 0#64 k < 0x200000#64 := by
        rw [BitVec.lt_def, hpage]
        show k * 4096 < 0x200000
        omega
      -- the entry of page 0x1000 is not written again
      have hslot : 1#9 ≠ index1 (nthPage 0#64 k) := by
        intro heq
        have hnat := congrArg BitVec.toNat heq
        rw [index1, index_toNat, hpage] at hnat
        change 1 = k * 4096 / 2 ^ 12 % 512 at hnat
        omega
      have hmapped := h.mapPage_eq (v := nthPage 0#64 k) (by omega) (nthPage 0x200000#64 k)
      have hnext : (nthPage 0#64 (k + 1)).toNat = (k + 1) * 4096 := by
        rw [nthPage_toNat]
        · exact Nat.zero_add _
        · show 0 + (k + 1) * 4096 < 2 ^ 64
          omega
      have htables : StrayTables (s.store 0x3000#64 (index1 (nthPage 0#64 k))
          (initPtEntry (nthPage 0x200000#64 k) (readWriteBit ||| presentBit))) :=
        ⟨h.root, h.first, h.second, (if_neg fun hboth => hslot hboth.2).trans h.leaf⟩
      obtain ⟨s', hrun, hdone⟩ := ih htables (by omega) (by omega) hnext
      refine ⟨s', ?_, hdone⟩
      rw [refRange.loop_of_mapped hlt hmapped, ← nthPage_one, ← nthPage_one, nthPage_add,
        nthPage_add]
      exact hrun

/-- The walk of page 0x1000 goes through the stray frames. -/
theorem StrayTables.translate_eq {s : Machine} (h : StrayTables s) :
    translate s.mem 0x10000000000000#64 0x1000#64 = some 0x201000#64 := by
  have h4 : index4 0x1000#64 = 0#9 := by decide
  have h3 : index3 0x1000#64 = 0#9 := by decide
  have h2 : index2 0x1000#64 = 0#9 := by decide
  have h1 : index1 0x1000#64 = 1#9 := by decide
  simp [translate, walk, h4, h3, h2, h1, h.root, h.first, h.second, h.leaf, presentBit, pageSizeBit,
    physAddrMask, Translation.through]

/-- The machine after `refRange`'s first page in `strayBoot`. -/
def strayPage : Machine :=
  machineAfter strayBoot.machine
    (mapPage strayBoot.machine 0x10000000000000#64 0#64 0x200000#64 readWriteBit)

/-- The machine after its second page. -/
def strayPages : Machine :=
  machineAfter strayPage
    (mapPage strayPage 0x10000000000000#64 0x1000#64 0x201000#64 readWriteBit)

theorem strayPages_tables : StrayTables strayPages := by
  constructor <;> decide

/-- The machine after `map_range` of the same 2 MiB. -/
def strayLarge : Machine :=
  machineAfter strayBoot.machine (mapRange 2 strayBoot.machine 0x10000000000000#64 0#64 0x200000#64
    0x200000#64 readWriteBit)

/-- With memory at 2^52 `map_range` puts its 2 MiB page where the walk does not get,
    but the second single page goes where it does. -/
theorem range_refines_ref_fails :
    System.Reachable oneBlock highMap strayBoot ∧ strayBoot.pml4 = some 0x10000000000000#64 ∧
    (∃ s, refRange 513 strayBoot.machine 0x10000000000000#64 0#64 0x200000#64 0x200000#64
        readWriteBit = .ok (0, s) ∧
      translate s.mem 0x10000000000000#64 0x1000#64 ≠ none) ∧
    mapRange 2 strayBoot.machine 0x10000000000000#64 0#64 0x200000#64 0x200000#64 readWriteBit
      = .ok (0, strayLarge) ∧
    translate strayLarge.mem 0x10000000000000#64 0x1000#64 = none := by
  refine ⟨strayBoot_reachable, rfl, ?_, rfl, by decide⟩
  -- the first two pages are computed, the other 510 follow by induction
  obtain ⟨s, hrun, htables⟩ := strayPages_tables.loop (k := 2) (by decide) (n := 510) rfl
  refine ⟨s, ?_, ?_⟩
  · have hfirst : mapPage strayBoot.machine 0x10000000000000#64 0#64 0x200000#64 readWriteBit
        = .ok (0, strayPage) := rfl
    have hsecond : mapPage strayPage 0x10000000000000#64 (0#64 + frameSize)
        (0x200000#64 + frameSize) readWriteBit = .ok (0, strayPages) := rfl
    have hrest : refRange 513 strayBoot.machine 0x10000000000000#64 0#64 0x200000#64 0x200000#64
          readWriteBit
        = refRange.loop 0x10000000000000#64 0x200000#64 readWriteBit 511 strayPages
          (nthPage 0#64 2) (nthPage 0x200000#64 2) :=
      (refRange.loop_of_mapped (by decide) hfirst).trans
        (refRange.loop_of_mapped (by decide) hsecond)
    rw [hrest, hrun]
  · rw [htables.translate_eq]
    exact Option.some_ne_none _

/-- **The 2 MiB fast path is only an optimisation.**  In every reachable state, for a
    range in one canonical half and flags outside the address field: when `refRange`
    succeeds, `map_range` does, takes no more frames, and afterwards every address
    translates the same way under both page tables. -/
theorem range_refines_ref {storage : PmmStorage} {mmap : PhysicalMap} {sys : System}
    (h : System.AnyReachable storage mmap.toMemoryMap sys) {root : Word}
    (hroot : sys.pml4 = some root) {vaddr paddr length flags : Word}
    (hrange : CanonicalRange vaddr length) (hflags : PlainFlags flags) {fuel : Nat} {s : Machine}
    (href : refRange fuel sys.machine root vaddr paddr length flags = .ok (0, s)) :
    ∃ s' bound, (∀ fuel, bound ≤ fuel →
        mapRange fuel sys.machine root vaddr paddr length flags = .ok (0, s')) ∧
      s.pmm.freeCount ≤ s'.pmm.freeCount ∧
      ∀ w, translate s'.mem root w = translate s.mem root w := by
  have htree := h.inv.tree root hroot
  obtain ⟨s', hrun, hcount, hframe⟩ := (hrange.range paddr).run_of_refRange htree hflags href
  exact ⟨s', (hrange.range paddr).pages + 1, hrun, hcount,
    fun w => translate_eq_of_pageFrame (congrFun hframe w)⟩

/-- `refRange` of the 2 MiB at 0x200000 in the six-page system. -/
def sixPagesRef : Machine :=
  machineAfter sixPagesSystem.machine (refRange 513 sixPagesSystem.machine 0x1000#64 0x200000#64
    0x600000#64 0x200000#64 readWriteBit)

set_option maxRecDepth 20000 in
theorem sixPagesRef_eq : refRange 513 sixPagesSystem.machine 0x1000#64 0x200000#64 0x600000#64
    0x200000#64 readWriteBit = .ok (0, sixPagesRef) := rfl

set_option maxRecDepth 20000 in
theorem translate_sixPagesRef : translate sixPagesRef.mem 0x1000#64 0x345678#64 = some 0x745678#64 := by
  decide

/-- Mapping 512 pages in the six-page system, which `map_range` does in one turn. -/
theorem range_refines_ref_sixPages :
    ∃ s', (∀ fuel, 2 ≤ fuel → mapRange fuel sixPagesSystem.machine 0x1000#64 0x200000#64
        0x600000#64 0x200000#64 readWriteBit = .ok (0, s')) ∧
      translate s'.mem 0x1000#64 0x345678#64 = some 0x745678#64 := by
  have hrange : CanonicalRange 0x200000#64 0x200000#64 := .inl (by decide)
  obtain ⟨s', bound, hrun, _, hsame⟩ := range_refines_ref sixPagesSystem_reachable.any
    sixPagesSystem_pml4 hrange plainFlags_readWriteBit sixPagesRef_eq
  obtain ⟨s, htwo⟩ : ∃ s, mapRange 2 sixPagesSystem.machine 0x1000#64 0x200000#64 0x600000#64
      0x200000#64 readWriteBit = .ok (0, s) := ⟨_, rfl⟩
  -- two turns, the second at the end of the range, give what any number of turns gives
  have hmax := hrun (max bound 2) (Nat.le_max_left _ _)
  cases hmax.symm.trans (loop_fuel_mono (Nat.le_max_right bound 2) htwo)
  exact ⟨s', fun fuel hfuel => loop_fuel_mono hfuel htwo, (hsame _).trans translate_sixPagesRef⟩

end EchOS
