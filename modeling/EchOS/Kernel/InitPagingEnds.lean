/-
  EchOS.Kernel.InitPagingEnds

  `init_paging` always returns, and it fails only for want of frames.

  A run of `map_range` from addresses to themselves cannot meet a 2 MiB page that
  maps elsewhere, because every mapping so far is of a page to itself
  (`Machine.MapsToItself`).  So the turn that ends it with -1 is one in which the pmm
  was empty.
-/
import EchOS.Kernel.IdentityMap

namespace EchOS

/-! ## The turn that ends the loop -/

section Turns

variable {flags root stop : Word} {s s' : Machine}

/-- A loop that fails does so in a turn, up to which the invariant holds. -/
theorem loop_fails_in_turn {v0 p0 : Word} {I : Nat → Machine → Prop}
    (inv : ∀ k s, I k s → s.TreeInv root)
    (more : ∀ k s n s', I k s → nthPage v0 k < stop →
      s.EntryTurn flags root (nthPage v0 k) (nthPage p0 k) stop (some n) s' → I (k + n) s')
    {fuel k : Nat} (start : I k s)
    (h : mapRange.loop root stop flags fuel s (nthPage v0 k) (nthPage p0 k) = .ok (-1, s')) :
    ∃ m s1, I m s1 ∧ nthPage v0 m < stop ∧
      mapRange.turn s1 root (nthPage v0 m) (nthPage p0 m) stop flags = .ok (none, s') := by
  induction fuel generalizing s k with
  | zero => cases h
  | succ fuel ih =>
      by_cases hlt : nthPage v0 k < stop
      · obtain ⟨advance, s1, hturn, hentries⟩ :
            ∃ advance s1,
              mapRange.turn s root (nthPage v0 k) (nthPage p0 k) stop flags = .ok (advance, s1) ∧
              s.EntryTurn flags root (nthPage v0 k) (nthPage p0 k) stop advance s1 :=
          turn_cases (inv k s start) (nthPage v0 k) (nthPage p0 k)
        rw [loop_of_turn hlt hturn] at h
        cases advance with
        | none =>
            cases h
            exact ⟨k, s, start, hlt, hturn⟩
        | some n =>
            rw [afterTurn, nthPage_add, nthPage_add] at h
            exact ih (more k s n s1 start hlt hentries) h
      · rw [mapRange.loop, if_neg hlt] at h
        cases h

/-- `map_page` at a page under no 2 MiB page fails only when the pmm is empty. -/
theorem mapPage_fails_empty (hinv : s.TreeInv root) {v p : Word}
    (hno : s.leafEntryAt root (path 3 v) = none) {r : Int} (hr : r ≠ 0)
    (h : mapPage s root v p flags = .ok (r, s')) : s'.pmm.freeCount = 0 := by
  cases mapPage_outcome_of_ok hinv h with
  | covered leaf _ _ =>
      rw [hno] at leaf
      cases leaf
  | starved _ exhausted => exact exhausted.empty
  | written _ _ => exact absurd rfl hr

/-- So does a turn there. -/
theorem turn_fails_empty (hinv : s.TreeInv root) {v p : Word}
    (hno : s.leafEntryAt root (path 3 v) = none)
    (h : mapRange.turn s root v p stop flags = .ok (none, s')) : s'.pmm.freeCount = 0 := by
  unfold mapRange.turn at h
  obtain ⟨⟨large, s1⟩, htry, h⟩ := except_bind_ok h
  by_cases hlarge : large = 0
  · simp only [if_pos hlarge] at h
    cases h
  simp only [if_neg hlarge] at h
  obtain ⟨⟨small, s2⟩, hcall, h⟩ := except_bind_ok h
  by_cases hsmall : small ≠ 0
  · simp only [if_pos hsmall] at h
    cases h
    -- the 2 MiB step that failed left the leaves as they were
    have hbefore : s1.TreeInv root ∧ s1.leafEntryAt root = s.leafEntryAt root := by
      unfold mapRange.tryLarge at htry
      split at htry
      · cases mapLargePage_outcome_of_ok hinv htry with
        | refused _ opened => exact ⟨opened.rewrites.grows.inv, opened.rewrites.leaves_eq⟩
        | starved _ exhausted =>
            obtain ⟨_, hrewrites⟩ := exhausted.rewrites
            exact ⟨hrewrites.grows.inv, hrewrites.leaves_eq⟩
        | written _ _ => exact absurd rfl hlarge
      · cases htry
        exact ⟨hinv, rfl⟩
    exact mapPage_fails_empty hbefore.1 (by rw [hbefore.2, hno]) hsmall hcall
  · simp only [if_neg hsmall] at h
    cases h

end Turns

/-! ## Mapping addresses to themselves -/

/-- Every page that is mapped is mapped to itself. -/
def Machine.MapsToItself (root : Word) (s : Machine) : Prop :=
  ∀ w x, s.pageFrame root w = some x → x.toNat = pageNumber w * 4096

section Itself

variable {root stop : Word} {s s' : Machine}

theorem Machine.MapsToItself.turn (h : s.MapsToItself root) {flags v : Word}
    (hv : 4096 ∣ v.toNat) (hlow : v.toNat < 2 ^ 47) {n : Nat}
    (hturn : s.Turn flags root v v stop (some n) s') : s'.MapsToItself root := by
  have hmask : (v &&& physAddrMask).toNat = v.toNat := by
    rw [and_physAddrMask_toNat]
    omega
  intro w x hx
  cases hturn with
  | large fits noTable grows leaf =>
      have hstart := (largeFits_iff.mp fits).1
      rw [Machine.pageFrame_update_large leaf] at hx
      split at hx
      · next hregion =>
          cases hx
          rw [path_three_eq_iff, regionNumber, regionNumber] at hregion
          rw [Machine.largeFrame_toNat, hmask, pageNumber]
          omega
      · exact h w x hx
  | kept notLarge covered same grows leaf =>
      rw [Machine.pageFrame_eq_of_leafAt leaf] at hx
      exact h w x hx
  | small notLarge uncovered grows leaf =>
      rw [Machine.pageFrame_update_small leaf uncovered] at hx
      split at hx
      · next hpage =>
          cases hx
          rw [path_four_eq_iff] at hpage
          rw [hmask, hpage, pageNumber]
          omega
      · exact h w x hx

/-- A turn for a page and itself fails only when the pmm is empty. -/
theorem Machine.MapsToItself.turn_fails (h : s.MapsToItself root) (hinv : s.TreeInv root)
    {v : Word} (hv : 4096 ∣ v.toNat) (hlow : v.toNat < 2 ^ 47)
    (hturn : mapRange.turn s root v v stop readWriteBit = .ok (none, s')) :
    s'.pmm.freeCount = 0 := by
  refine turn_fails_empty hinv ?_ hturn
  obtain ⟨advance, s1, hturn1, hentries⟩ :
      ∃ advance s1, mapRange.turn s root v v stop readWriteBit = .ok (advance, s1) ∧
        s.EntryTurn readWriteBit root v v stop advance s1 := turn_cases hinv v v
  cases hturn1.symm.trans hturn
  cases hentries.turn plainFlags_readWriteBit hv with
  | clash notLarge covered differs grows leaf =>
      rename_i b
      refine absurd (BitVec.eq_of_toNat_eq ?_) differs
      rw [h v _ (Machine.pageFrame_of_large covered), and_physAddrMask_toNat, pageNumber]
      omega
  | starved depth_eq uncovered short grows leaf => exact Machine.leafAt_eq_none_iff.mp uncovered

/-- `map_range` of a range below 2^47 onto itself returns, and fails only when the pmm
    is empty. -/
theorem Machine.MapsToItself.mapRange_ends (h : s.MapsToItself root) (hinv : s.TreeInv root)
    {start length : Word} (hend : start.toNat + length.toNat ≤ 2 ^ 47) {fuel : Nat}
    (hfuel : 2 ^ 36 ≤ fuel) :
    ∃ r s', mapRange fuel s root start start length readWriteBit = .ok (r, s') ∧
      (r = 0 ∨ r = -1 ∧ s'.pmm.freeCount = 0) := by
  have hstop : (start + length).toNat = start.toNat + length.toNat := toNat_add_of_lt (by omega)
  have hclear : (start + length).toNat ≤ 2 ^ 64 - 4096 := by omega
  have hpages : spanPages (pageBase start) (start + length) < fuel := by
    unfold spanPages
    omega
  obtain ⟨r, s', hcall⟩ : ∃ r s',
      mapRange.loop root (start + length) readWriteBit fuel s (pageBase start) (pageBase start)
        = .ok (r, s') := loop_span_returns hclear hinv hpages
  refine ⟨r, s', hcall, ?_⟩
  rcases (loop_rewrites hinv hcall).1 with hr | hr
  · exact .inl hr
  · refine .inr ⟨hr, ?_⟩
    have hpage : ∀ k, 4096 ∣ (nthPage (pageBase start) k).toNat := fun k =>
      nthPage_aligned (pageBase_aligned start) k
    have hlow : ∀ {k}, nthPage (pageBase start) k < start + length →
        (nthPage (pageBase start) k).toNat < 2 ^ 47 := by
      intro k hlt
      rw [BitVec.lt_def, hstop] at hlt
      omega
    rw [hr, ← nthPage_zero (pageBase start)] at hcall
    obtain ⟨m, s1, ⟨hinv1, h1⟩, hlt, hturn⟩ :=
      loop_fails_in_turn (I := fun _ s => s.TreeInv root ∧ s.MapsToItself root) (fun _ _ hI => hI.1)
        (fun k s1 n s2 hI hlt hentries => by
          obtain ⟨_, _, hrewrites⟩ := hentries.rewrites
          exact ⟨hrewrites.grows.inv,
            hI.2.turn (hpage k) (hlow hlt) (hentries.turn plainFlags_readWriteBit (hpage k))⟩)
        ⟨hinv, h⟩ hcall
    exact h1.turn_fails hinv1 (hpage m) (hlow hlt) hturn

end Itself

/-! ## `init_paging` -/

/-- A call that returned 0, or failed in the end for want of frames. -/
def EndsShort (r : Int) (s : Machine) : Prop := r = 0 ∨ r = -1 ∧ s.pmm.freeCount = 0

namespace Machine.Identity

variable {root : Word} {built : Pmm} {covered : Nat → Prop} {s : Machine} {fuel : Nat}
  (hfuel : 2 ^ 36 ≤ fuel)

include hfuel

theorem mapBlock_ends (h : s.Identity root built covered) {b : PmBlock}
    (hlow : b.address.toNat + b.framesTotal.toNat * 4096 ≤ 2 ^ 47) :
    ∃ r s', initPaging.mapBlock fuel s root b = .ok (r, s') ∧ EndsShort r s' := by
  have hsize : (b.framesTotal * frameSize).toNat = b.framesTotal.toNat * 4096 :=
    toNat_mul_of_lt (by rw [frameSize_toNat]; omega)
  have hend : (b.address + b.framesTotal * frameSize).toNat
      = b.address.toNat + b.framesTotal.toNat * 4096 := by
    rw [toNat_add_of_lt (by omega), hsize]
  unfold initPaging.mapBlock
  simp only []
  by_cases htype : b.type = .mmio ∨ b.type = .reserved
  · exact ⟨0, s, if_pos htype, .inl rfl⟩
  rw [if_neg htype]
  generalize (if b.address < frameSize then frameSize else b.address) = start
  by_cases hempty : b.address + b.framesTotal * frameSize ≤ start
  · exact ⟨0, s, if_pos hempty, .inl rfl⟩
  · rw [if_neg hempty]
    rw [BitVec.le_def, hend] at hempty
    have hlen : (b.address + b.framesTotal * frameSize - start).toNat
        = b.address.toNat + b.framesTotal.toNat * 4096 - start.toNat := by
      rw [BitVec.toNat_sub_of_le (by rw [BitVec.le_def, hend]; omega), hend]
    have hitself : s.MapsToItself root := h.itself
    exact hitself.mapRange_ends h.tree (by omega) hfuel

theorem loop_ends (hblocks : LowBlocks built.layout) {left i : Nat}
    (h : s.Identity root built covered) :
    ∃ r s', initPaging.loop fuel root left i s = .ok (r, s') ∧ EndsShort r s' := by
  induction left generalizing s i covered with
  | zero => exact ⟨0, s, rfl, .inl rfl⟩
  | succ left ih =>
      rw [initPaging.loop]
      cases hblock : s.pmm.blocks[i]? with
      | none => exact ⟨0, s, rfl, .inl rfl⟩
      | some b =>
          have hmem : b.layout ∈ built.layout := by
            rw [← h.layout_eq]
            exact List.mem_map_of_mem (List.mem_of_getElem? hblock)
          obtain ⟨hal, hlow⟩ := hblocks _ hmem
          obtain ⟨r, s1, hcall, hends⟩ := h.mapBlock_ends hfuel (b := b) hlow
          simp only [hcall, bind, Except.bind]
          rcases hends with rfl | ⟨rfl, hempty⟩
          · rw [if_neg (not_not_intro rfl)]
            exact ih (h.mapBlock hal hlow hcall)
          · exact ⟨-1, s1, rfl, .inr ⟨rfl, hempty⟩⟩

end Machine.Identity

/-- `init_pml4` returns, with NULL only when the pmm is empty. -/
theorem initPml4_ends {pm : Pmm} (hinv : pm.Inv) (hnull : ¬ pm.Free null) (mem : Mem) :
    ∃ root s, initPml4 ⟨pm, mem⟩ = .ok (root, s) ∧ (root = null → s.pmm.freeCount = 0) := by
  rcases Pmm.frameAllocate_count hinv with ⟨hcall, hempty⟩ | ⟨a, pm', hcall, hfit, hne, _⟩
  · refine ⟨null, ⟨pm, mem⟩, ?_, fun _ => hempty⟩
    rw [initPml4, allocTable, hcall]
    rfl
  · have hfree : pm.Free a := by
      have hrun := hfit.free_run Nat.one_pos
      rwa [Pmm.Takes.runFrame_one Nat.one_pos] at hrun
    refine ⟨a, ⟨pm', PointerTree.fill mem a 0#64⟩, ?_, fun h => absurd (h ▸ hfree) hnull⟩
    rw [initPml4, allocTable, hcall]
    simp only [bind, Except.bind, if_neg hne]
    rfl

/-- `init_paging` returns, and fails only when the pmm is empty. -/
theorem initPaging_ends {storage : PmmStorage} {mmap : LowMap} {pm : Pmm}
    (hpm : Pmm.AllocatedFrom (buildPmm storage mmap.descs) pm) (mem : Mem) {fb : Framebuffer}
    (hend : fb.buffer.toNat + fb.length.toNat ≤ 2 ^ 47) {fuel : Nat} (hfuel : 2 ^ 36 ≤ fuel) :
    ∃ r root s, initPaging fuel ⟨pm, mem⟩ fb = .ok (r, root, s) ∧ EndsShort r s := by
  have haddr := buildPmm_addressable storage mmap.physical
  have hzero := buildPmm_zero_not_free storage mmap.physical.toMemoryMap
  have hlow := buildPmm_lowBlocks storage mmap
  obtain ⟨root, s1, hroot, hempty⟩ := initPml4_ends hpm.inv (fun h => hzero (hpm.free _ h)) mem
  unfold initPaging
  simp only [hroot, bind, Except.bind]
  by_cases hnull : root = null
  · rw [if_pos hnull]
    exact ⟨-1, root, s1, rfl, .inr ⟨rfl, hempty hnull⟩⟩
  rw [if_neg hnull]
  have hfirst := Machine.Identity.initPml4 hpm haddr hzero hnull hroot
  obtain ⟨r, s2, hloop, hends⟩ : ∃ r s',
      initPaging.loop fuel root s1.pmm.blocks.length 0 s1 = .ok (r, s') ∧ EndsShort r s' :=
    hfirst.loop_ends hfuel hlow
  simp only [hloop]
  rcases hends with rfl | ⟨rfl, hempty⟩
  swap
  · exact ⟨-1, root, s2, rfl, .inr ⟨rfl, hempty⟩⟩
  rw [if_neg (not_not_intro rfl)]
  -- all blocks are mapped, each page to itself, so the framebuffer meets no other mapping
  have hcount : 0 + s1.pmm.blocks.length = (buildPmm storage mmap.descs).layout.length := by
    rw [Nat.zero_add, ← hfirst.layout_eq, Pmm.layout, List.length_map]
  have hblocks := hfirst.loop hlow hcount hloop
  have hitself : s2.MapsToItself root := hblocks.itself
  obtain ⟨r', s3, hfb, hends⟩ := hitself.mapRange_ends hblocks.tree hend hfuel
  simp only [hfb]
  rcases hends with rfl | ⟨rfl, hempty⟩
  · exact ⟨0, root, s3, rfl, .inl rfl⟩
  · exact ⟨-1, root, s3, rfl, .inr ⟨rfl, hempty⟩⟩

end EchOS
