/-
  EchOS.Kernel.IdentityMap

  The page tables that `init_paging` builds.

  `Machine.Identity` is the invariant of its loop: a set of page numbers is mapped,
  each page to itself, and nothing else; all entries are writable and
  supervisor-only; and the frames of the tables come from the free frames of the
  pmm at the start.  Each `map_range` call adds the pages of its range to the set.
-/
import EchOS.Kernel.InitPaging
import EchOS.Kernel.Memory.RangeMapping

namespace EchOS

/-! ## Rights -/

/-- Rights through entries that allow writes and no user accesses. -/
theorem through_supervised {x e : Word} {entries : List Word}
    (h : ∀ e' ∈ e :: entries, e' &&& readWriteBit ≠ 0 ∧ e' &&& userSupervisorBit = 0) :
    Translation.through x (e :: entries) = ⟨x, true, false⟩ := by
  have hwrite : (e :: entries).all (fun e => e &&& readWriteBit ≠ 0) = true :=
    List.all_eq_true.mpr fun e' he => decide_eq_true (h e' he).1
  have huser : (e :: entries).all (fun e => e &&& userSupervisorBit ≠ 0) = false := by
    rw [List.all_cons, decide_eq_false (not_not_intro (h e List.mem_cons_self).2), Bool.false_and]
  unfold Translation.through
  rw [hwrite, huser]

/-- A present entry on the way of `v` in a supervised tree. -/
theorem Machine.Supervised.entry {root v a : Word} {s : Machine} (hsup : s.Supervised root)
    {depth : Nat} (i : Index) (htable : s.tableAt root (path depth v) = some a)
    (hi : indexAt depth v = i) (hpres : ¬ s.mem a i &&& presentBit = 0) :
    s.mem a i &&& readWriteBit ≠ 0 ∧ s.mem a i &&& userSupervisorBit = 0 := by
  subst hi
  exact hsup (path (depth + 1) v) _ (PointerTree.slot_cons htable) hpres

/-- In a supervised tree every translation is writable and supervisor-only. -/
theorem walk_supervised {root v : Word} {s : Machine} {t : Translation} (hsup : s.Supervised root)
    (h : walk s.mem root v = some t) : t.writable = true ∧ t.user = false := by
  have hroot : s.tableAt root (path 0 v) = some root := rfl
  unfold walk at h
  simp only [] at h
  -- the entries on the way down are entries of the tree
  split at h
  · cases h
  next hp4 =>
  have hr4 := hsup.entry (index4 v) hroot rfl hp4
  have h1 : s.tableAt root (path 1 v) = some (s.mem root (index4 v) &&& physAddrMask) :=
    (PointerTree.node_cons hroot).trans (if_pos ⟨hp4, .inl Nat.two_pos⟩)
  split at h
  · cases h
  next hp3 =>
  have hr3 := hsup.entry (index3 v) h1 rfl hp3
  have h2 : s.tableAt root (path 2 v)
      = some (s.mem (s.mem root (index4 v) &&& physAddrMask) (index3 v) &&& physAddrMask) := by
    refine (PointerTree.node_cons h1).trans ?_
    rw [path_length]
    exact if_pos ⟨hp3, .inl (by decide)⟩
  split at h
  · cases h
  next hp2 =>
  have hr2 := hsup.entry (index2 v) h2 rfl hp2
  split at h
  · -- a 2 MiB page
    cases h
    rw [through_supervised (List.forall_mem_cons.mpr ⟨hr4, List.forall_mem_cons.mpr ⟨hr3,
      List.forall_mem_singleton.mpr hr2⟩⟩)]
    exact ⟨rfl, rfl⟩
  next hps =>
  have h3 : s.tableAt root (path 3 v) = some (s.mem (s.mem (s.mem root (index4 v) &&& physAddrMask)
      (index3 v) &&& physAddrMask) (index2 v) &&& physAddrMask) := by
    refine (PointerTree.node_cons h2).trans ?_
    rw [path_length]
    exact if_pos ⟨hp2, .inr ⟨rfl, not_not.mp hps⟩⟩
  split at h
  · cases h
  next hp1 =>
  have hr1 := hsup.entry (index1 v) h3 rfl hp1
  cases h
  rw [through_supervised (List.forall_mem_cons.mpr ⟨hr4, List.forall_mem_cons.mpr ⟨hr3,
    List.forall_mem_cons.mpr ⟨hr2, List.forall_mem_singleton.mpr hr1⟩⟩⟩)]
  exact ⟨rfl, rfl⟩

/-! ## The invariant -/

/-- The page `n` has a byte between `start` and `stop`. -/
def PageMeets (n start stop : Nat) : Prop := start < (n + 1) * 4096 ∧ n * 4096 < stop

/-- Exactly the pages of `covered` are mapped, each to itself, by tables in frames
    that were free in the pmm `built`. -/
structure Machine.Identity (root : Word) (built : Pmm) (covered : Nat → Prop) (s : Machine) :
    Prop where
  tree : s.TreeInv root
  supervised : s.Supervised root
  layout_eq : s.pmm.layout = built.layout
  free : ∀ x, s.pmm.Free x → built.Free x
  tables : ∀ p a, s.tableAt root p = some a → built.Free a
  mapped : ∀ w, s.pageFrame root w ≠ none ↔ covered (pageNumber w)
  itself : ∀ w x, s.pageFrame root w = some x → x.toNat = pageNumber w * 4096

namespace Machine.Identity

variable {root : Word} {built : Pmm} {covered covered' : Nat → Prop} {s s' : Machine}

theorem congr (h : s.Identity root built covered) (hiff : ∀ n, covered n ↔ covered' n) :
    s.Identity root built covered' :=
  ⟨h.tree, h.supervised, h.layout_eq, h.free, h.tables, fun w => (h.mapped w).trans (hiff _), h.itself⟩

/-- The pages that `map_range` goes over are those that meet its range. -/
theorem exists_page_iff {start length : Word} (hrange : CanonicalRange start length)
    (hpos : 0 < length.toNat) (hend : start.toNat + length.toNat ≤ 2 ^ 47) (w : Word) :
    (∃ j, j < (hrange.range start).pages ∧ path 4 w = path 4 ((hrange.range start).page j)) ↔
      PageMeets (pageNumber w) start.toNat (start.toNat + length.toNat) := by
  have hpages := hrange.pages_eq start
  have hbase : (hrange.range start).vaddr.toNat = start.toNat / 4096 * 4096 := pageBase_toNat start
  have hnum : ∀ j, j < (hrange.range start).pages →
      pageNumber ((hrange.range start).page j) = start.toNat / 4096 + j := by
    intro j hj
    rw [pageNumber, PageRange.page_toNat _ hj.le, hbase]
    omega
  unfold PageMeets
  constructor
  · rintro ⟨j, hj, hpath⟩
    have hw := path_four_eq_iff.mp hpath
    rw [hnum j hj] at hw
    omega
  · rintro ⟨hlow, hhigh⟩
    have hj : pageNumber w - start.toNat / 4096 < (hrange.range start).pages := by omega
    refine ⟨_, hj, path_four_eq_iff.mpr ?_⟩
    rw [hnum _ hj]
    omega

/-- A successful `map_range` of a range onto itself adds the pages of the range. -/
theorem mapRange (h : s.Identity root built covered) {start length : Word}
    (hpos : 0 < length.toNat) (hend : start.toNat + length.toNat ≤ 2 ^ 47) {fuel : Nat}
    (hrun : EchOS.mapRange fuel s root start start length readWriteBit = .ok (0, s')) :
    s'.Identity root built fun n =>
      covered n ∨ PageMeets n start.toNat (start.toNat + length.toNat) := by
  have hrange : CanonicalRange start length := .inl hend
  rcases (hrange.range start).run_cases h.tree plainFlags_readWriteBit hrun with
    ⟨_, hprog, _⟩ | ⟨hr, _⟩
  · have hgrows := hprog.grows
    have hpages := exists_page_iff hrange hpos hend
    -- the frame of a page of the range is the page itself
    have hin : ∀ {w j}, j < (hrange.range start).pages →
        path 4 w = path 4 ((hrange.range start).page j) → ∃ x, s'.pageFrame root w = some x ∧
          x.toNat = pageNumber w * 4096 := by
      intro w j hj hpath
      have htarget := hrange.target_toNat rfl (by omega) hj
      have hbase : (hrange.range start).vaddr.toNat = start.toNat / 4096 * 4096 :=
        pageBase_toNat start
      refine ⟨_, (Machine.pageFrame_congr hpath).trans (hprog.done j hj), ?_⟩
      have hcount := hrange.pages_eq start
      rw [htarget, path_four_eq_iff.mp hpath, pageNumber, PageRange.page_toNat _ hj.le, hbase]
      omega
    have hout : ∀ {w}, ¬ PageMeets (pageNumber w) start.toNat (start.toNat + length.toNat) →
        s'.pageFrame root w = s.pageFrame root w := by
      intro w hw
      exact hprog.rest w fun j hj hpath => hw ((hpages w).mp ⟨j, hj, hpath⟩)
    refine ⟨hgrows.inv, hgrows.supervised (by decide) (by decide) h.supervised,
      hgrows.layout_eq.trans h.layout_eq, fun x hx => ?_, fun p a hp => ?_, fun w => ?_, fun w x hx => ?_⟩
    · exact h.free x ((hgrows.free_iff h.tree x).mp hx).1
    · rcases hgrows.origin h.tree.pmm hp with hold | hfree
      · exact h.tables p a hold
      · exact h.free a hfree
    · by_cases hw : PageMeets (pageNumber w) start.toNat (start.toNat + length.toNat)
      · obtain ⟨j, hj, hpath⟩ := (hpages w).mpr hw
        obtain ⟨x, hx, _⟩ := hin hj hpath
        exact iff_of_true (ne_of_eq_of_ne hx (Option.some_ne_none x)) (.inr hw)
      · rw [hout hw, h.mapped w]
        exact (or_iff_left hw).symm
    · by_cases hw : PageMeets (pageNumber w) start.toNat (start.toNat + length.toNat)
      · obtain ⟨j, hj, hpath⟩ := (hpages w).mpr hw
        obtain ⟨y, hy, hnum⟩ := hin hj hpath
        rw [hx] at hy
        cases hy
        exact hnum
      · rw [hout hw] at hx
        exact h.itself w x hx
  · cases hr

end Machine.Identity

/-! ## The loop over the blocks -/

/-- The block is one that `init_paging` maps. -/
def PmBlock.IsMapped (b : PmBlock) : Prop := b.type ≠ .mmio ∧ b.type ≠ .reserved

/-- The page `n` is not page 0 and has a byte of the block. -/
def PmBlock.MeetsPage (b : PmBlock) (n : Nat) : Prop :=
  n ≠ 0 ∧ PageMeets n b.address.toNat (b.address.toNat + b.framesTotal.toNat * 4096)

/-- Blocks of whole pages below 2^47. -/
def LowBlocks (layout : List PmBlock) : Prop :=
  ∀ b ∈ layout, 4096 ∣ b.address.toNat ∧
    b.address.toNat + b.framesTotal.toNat * 4096 ≤ 2 ^ 47

namespace Machine.Identity

variable {root : Word} {built : Pmm} {covered : Nat → Prop} {s s' : Machine} {fuel : Nat}

/-- One block. -/
theorem mapBlock (h : s.Identity root built covered) {b : PmBlock}
    (hal : 4096 ∣ b.address.toNat)
    (hlow : b.address.toNat + b.framesTotal.toNat * 4096 ≤ 2 ^ 47)
    (hrun : initPaging.mapBlock fuel s root b = .ok (0, s')) :
    s'.Identity root built fun n => covered n ∨ b.IsMapped ∧ b.MeetsPage n := by
  have hsize : (b.framesTotal * frameSize).toNat = b.framesTotal.toNat * 4096 :=
    toNat_mul_of_lt (by rw [frameSize_toNat]; omega)
  have hend : (b.address + b.framesTotal * frameSize).toNat
      = b.address.toNat + b.framesTotal.toNat * 4096 := by
    rw [toNat_add_of_lt (by omega), hsize]
  unfold initPaging.mapBlock at hrun
  simp only [] at hrun
  by_cases htype : b.type = .mmio ∨ b.type = .reserved
  · rw [if_pos htype] at hrun
    cases hrun
    refine h.congr fun n => (or_iff_left fun hb => ?_).symm
    rcases htype with ht | ht
    · exact hb.1.1 ht
    · exact hb.1.2 ht
  · rw [if_neg htype] at hrun
    have hmapped : b.IsMapped := not_or.mp htype
    -- page 0 is left out by starting at the next page
    generalize hstart : (if b.address < frameSize then frameSize else b.address) = start at hrun
    have hstartNum : start.toNat = max b.address.toNat 4096 := by
      rw [← hstart]
      split
      · next hlt =>
          rw [BitVec.lt_def, frameSize_toNat] at hlt
          rw [frameSize_toNat]
          omega
      · next hge =>
          rw [BitVec.lt_def, frameSize_toNat] at hge
          omega
    have hmeets : ∀ n, b.MeetsPage n ↔
        PageMeets n start.toNat (b.address.toNat + b.framesTotal.toNat * 4096) := by
      intro n
      unfold PmBlock.MeetsPage PageMeets
      omega
    by_cases hempty : b.address + b.framesTotal * frameSize ≤ start
    · rw [if_pos hempty] at hrun
      cases hrun
      refine h.congr fun n => (or_iff_left fun hb => ?_).symm
      obtain ⟨hlt, hgt⟩ := (hmeets n).mp hb.2
      rw [BitVec.le_def, hend] at hempty
      omega
    · rw [if_neg hempty] at hrun
      rw [BitVec.le_def, hend] at hempty
      have hlen : (b.address + b.framesTotal * frameSize - start).toNat
          = b.address.toNat + b.framesTotal.toNat * 4096 - start.toNat := by
        rw [BitVec.toNat_sub_of_le (by rw [BitVec.le_def, hend]; omega), hend]
      have hnext := h.mapRange (by omega) (by omega) hrun
      refine hnext.congr fun n => or_congr_right ?_
      rw [hlen, Nat.add_sub_cancel' (by omega), hmeets]
      exact (and_iff_right hmapped).symm

/-- The loop, from the `i`-th block on. -/
theorem loop (hblocks : LowBlocks built.layout) {left i : Nat}
    (h : s.Identity root built covered) (hcount : i + left = built.layout.length)
    (hrun : initPaging.loop fuel root left i s = .ok (0, s')) :
    s'.Identity root built fun n =>
      covered n ∨ ∃ b ∈ built.layout.drop i, b.IsMapped ∧ b.MeetsPage n := by
  induction left generalizing s i covered with
  | zero =>
      cases hrun
      refine h.congr fun n => (or_iff_left ?_).symm
      rintro ⟨b, hb, _⟩
      rw [List.drop_eq_nil_of_le (by omega)] at hb
      cases hb
  | succ left ih =>
      have hi : i < built.layout.length := by omega
      have hlay := h.layout_eq
      have hlen : s.pmm.blocks.length = built.layout.length := by
        rw [← hlay, Pmm.layout, List.length_map]
      have hblock : s.pmm.blocks[i].layout = built.layout[i] :=
        (List.getElem_map PmBlock.layout).symm.trans (List.getElem_of_eq hlay (hlay ▸ hi))
      obtain ⟨hal, hlow⟩ := hblocks _ (List.getElem_mem hi)
      rw [initPaging.loop, List.getElem?_eq_getElem (by omega)] at hrun
      simp only [] at hrun
      obtain ⟨⟨r, s1⟩, hbody, hrest⟩ := except_bind_ok hrun
      simp only [] at hrest
      by_cases hr : r = 0
      -- block `i` is covered now, and the blocks from `i + 1` on are left
      · rw [hr] at hbody
        rw [if_neg (not_not_intro hr)] at hrest
        rw [← hblock] at hal hlow
        have hnext := ih (h.mapBlock hal hlow hbody) (by omega) hrest
        refine hnext.congr fun n => ?_
        rw [List.drop_eq_getElem_cons hi, or_assoc]
        refine or_congr_right ?_
        simp only [List.mem_cons, exists_eq_or_imp, ← hblock]
      · rw [if_pos hr] at hrest
        cases hrest

end Machine.Identity

/-! ## The whole function -/

/-- `pm` is the pmm `built` with frames allocated. -/
structure Pmm.AllocatedFrom (built pm : Pmm) : Prop where
  inv : pm.Inv
  layout_eq : pm.layout = built.layout
  free : ∀ x, pm.Free x → built.Free x

namespace Machine.Identity

variable {root : Word} {built : Pmm} {covered : Nat → Prop} {s : Machine}

/-- The tree after `init_pml4` maps nothing. -/
theorem initPml4 {pm : Pmm} {mem : Mem} (hpm : built.AllocatedFrom pm)
    (haddr : built.Addressable) (hnull : ¬ built.Free null) (hroot : root ≠ null)
    (hrun : EchOS.initPml4 ⟨pm, mem⟩ = .ok (root, s)) :
    s.Identity root built fun _ => False := by
  rcases initPml4_cases (s := ⟨pm, mem⟩) hpm.inv (haddr.of_layout_eq hpm.layout_eq)
    (fun h => hnull (hpm.free _ h)) hrun with ⟨h0, _⟩ | ⟨_, hfit, htree, htable, hentry⟩
  · exact absurd h0 hroot
  -- every entry of the new root is 0, so there is no leaf below it
  · have hleaf : ∀ p, s.leafAt root p = none := by
      intro p
      cases p with
      | nil => rfl
      | cons i p =>
          show (s.entryAt root (i :: p)).bind (entryLeaf p.length) = none
          cases he : s.entryAt root (i :: p) with
          | none => rfl
          | some e =>
              rw [hentry _ e he]
              exact entryLeaf_zero _
    have hframe : ∀ w, s.pageFrame root w = none := fun w => by
      rw [pageFrame_of_small (hleaf _), hleaf]
    have hfirst : pm.Free root := by
      have := hfit.free_run Nat.one_pos
      rwa [Pmm.Takes.runFrame_one Nat.one_pos] at this
    refine ⟨htree, fun q e he hpres => ?_, hfit.layout_eq.trans hpm.layout_eq, fun x hx => ?_,
      fun p a hp => ?_, fun w => ?_, fun w x hx => ?_⟩
    · rw [hentry q e he] at hpres
      exact absurd BitVec.zero_and hpres
    · exact hpm.free x ((hfit.free_iff hpm.inv x).mp hx).1
    · obtain ⟨_, rfl⟩ := (htable p a).mp hp
      exact hpm.free _ hfirst
    · exact iff_of_false (not_not_intro (hframe w)) not_false
    · rw [hframe] at hx
      cases hx

/-- What the processor makes of an address. -/
theorem walk_of_covered (h : s.Identity root built covered) {v : Word} (hv : v.toNat < 2 ^ 47)
    (hcov : covered (v.toNat / 4096)) : walk s.mem root v = some ⟨v, true, false⟩ := by
  have hnum : pageNumber v = v.toNat / 4096 := by
    unfold pageNumber
    omega
  rw [← hnum, ← h.mapped v] at hcov
  obtain ⟨x, hx⟩ := Option.ne_none_iff_exists'.mp hcov
  have htrans := translate_of_pageFrame hx
  obtain ⟨t, ht, hpaddr⟩ := Option.map_eq_some_iff.mp htrans
  obtain ⟨hwrite, huser⟩ := walk_supervised h.supervised ht
  have hlow := and_pageOffset_toNat v
  have hbase := h.itself v x hx
  have hself : x + (v &&& 0xFFF#64) = v := by
    apply BitVec.eq_of_toNat_eq
    rw [toNat_add_of_lt (by omega), hlow, hbase]
    omega
  cases t
  cases hwrite
  cases huser
  rw [ht, ← hself]
  exact congrArg some (congrArg (Translation.mk · true false) hpaddr)

theorem walk_of_not_covered (h : s.Identity root built covered) {v : Word} (hv : v.toNat < 2 ^ 47)
    (hcov : ¬ covered (v.toNat / 4096)) : walk s.mem root v = none := by
  have hnum : pageNumber v = v.toNat / 4096 := by
    unfold pageNumber
    omega
  rw [← hnum, ← h.mapped v, not_not] at hcov
  have htrans := translate_eq s root v
  rw [hcov] at htrans
  exact Option.map_eq_none_iff.mp htrans

end Machine.Identity

/-- A memory map of ranges below 2^47. -/
structure LowMap extends MemoryMap where
  low : ∀ desc ∈ descs, desc.physicalStart.toNat + desc.numberOfPages.toNat * 4096 ≤ 2 ^ 47

def LowMap.physical (mmap : LowMap) : PhysicalMap where
  toMemoryMap := mmap.toMemoryMap
  addressable desc hdesc := Nat.le_trans (mmap.low desc hdesc) (by decide)

section FromBuild

variable (storage : PmmStorage) (mmap : LowMap)

theorem buildPmm_lowBlocks : LowBlocks (buildPmm storage mmap.descs).layout := by
  intro b hb
  obtain ⟨c, hc, rfl⟩ := List.mem_map.mp hb
  obtain ⟨desc, hdesc, heq⟩ := exists_desc_of_mem_buildPmm storage _ hc
  have haddr : c.address = desc.physicalStart := congrArg Prod.fst heq
  have htotal : c.framesTotal = desc.numberOfPages := congrArg (fun x => x.2.1) heq
  show 4096 ∣ c.address.toNat ∧ c.address.toNat + c.framesTotal.toNat * 4096 ≤ 2 ^ 47
  rw [haddr, htotal]
  exact ⟨(mmap.wellFormed desc hdesc).aligned, mmap.low desc hdesc⟩

/-- A frame that starts out free lies in a block that `init_paging` maps. -/
theorem buildPmm_free_meets {a : Word} (h : (buildPmm storage mmap.descs).Free a) :
    a.toNat < 2 ^ 47 ∧ ∃ b ∈ (buildPmm storage mmap.descs).layout,
      b.IsMapped ∧ b.MeetsPage (a.toNat / 4096) := by
  obtain ⟨b, hb, htype, _, f, hf, rfl⟩ := buildPmm_free_usable storage mmap.toMemoryMap h
  obtain ⟨hal, hlow⟩ := buildPmm_lowBlocks storage mmap b hb
  have hnull : b.frame f ≠ null := fun h0 =>
    buildPmm_zero_not_free storage mmap.physical.toMemoryMap
      (show (buildPmm storage mmap.physical.descs).Free null from h0 ▸ h)
  have hframe : (b.frame f).toNat = b.address.toNat + f * 4096 := by
    refine PmBlock.frame_toNat ?_ hf
    unfold PmBlock.NonWrapping
    omega
  have hpos : (b.frame f).toNat ≠ 0 := fun h0 => hnull (BitVec.eq_of_toNat_eq h0)
  refine ⟨by omega, b, hb, ⟨?_, ?_⟩, ?_⟩
  · rw [htype]
    decide
  · rw [htype]
    decide
  · unfold PmBlock.MeetsPage PageMeets
    rw [hframe] at hpos ⊢
    omega

end FromBuild

/-- The stages of a successful call: the root, the blocks and the framebuffer. -/
theorem initPaging_ok {fuel : Nat} {s s' : Machine} {fb : Framebuffer} {root : Word}
    (h : initPaging fuel s fb = .ok (0, root, s')) :
    root ≠ null ∧ ∃ s1 s2, initPml4 s = .ok (root, s1) ∧
      initPaging.loop fuel root s1.pmm.blocks.length 0 s1 = .ok (0, s2) ∧
      mapRange fuel s2 root fb.buffer fb.buffer fb.length readWriteBit = .ok (0, s') := by
  unfold initPaging at h
  obtain ⟨⟨pml4, s1⟩, hroot, h⟩ := except_bind_ok h
  simp only [] at h
  -- every way out before the last one returns -1
  by_cases hnull : pml4 = null
  · rw [if_pos hnull] at h
    cases h
  rw [if_neg hnull] at h
  obtain ⟨⟨r, s2⟩, hloop, h⟩ := except_bind_ok h
  simp only [] at h
  by_cases hr : r = 0
  swap
  · rw [if_pos hr] at h
    cases h
  rw [if_neg (not_not_intro hr)] at h
  obtain ⟨⟨r', s3⟩, hfb, h⟩ := except_bind_ok h
  simp only [] at h
  by_cases hr' : r' = 0
  swap
  · rw [if_pos hr'] at h
    cases h
  rw [if_neg (not_not_intro hr')] at h
  cases h
  rw [hr] at hloop
  rw [hr'] at hfb
  exact ⟨hnull, s1, s2, hroot, hloop, hfb⟩

/-- A successful call: the invariant at its end, with the blocks and the framebuffer
    mapped. -/
theorem initPaging_identity {storage : PmmStorage} {mmap : LowMap} {pm : Pmm}
    (hpm : Pmm.AllocatedFrom (buildPmm storage mmap.descs) pm) {mem : Mem} {fb : Framebuffer}
    (hpos : 0 < fb.length.toNat) (hend : fb.buffer.toNat + fb.length.toNat ≤ 2 ^ 47)
    {fuel : Nat} {pml4 : Word} {s : Machine}
    (hcall : initPaging fuel ⟨pm, mem⟩ fb = .ok (0, pml4, s)) :
    s.Identity pml4 (buildPmm storage mmap.descs) fun n =>
      (∃ b ∈ (buildPmm storage mmap.descs).layout, b.IsMapped ∧ b.MeetsPage n) ∨
      PageMeets n fb.buffer.toNat (fb.buffer.toNat + fb.length.toNat) := by
  obtain ⟨hnull, s1, s2, hroot, hloop, hfb⟩ := initPaging_ok hcall
  have hfirst := Machine.Identity.initPml4 hpm (buildPmm_addressable storage mmap.physical)
    (buildPmm_zero_not_free storage mmap.physical.toMemoryMap) hnull hroot
  have hcount : s1.pmm.blocks.length = (buildPmm storage mmap.descs).layout.length := by
    rw [← hfirst.layout_eq, Pmm.layout, List.length_map]
  have hblocks := hfirst.loop (buildPmm_lowBlocks storage mmap)
    ((Nat.zero_add _).trans hcount) hloop
  refine (hblocks.mapRange hpos hend hfb).congr fun n => ?_
  rw [false_or, List.drop_zero]

/-- **`init_paging` builds exactly the identity map it describes.**  For every pmm
    built from a map below 2^47, with any frames allocated, and every framebuffer
    between page 0 and 2^47: after a call that returned 0 an address below 2^47
    translates if and only if its page is not page 0 and meets a block that is
    neither PM_MMIO nor PM_RESERVED, or meets the framebuffer; it translates to
    itself, writable and supervisor-only; page 0 does not translate; and the
    tables and the frames that are still free translate to themselves. -/
theorem init_paging_identity_map {storage : PmmStorage} {mmap : LowMap} {pm : Pmm}
    (hpm : Pmm.AllocatedFrom (buildPmm storage mmap.descs) pm) {mem : Mem} {fb : Framebuffer}
    (hpos : 0 < fb.length.toNat) (hstart : 4096 ≤ fb.buffer.toNat)
    (hend : fb.buffer.toNat + fb.length.toNat ≤ 2 ^ 47) {fuel : Nat} {pml4 : Word} {s : Machine}
    (hcall : initPaging fuel ⟨pm, mem⟩ fb = .ok (0, pml4, s)) :
    (∀ v : Word, v.toNat < 2 ^ 47 → ((∃ t, walk s.mem pml4 v = some t) ↔
      (∃ b ∈ pm.blocks, b.IsMapped ∧ b.MeetsPage (v.toNat / 4096)) ∨
      PageMeets (v.toNat / 4096) fb.buffer.toNat (fb.buffer.toNat + fb.length.toNat))) ∧
    (∀ v : Word, v.toNat < 2 ^ 47 → ∀ t, walk s.mem pml4 v = some t → t = ⟨v, true, false⟩) ∧
    (∀ v : Word, v.toNat < 4096 → walk s.mem pml4 v = none) ∧
    (∀ p a, s.tableAt pml4 p = some a → walk s.mem pml4 a = some ⟨a, true, false⟩) ∧
    ∀ a, s.pmm.Free a → walk s.mem pml4 a = some ⟨a, true, false⟩ := by
  have h := initPaging_identity hpm hpos hend hcall
  have hblocks : ∀ n, (∃ b ∈ (buildPmm storage mmap.descs).layout, b.IsMapped ∧ b.MeetsPage n) ↔
      ∃ b ∈ pm.blocks, b.IsMapped ∧ b.MeetsPage n := by
    intro n
    rw [← hpm.layout_eq]
    constructor
    · rintro ⟨_, hlay, hmapped⟩
      obtain ⟨b, hb, rfl⟩ := List.mem_map.mp hlay
      exact ⟨b, hb, hmapped⟩
    · rintro ⟨b, hb, hmapped⟩
      exact ⟨b.layout, List.mem_map_of_mem hb, hmapped⟩
  -- frames that were free lie in usable blocks
  have hfree : ∀ a, (buildPmm storage mmap.descs).Free a →
      walk s.mem pml4 a = some ⟨a, true, false⟩ := by
    intro a ha
    obtain ⟨hlt, hmeets⟩ := buildPmm_free_meets storage mmap ha
    exact h.walk_of_covered hlt (.inl hmeets)
  refine ⟨fun v hv => ?_, fun v hv t ht => ?_, fun v hv => ?_, fun p a hp => ?_, fun a ha => ?_⟩
  · rw [← hblocks]
    constructor
    · rintro ⟨t, ht⟩
      by_contra hno
      rw [h.walk_of_not_covered hv hno] at ht
      cases ht
    · exact fun hcov => ⟨_, h.walk_of_covered hv hcov⟩
  · by_cases hcov : (∃ b ∈ (buildPmm storage mmap.descs).layout, b.IsMapped ∧
        b.MeetsPage (v.toNat / 4096)) ∨
        PageMeets (v.toNat / 4096) fb.buffer.toNat (fb.buffer.toNat + fb.length.toNat)
    · rw [h.walk_of_covered hv hcov] at ht
      exact (Option.some.inj ht).symm
    · rw [h.walk_of_not_covered hv hcov] at ht
      cases ht
  · refine h.walk_of_not_covered (by omega) ?_
    rintro (⟨b, _, _, hzero, _⟩ | ⟨hfb, _⟩)
    · omega
    · omega
  · exact hfree a (h.tables p a hp)
  · exact hfree a (h.free a ha)

/-- The six pages at 0x1000, as a map below 2^47. -/
def sixPagesLow : LowMap where
  toMemoryMap := sixPagesMap.toMemoryMap
  low desc hdesc := by
    rw [List.mem_singleton.mp hdesc]
    decide

/-- A framebuffer of 1 KiB at 0x8000. -/
def smallFramebuffer : Framebuffer :=
  { buffer := 0x8000#64, pixelsPerScanline := 16#64, height := 16#64 }

/-- The result of `init_paging` for the six pages and that framebuffer. -/
def sixPagesMapped : Machine :=
  match initPaging 8 ⟨buildPmm oneBlock sixPagesMap.descs, fun _ _ => 0#64⟩ smallFramebuffer with
  | .ok (_, _, s) => s
  | .error _ => sixPagesSystem.machine

theorem init_paging_identity_map_sixPages :
    walk sixPagesMapped.mem 0x1000#64 0x8123#64 = some ⟨0x8123#64, true, false⟩ ∧
    walk sixPagesMapped.mem 0x1000#64 0x0#64 = none := by
  have hpm : Pmm.AllocatedFrom (buildPmm oneBlock sixPagesLow.descs)
      (buildPmm oneBlock sixPagesMap.descs) :=
    ⟨buildPmm_inv oneBlock sixPagesMap.toMemoryMap, rfl, fun _ h => h⟩
  have hcall : initPaging 8 ⟨buildPmm oneBlock sixPagesMap.descs, fun _ _ => 0#64⟩ smallFramebuffer
      = .ok (0, 0x1000#64, sixPagesMapped) := rfl
  have hpos : 0 < smallFramebuffer.length.toNat := by decide
  have hstart : 4096 ≤ smallFramebuffer.buffer.toNat := by decide
  obtain ⟨hiff, hself, hzero, _⟩ := init_paging_identity_map hpm hpos hstart (by decide) hcall
  obtain ⟨t, ht⟩ := (hiff 0x8123#64 (by decide)).mpr (.inr ⟨by decide, by decide⟩)
  rw [hself _ (by decide) t ht] at ht
  exact ⟨ht, hzero 0#64 (by decide)⟩

end EchOS
