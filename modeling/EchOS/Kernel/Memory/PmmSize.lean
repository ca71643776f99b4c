/-
  EchOS.Kernel.Memory.PmmSize

  `get_pmm_size` of `kernel/memory/physical.c`, and how much memory the records and
  bitmaps of a pmm really take up.  It counts a bitmap for every block, also for those
  that `build_pmm` gave none.
-/
import EchOS.Efi.ReservePmm
import EchOS.Kernel.Memory.FlatSystem
import EchOS.Kernel.Memory.TableFrames
import EchOS.Lib.Regions
import Mathlib.Algebra.BigOperators.Ring.List
import Mathlib.Algebra.Order.BigOperators.Group.List

namespace EchOS

open Regions

/-- `get_pmm_size` -/
def getPmmSize (pm : Pmm) : Word :=
  pm.blocks.foldl (fun length block => length + frameMapSize block.framesTotal * 8#64)
    (BitVec.ofNat 64 pm.blocks.length * sizeofPmBlock)

/-- The bytes of these blocks' bitmaps, if each had one. -/
def bitmapBytes (blocks : List PmBlock) : Nat := (blocks.map fun b => 8 * b.words).sum

/-- What the records of the blocks and the bitmaps that there are take up. -/
def Pmm.footprint (pm : Pmm) : Nat :=
  48 * pm.blocks.length + bitmapBytes (pm.blocks.filter fun b => b.map ≠ none)

/-! ## The sum -/

theorem getPmmSize_loop (blocks : List PmBlock) (length : Word)
    (h : length.toNat + bitmapBytes blocks < 2 ^ 64) :
    (blocks.foldl (fun length block => length + frameMapSize block.framesTotal * 8#64)
      length).toNat = length.toNat + bitmapBytes blocks := by
  induction blocks generalizing length with
  | nil => rfl
  | cons b blocks ih =>
      have hsum : bitmapBytes (b :: blocks) = 8 * b.words + bitmapBytes blocks := by
        simp [bitmapBytes]
      rw [hsum] at h ⊢
      have hwords : (frameMapSize b.framesTotal * 8#64).toNat = 8 * b.words := by
        rw [BitVec.toNat_mul, Nat.mod_eq_of_lt]
        · exact Nat.mul_comm _ _
        · show b.words * 8 < _
          omega
      have hnext : (length + frameMapSize b.framesTotal * 8#64).toNat
          = length.toNat + 8 * b.words := by
        rw [toNat_add_of_lt (by rw [hwords]; omega), hwords]
      rw [List.foldl_cons, ih _ (by rw [hnext]; omega), hnext]
      omega

theorem bitmapBytes_filter (blocks : List PmBlock) (p : PmBlock → Bool) :
    bitmapBytes blocks = bitmapBytes (blocks.filter p) + bitmapBytes (blocks.filter fun b => !p b) := by
  induction blocks with
  | nil => rfl
  | cons b blocks ih =>
      simp only [bitmapBytes, List.filter_cons, List.map_cons, List.sum_cons] at ih ⊢
      cases p b <;> simp <;> omega

/-- Only the layout counts. -/
theorem getPmmSize_layout {pm pm' : Pmm} (h : pm'.layout = pm.layout) :
    getPmmSize pm' = getPmmSize pm := by
  have hframes : pm'.blocks.map PmBlock.framesTotal = pm.blocks.map PmBlock.framesTotal := by
    have := congrArg (List.map PmBlock.framesTotal) h
    rwa [Pmm.layout, Pmm.layout, List.map_map, List.map_map] at this
  have hlength : pm'.blocks.length = pm.blocks.length := by
    simpa using congrArg List.length hframes
  have hfold : ∀ blocks : List PmBlock, ∀ length : Word,
      blocks.foldl (fun length block => length + frameMapSize block.framesTotal * 8#64) length
        = (blocks.map PmBlock.framesTotal).foldl
          (fun length total => length + frameMapSize total * 8#64) length :=
    fun blocks length => by rw [List.foldl_map]
  rw [getPmmSize, getPmmSize, hfold, hfold, hframes, hlength]

/-! ## A pmm that `build_pmm` made -/

section Built

variable (storage : PmmStorage) (mmap : MemoryMap)

/-- The descriptors that it has blocks for. -/
theorem buildPmm_recorded : ∃ recorded : List EfiMemoryDescriptor,
    recorded.Sublist mmap.descs ∧ (∀ desc ∈ recorded, desc.numberOfPages ≠ 0#64) ∧
    (buildPmm storage mmap.descs).blocks.map PmBlock.framesTotal
      = recorded.map EfiMemoryDescriptor.numberOfPages := by
  obtain ⟨recorded, hrecorded, hfields⟩ := buildPmm_fields storage mmap.descs
  refine ⟨recorded, hrecorded.sublist.trans List.filter_sublist, fun desc hdesc => ?_, ?_⟩
  · simpa using (List.mem_filter.mp (hrecorded.subset hdesc)).2
  · have := congrArg (List.map fun fields => fields.2.1) hfields
    rwa [List.map_map, List.map_map] at this

theorem buildPmm_framesTotal_pos {b : PmBlock} (hb : b ∈ (buildPmm storage mmap.descs).blocks) :
    0 < b.framesTotal.toNat := by
  obtain ⟨recorded, _, hpages, htotals⟩ := buildPmm_recorded storage mmap
  have htotal : b.framesTotal ∈ recorded.map EfiMemoryDescriptor.numberOfPages :=
    htotals ▸ List.mem_map_of_mem hb
  obtain ⟨desc, hdesc, heq⟩ := List.mem_map.mp htotal
  rw [← heq]
  exact numberOfPages_pos (hpages desc hdesc)

/-- Its blocks have together no more frames than there are addresses for. -/
theorem buildPmm_frames_le :
    ((buildPmm storage mmap.descs).blocks.map fun b => b.framesTotal.toNat).sum ≤ 2 ^ 52 := by
  obtain ⟨recorded, hsub, hpages, htotals⟩ := buildPmm_recorded storage mmap
  -- the descriptors as regions
  have happart : (recorded.map fun desc => (⟨desc.physicalStart.toNat,
      desc.numberOfPages.toNat * 4096⟩ : Region)).Pairwise Region.Apart := by
    refine List.pairwise_map.mpr ((mmap.apart.sublist hsub).imp_of_mem fun hd he h => ?_)
    rcases h with h | h | h | h
    · exact .inl h
    · exact .inr h
    · exact absurd h (hpages _ hd)
    · exact absurd h (hpages _ he)
  have hwhole : ∀ r ∈ recorded.map fun desc => (⟨desc.physicalStart.toNat,
      desc.numberOfPages.toNat * 4096⟩ : Region), r.Within ⟨0, 2 ^ 64⟩ := by
    intro r hr
    obtain ⟨desc, hdesc, rfl⟩ := List.mem_map.mp hr
    have hwell := (mmap.wellFormed desc (hsub.subset hdesc)).nonWrapping
    exact ⟨Nat.zero_le _, by simpa using hwell⟩
  have hle := sum_size_le happart hwhole
  have hsum : (buildPmm storage mmap.descs).blocks.map (fun b => b.framesTotal.toNat)
      = recorded.map fun desc => desc.numberOfPages.toNat := by
    have := congrArg (List.map BitVec.toNat) htotals
    rwa [List.map_map, List.map_map] at this
  have hbytes : (recorded.map fun desc => desc.numberOfPages.toNat * 4096).sum ≤ 2 ^ 64 := by
    simpa only [List.map_map, Function.comp_def] using hle
  rw [List.sum_map_mul_right] at hbytes
  rw [hsum]
  omega

/-- Every block has a frame, so records and bitmaps fit into 64 bits. -/
theorem buildPmm_size_lt :
    48 * (buildPmm storage mmap.descs).blocks.length
      + bitmapBytes (buildPmm storage mmap.descs).blocks < 2 ^ 64 := by
  have hframes := buildPmm_frames_le storage mmap
  have hblock : ∀ b ∈ (buildPmm storage mmap.descs).blocks,
      1 ≤ b.framesTotal.toNat ∧ b.words ≤ b.framesTotal.toNat := by
    intro b hb
    have hpos := buildPmm_framesTotal_pos storage mmap hb
    rw [PmBlock.words_eq (buildPmm_built storage mmap.descs mmap.wellFormed hb).2]
    omega
  generalize (buildPmm storage mmap.descs).blocks = blocks at hframes hblock
  have hcount : blocks.length ≤ (blocks.map fun b => b.framesTotal.toNat).sum := by
    simpa using List.sum_le_sum fun b hb => (hblock b hb).1
  have hwords : bitmapBytes blocks ≤ 8 * (blocks.map fun b => b.framesTotal.toNat).sum := by
    rw [bitmapBytes, ← List.sum_map_mul_left]
    exact List.sum_le_sum fun b hb => Nat.mul_le_mul_left 8 (hblock b hb).2
  omega

/-- A bitmap has a word, whatever has been allocated since. -/
theorem buildPmm_words_pos {pm : Pmm} (hlayout : pm.layout = (buildPmm storage mmap.descs).layout)
    {b : PmBlock} (hb : b ∈ pm.blocks) : 0 < b.words := by
  have hmem : b.layout ∈ (buildPmm storage mmap.descs).layout := by
    rw [← hlayout]
    exact List.mem_map_of_mem hb
  obtain ⟨c, hc, heq⟩ := List.mem_map.mp hmem
  have hwords : c.layout.words = b.layout.words := congrArg PmBlock.words heq
  have hpos := buildPmm_framesTotal_pos storage mmap hc
  rw [show b.words = c.words from hwords.symm,
    PmBlock.words_eq (buildPmm_built storage mmap.descs mmap.wellFormed hc).2]
  omega

end Built

/-! ## The layout in any memory -/

namespace ByteSystem

/-- Callers and tables hold different frames, as `System.Tracked` says. -/
def Tracked (layout : List PmBlock) (sys : ByteSystem) : Prop :=
  ∃ tables, Clients.Inv layout ⟨sys.machine.pmm, sys.held ++ tables⟩ ∧
    ∀ root, sys.pml4 = some root → root ∈ tables

variable {built : Pmm} (hal : built.Aligned) {sys sys' : ByteSystem}

include hal

theorem Step.tracked {act : Action} (hstep : Step built sys act sys')
    (h : sys.Tracked built.layout) : sys'.Tracked built.layout := by
  by_cases hact : ∃ x b, act = .write x b
  · obtain ⟨x, b, rfl⟩ := hact
    cases hstep with
    | write x b owned => exact h
  · have htables : sys.tables.Tracked built.layout := h
    obtain ⟨tables, hinv, hroot⟩ := h
    have haligned : sys.machine.pmm.Aligned := by
      have hlayout : sys.machine.pmm.layout = built.layout := hinv.layout_eq
      unfold Pmm.Aligned
      rw [hlayout]
      exact hal
    have hshows := ByteMachine.tables_shows hinv.pmm haligned
    have hrootAligned : ∀ root, sys.pml4 = some root → 4096 ∣ root.toNat := fun root heq =>
      (hinv.usable root (.inr (List.mem_append_right _ (hroot root heq)))).aligned hal
    obtain ⟨s, hsim, hshows'⟩ :=
      hstep.simulates hshows hrootAligned fun x b heq => hact ⟨x, b, heq⟩
    obtain ⟨tables', hinv', hroot'⟩ := System.Tracked.step hal htables hsim
    refine ⟨tables', ?_, hroot'⟩
    rw [hshows'.pmm_eq]
    exact hinv'

omit hal in
/-- No step changes where the blocks are, in memory with any addresses. -/
theorem Reachable.layout_eq {storage : PmmStorage} {mmap : MemoryMap}
    (h : Reachable storage mmap sys) :
    sys.machine.pmm.layout = (buildPmm storage mmap.descs).layout := by
  obtain ⟨bytes, hrun⟩ := h
  have htracked : sys.Tracked (buildPmm storage mmap.descs).layout := by
    induction hrun with
    | refl =>
        refine ⟨[], buildPmm_clients_inv storage mmap, fun root hroot => ?_⟩
        cases hroot
    | tail _ hstep ih =>
        obtain ⟨act, hstep⟩ := hstep
        exact hstep.tracked (buildPmm_aligned storage mmap) ih
  obtain ⟨_, hinv, _⟩ := htracked
  exact hinv.layout_eq

end ByteSystem

/-! ## What it says -/

/-- The frames of a block do not depend on what is allocated. -/
theorem bitmapBytes_layout {pm pm' : Pmm} (h : pm'.layout = pm.layout) :
    bitmapBytes pm'.blocks = bitmapBytes pm.blocks := by
  have := congrArg (List.map fun b : PmBlock => 8 * b.words) h
  rw [Pmm.layout, Pmm.layout, List.map_map, List.map_map] at this
  exact congrArg List.sum this

/-- **What `get_pmm_size` says.**  In every reachable state it returns the number that it
    returned for the pmm that `build_pmm` made, and does not wrap.  That is what the records
    and the bitmaps take up, and the bytes of a bitmap for each block that has none; so it
    is too much exactly if some block has none. -/
theorem get_pmm_size_footprint {storage : PmmStorage} {mmap : MemoryMap} {sys : ByteSystem}
    (h : ByteSystem.Reachable storage mmap sys) :
    getPmmSize sys.machine.pmm = getPmmSize (buildPmm storage mmap.descs) ∧
    (getPmmSize sys.machine.pmm).toNat = sys.machine.pmm.footprint
      + bitmapBytes (sys.machine.pmm.blocks.filter fun b => b.map = none) ∧
    ((getPmmSize sys.machine.pmm).toNat = sys.machine.pmm.footprint ↔
      ∀ b ∈ sys.machine.pmm.blocks, b.map ≠ none) := by
  have hlayout : sys.machine.pmm.layout = (buildPmm storage mmap.descs).layout := h.layout_eq
  have hlength : sys.machine.pmm.blocks.length = (buildPmm storage mmap.descs).blocks.length := by
    simpa [Pmm.layout] using congrArg List.length hlayout
  have hlt := buildPmm_size_lt storage mmap
  rw [← hlength, ← bitmapBytes_layout hlayout] at hlt
  have hrecords : (BitVec.ofNat 64 sys.machine.pmm.blocks.length * sizeofPmBlock).toNat
      = 48 * sys.machine.pmm.blocks.length := by
    have hsize : sizeofPmBlock.toNat = 48 := rfl
    have hcount : (BitVec.ofNat 64 sys.machine.pmm.blocks.length).toNat
        = sys.machine.pmm.blocks.length := by
      rw [BitVec.toNat_ofNat]
      exact Nat.mod_eq_of_lt (by omega)
    rw [BitVec.toNat_mul, hcount, hsize, Nat.mul_comm]
    exact Nat.mod_eq_of_lt (by omega)
  have hsize : (getPmmSize sys.machine.pmm).toNat = sys.machine.pmm.footprint
      + bitmapBytes (sys.machine.pmm.blocks.filter fun b => b.map = none) := by
    have hsplit := bitmapBytes_filter sys.machine.pmm.blocks fun b => b.map ≠ none
    rw [getPmmSize, getPmmSize_loop _ _ (by rw [hrecords]; exact hlt), hrecords, hsplit,
      ← Nat.add_assoc]
    simp [Pmm.footprint]
  refine ⟨getPmmSize_layout hlayout, hsize, ?_⟩
  rw [hsize, Nat.add_eq_left]
  constructor
  · intro hzero b hb hnone
    have hmem : b ∈ sys.machine.pmm.blocks.filter fun b => b.map = none := by
      simpa using ⟨hb, hnone⟩
    have hwords : 8 * b.words ≤ 0 := hzero ▸ List.single_le_sum (by simp) _ (List.mem_map_of_mem hmem)
    have hpos := buildPmm_words_pos storage mmap hlayout hb
    omega
  · intro hmanaged
    have hempty : (sys.machine.pmm.blocks.filter fun b => b.map = none) = [] :=
      List.filter_eq_nil_iff.mpr fun b hb => by simpa using hmanaged b hb
    rw [hempty]
    rfl

/-- The six pages, and a page of a device. -/
def devicePageMap : PhysicalMap where
  descs := [sixPages, { sixPages with type := .memoryMappedIo, physicalStart := 0x9000#64 }]
  wellFormed desc hdesc := by
    rcases List.mem_pair.mp hdesc with rfl | rfl
    · exact ⟨by decide, by decide⟩
    · exact ⟨by decide, by decide⟩
  apart := List.pairwise_pair.mpr (.inl (by decide))
  addressable desc hdesc := by
    rcases List.mem_pair.mp hdesc with rfl | rfl
    · decide
    · decide

/-- The device gets no bitmap, and is counted. -/
theorem get_pmm_size_footprint_device :
    (getPmmSize (buildPmm ⟨2#64, 1#64, fun _ => 0#64⟩ devicePageMap.descs)).toNat = 112 ∧
    (buildPmm ⟨2#64, 1#64, fun _ => 0#64⟩ devicePageMap.descs).footprint = 104 := by
  have hreach : ByteSystem.Reachable ⟨2#64, 1#64, fun _ => 0#64⟩ devicePageMap.toMemoryMap
      ⟨⟨buildPmm ⟨2#64, 1#64, fun _ => 0#64⟩ devicePageMap.descs, fun _ => 0#8⟩, none, []⟩ :=
    ⟨_, .refl⟩
  obtain ⟨_, hsize, _⟩ := get_pmm_size_footprint hreach
  have hfootprint : (buildPmm ⟨2#64, 1#64, fun _ => 0#64⟩ devicePageMap.descs).footprint = 104 := rfl
  exact ⟨hsize.trans rfl, hfootprint⟩

end EchOS
