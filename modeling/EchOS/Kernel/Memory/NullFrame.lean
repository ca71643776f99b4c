/-
  EchOS.Kernel.Memory.NullFrame

  Physical address 0 and callers that may also free into PM_RECLAIMABLE blocks.

  `build_pmm` marks frame 0 of a PM_USABLE block used for good.  A
  PM_RECLAIMABLE block at address 0 has no such mark: all its frames start out
  used, and the free that reclaims frame 0 makes it an ordinary free frame.  As
  long as no call does that (`PmmCall.ReclaimsNull`), frame 0 is neither free nor
  held, whatever the callers do.
-/
import EchOS.Kernel.Memory.FirstFit

namespace EchOS

/-- The frame `a` belongs to a PM_RECLAIMABLE block. -/
def ReclaimableFrame (layout : List PmBlock) (a : Word) : Prop :=
  ∃ b ∈ layout, b.type = .reclaimable ∧ ∃ f, f < b.framesTotal.toNat ∧ a = b.frame f

/-- Callers free frames they hold, and frames of PM_RECLAIMABLE blocks. -/
def PmmCall.AllowedReclaim (layout : List PmBlock) (held : List Word) : PmmCall → Prop
  | .frameFree address =>
      pageBase address ∈ held ∨ ReclaimableFrame layout (pageBase address)
  | _ => True

/-- A call by a caller that keeps this rule. -/
inductive Clients.ReclaimStep (call : PmmCall) : Clients → Clients → Prop where
  | run {c : Clients} {r : Option Word} {pm' : Pmm}
      (allowed : call.AllowedReclaim c.pmm.layout c.held)
      (run : call.run c.pmm = .ok (r, pm')) :
      ReclaimStep call c ⟨pm', call.heldAfter c.held r⟩

/-- The call frees frame 0, and a PM_RECLAIMABLE block with a bitmap starts there. -/
def PmmCall.ReclaimsNull (layout : List PmBlock) : PmmCall → Prop
  | .frameFree address => pageBase address = 0#64 ∧
      ∃ b ∈ layout, b.type = .reclaimable ∧ b.map ≠ none ∧ b.address = 0#64
  | _ => False

/-- A step that leaves frame 0 alone. -/
def Clients.SafeStep (c c' : Clients) : Prop :=
  ∃ call : PmmCall, c.ReclaimStep call c' ∧ ¬ call.ReclaimsNull c.pmm.layout

/-- Frame 0 is neither free nor held. -/
structure Clients.NullSafe (layout : List PmBlock) (c : Clients) : Prop where
  pmm : c.pmm.Inv
  layout_eq : c.pmm.layout = layout
  aligned : c.pmm.Aligned
  not_free : ¬ c.pmm.Free 0#64
  not_held : 0#64 ∉ c.held

section Step

variable {layout : List PmBlock} {c : Clients}

/-- No frame of a run that is claimed is frame 0. -/
theorem Clients.NullSafe.null_notMem_runFrames (h : c.NullSafe layout) {n : Nat} {a : Word}
    {pm' : Pmm} (hfit : c.pmm.FirstFit n a pm') : 0#64 ∉ runFrames a n := by
  intro hmem
  obtain ⟨i, hi, heq⟩ := mem_runFrames.mp hmem
  exact h.not_free (heq ▸ hfit.free_run hi)

/-- A managed block that covers frame 0 starts there, and it is the only block
    with that frame. -/
theorem Pmm.Inv.reclaims_null {pm : Pmm} (hinv : pm.Inv) (hal : pm.Aligned) {b : PmBlock}
    (hb : b ∈ pm.blocks) (hmap : b.map ≠ none) {address : Word} (hc : b.Covers address)
    (hnull : pageBase address = 0#64) (hrecl : ReclaimableFrame pm.layout (pageBase address)) :
    (PmmCall.frameFree address).ReclaimsNull pm.layout := by
  have hw := hinv.nonWrapping b hb
  have hbal : 4096 ∣ b.address.toNat := hal b.layout (List.mem_map_of_mem hb)
  have hframe := hc.frame_frameIndex hw hbal
  obtain ⟨_, hd, hty, f, hf, heq⟩ := hrecl
  obtain ⟨d, hdm, rfl⟩ := List.mem_map.mp hd
  obtain ⟨pre, post, hsplit⟩ := List.append_of_mem hb
  have hdb : d = b := by
    by_contra hne
    exact frame_ne_others hinv hsplit (mem_others hsplit hdm hne) hc.frameIndex_lt hf
      (heq.symm.trans hframe.symm)
  subst hdb
  have haddr := ((PmBlock.frame_eq_zero_iff hw hc.frameIndex_lt).mp (hframe.trans hnull)).1
  exact ⟨hnull, d.layout, List.mem_map_of_mem hb, hty, hmap, haddr⟩

theorem Clients.NullSafe.step {c' : Clients} (h : c.NullSafe layout) (hstep : c.SafeStep c') :
    c'.NullSafe layout := by
  obtain ⟨call, ⟨allowed, run⟩, hsafe⟩ := hstep
  rename_i r pm'
  obtain ⟨_, _, hrun, hinv', hlay⟩ := call.run_inv h.pmm
  rw [run] at hrun
  cases hrun
  have hal' : pm'.Aligned := by
    have := h.aligned
    unfold Pmm.Aligned at this ⊢
    rwa [hlay]
  rcases call.run_cases h.pmm with
    ⟨r', hcall, hfail⟩ | ⟨a, pm'', hcall, hfit, hpos⟩ | ⟨address, pm'', rfl, hcall, hrel⟩
  · -- the call left the pmm alone; a free may still have been of a held frame
    rw [run] at hcall
    cases hcall
    refine ⟨hinv', hlay.trans h.layout_eq, hal', h.not_free, fun hmem => h.not_held ?_⟩
    by_cases hfree : ∃ address, call = .frameFree address
    · obtain ⟨address, rfl⟩ := hfree
      exact List.mem_of_mem_erase hmem
    · rwa [PmmCall.heldAfter_failed (fun address heq => hfree ⟨address, heq⟩) hfail] at hmem
  · -- a claimed run consists of frames that were free
    rw [run] at hcall
    cases hcall
    have hrunFrames := h.null_notMem_runFrames hfit
    refine ⟨hinv', hlay.trans h.layout_eq, hal', fun hfree => ?_, fun hmem => ?_⟩
    · exact h.not_free ((hfit.free_iff h.pmm 0#64).mp hfree).1
    · rw [PmmCall.heldAfter_claimed hpos (hfit.ne_noFrame h.pmm.blocksOk hpos)] at hmem
      rcases List.mem_append.mp hmem with hmem | hmem
      · exact hrunFrames hmem
      · exact h.not_held hmem
  · -- the frame released is not frame 0
    rw [run] at hcall
    cases hcall
    have hne : 0#64 ≠ pageBase address := by
      intro hnull
      rcases allowed with hheld | hrecl
      · exact h.not_held (hnull ▸ hheld)
      · obtain ⟨b, hb, hmap, hc, _⟩ := hrel.marked_iff h.pmm
        exact hsafe (h.pmm.reclaims_null h.aligned hb hmap hc hnull.symm hrecl)
    refine ⟨hinv', hlay.trans h.layout_eq, hal', fun hfree => ?_, fun hmem => ?_⟩
    · rcases (hrel.frame_eq h.pmm h.aligned false 0#64).mp hfree with ⟨_, heq⟩ | ⟨hfree, _⟩
      · exact hne heq
      · exact h.not_free hfree
    · exact h.not_held (List.mem_of_mem_erase hmem)

/-- Frame 0 stays out of reach along every run of such steps. -/
theorem Clients.NullSafe.run {c' : Clients} (h : c.NullSafe layout)
    (hrun : Relation.ReflTransGen Clients.SafeStep c c') : c'.NullSafe layout := by
  induction hrun with
  | refl => exact h
  | tail _ hstep ih => exact ih.step hstep

end Step

/-! ## From a built pmm -/

theorem buildPmm_nullSafe (storage : PmmStorage) (mmap : MemoryMap) :
    Clients.NullSafe (buildPmm storage mmap.descs).layout ⟨buildPmm storage mmap.descs, []⟩ where
  pmm := buildPmm_inv storage mmap
  layout_eq := rfl
  aligned := buildPmm_aligned storage mmap
  not_free := buildPmm_zero_not_free storage mmap
  not_held := List.not_mem_nil

/-- One page of boot services data at address 0. -/
def firstPage : EfiMemoryDescriptor :=
  { type := .bootServicesData, physicalStart := 0#64, numberOfPages := 1#64, attr := 0#64 }

def firstPageMap : MemoryMap where
  descs := [firstPage]
  wellFormed desc hdesc := by
    rw [List.mem_singleton.mp hdesc]
    exact ⟨by decide, by decide⟩
  apart := List.pairwise_singleton _ _

/-- The pmm of `firstPageMap` in a storage of one block and one bitmap word. -/
def firstPagePmm : Pmm := buildPmm ⟨1#64, 1#64, fun _ => 0#64⟩ firstPageMap.descs

/-- The reclaimable frame at address 0 is freed, and then handed out. -/
theorem null_handed_out : ∃ c pm',
    Clients.ReclaimStep (.frameFree 0#64) ⟨firstPagePmm, []⟩ c ∧
    frameAllocate c.pmm = .ok (0#64, pm') := by
  have hrecl : ReclaimableFrame firstPagePmm.layout (pageBase 0#64) :=
    ⟨_, List.mem_cons_self, rfl, 0, by decide, by decide⟩
  obtain ⟨pm1, hfree⟩ : ∃ pm1, PmmCall.run firstPagePmm (.frameFree 0#64) = .ok (none, pm1) ∧
      ∃ pm2, frameAllocate pm1 = .ok (0#64, pm2) := ⟨_, rfl, _, rfl⟩
  obtain ⟨hfree, pm2, halloc⟩ := hfree
  exact ⟨_, pm2, .run (.inr hrecl) hfree, halloc⟩

/-- **Address 0 is not handed out unless it is reclaimed.**  After any run of calls
    in which callers free only frames they hold or frames of PM_RECLAIMABLE blocks,
    none of them frame 0 of a reclaimable block, no call of either allocator
    returns frame 0 or a run with frame 0 in it. -/
theorem null_never_handed_out (storage : PmmStorage) (mmap : MemoryMap) {c : Clients}
    (h : Relation.ReflTransGen Clients.SafeStep ⟨buildPmm storage mmap.descs, []⟩ c) :
    (∀ address pm', frameAllocate c.pmm = .ok (address, pm') → address ≠ 0#64) ∧
    ∀ count address pm', framesAllocate c.pmm count = .ok (address, pm') → address ≠ noFrame →
      0#64 ∉ runFrames address count.toNat := by
  have hsafe := (buildPmm_nullSafe storage mmap).run h
  constructor
  · intro address pm' hcall
    rcases frameAllocate_cases hsafe.pmm.blocksOk with ⟨hres, _⟩ | ⟨a, pm'', hres, hfit⟩
    · rw [hcall] at hres
      cases hres
      decide
    -- a frame is a run of one
    · rw [hcall] at hres
      cases hres
      rintro rfl
      refine hsafe.null_notMem_runFrames hfit (mem_runFrames.mpr ⟨0, Nat.one_pos, ?_⟩)
      rw [Pmm.runFrame]
      rfl
  · intro count address pm' hcall hne
    by_cases hzero : count = 0#64
    · rw [hzero, framesAllocate_zero] at hcall
      cases hcall
      exact absurd rfl hne
    · rcases framesAllocate_cases hsafe.pmm.blocksOk hzero with ⟨hres, _⟩ | ⟨a, pm'', hres, hfit⟩
      · rw [hcall] at hres
        cases hres
        exact absurd rfl hne
      · rw [hcall] at hres
        cases hres
        exact hsafe.null_notMem_runFrames hfit

/-- Two pages of boot services data at 0x1000. -/
def bootPages : EfiMemoryDescriptor :=
  { type := .bootServicesData, physicalStart := 0x1000#64, numberOfPages := 2#64, attr := 0#64 }

def bootPagesMap : MemoryMap where
  descs := [bootPages]
  wellFormed desc hdesc := by
    rw [List.mem_singleton.mp hdesc]
    exact ⟨by decide, by decide⟩
  apart := List.pairwise_singleton _ _

/-- A frame that is reclaimed away from address 0 is handed out. -/
theorem null_never_handed_out_bootPages : ∃ c pm',
    Relation.ReflTransGen Clients.SafeStep
      ⟨buildPmm ⟨1#64, 1#64, fun _ => 0#64⟩ bootPagesMap.descs, []⟩ c ∧
    frameAllocate c.pmm = .ok (0x2000#64, pm') ∧ (0x2000#64 : Word) ≠ 0#64 := by
  have hrecl : ReclaimableFrame (buildPmm ⟨1#64, 1#64, fun _ => 0#64⟩ bootPagesMap.descs).layout
      (pageBase 0x2000#64) := ⟨_, List.mem_cons_self, rfl, 1, by decide, by decide⟩
  obtain ⟨pm1, hfree, pm2, halloc⟩ : ∃ pm1, PmmCall.run
      (buildPmm ⟨1#64, 1#64, fun _ => 0#64⟩ bootPagesMap.descs) (.frameFree 0x2000#64)
        = .ok (none, pm1) ∧ ∃ pm2, frameAllocate pm1 = .ok (0x2000#64, pm2) := ⟨_, rfl, _, rfl⟩
  have hkeep : ¬ (PmmCall.frameFree 0x2000#64).ReclaimsNull
      (buildPmm ⟨1#64, 1#64, fun _ => 0#64⟩ bootPagesMap.descs).layout :=
    fun h => absurd h.1 (by decide)
  have hstep : Clients.ReclaimStep (.frameFree 0x2000#64) ⟨_, []⟩ _ := .run (.inr hrecl) hfree
  have hreach := Relation.ReflTransGen.single
    (show Clients.SafeStep _ _ from ⟨_, hstep, hkeep⟩)
  exact ⟨_, pm2, hreach, halloc, (null_never_handed_out _ bootPagesMap hreach).1 _ _ halloc⟩

end EchOS
