/-
  EchOS.Kernel.Memory.PhysicalCalls

  The allocator's entry points as requests, the invariant under any request, and
  runs of requests by callers that free only what they hold.

  A caller's view of the allocator is the abstract pool of `EchOS.Lib.Pool`: the
  free frames of the pmm and the frames the callers hold.  Each request refines
  one step of the pool or leaves it alone (`PmmCall.refines`).
-/
import EchOS.Efi.PmmInvariant
import EchOS.Lib.Pool

namespace EchOS

open PackedBits (Words)

/-- A call of one of the allocator's entry points. -/
inductive PmmCall where
  | frameAllocate
  | framesAllocate (count : Word)
  | frameFree (address : Word)
  deriving Repr, DecidableEq

/-- The call's result, if it has one, and the pmm after it. -/
def PmmCall.run (pm : Pmm) : PmmCall → Except Abort (Option Word × Pmm)
  | .frameAllocate => do
      let (address, pm) ← EchOS.frameAllocate pm
      return (some address, pm)
  | .framesAllocate count => do
      let (address, pm) ← EchOS.framesAllocate pm count
      return (some address, pm)
  | .frameFree address => do
      let pm ← EchOS.frameFree pm address
      return (none, pm)

/-- How many frames a successful call hands out. -/
def PmmCall.count : PmmCall → Nat
  | .frameAllocate => 1
  | .framesAllocate count => count.toNat
  | .frameFree _ => 0

/-- All a call can do to a pmm that satisfies the invariant. -/
theorem PmmCall.run_cases {pm : Pmm} (hinv : pm.Inv) (call : PmmCall) :
    (∃ r, call.run pm = .ok (r, pm) ∧ ∀ a, r = some a → a = noFrame) ∨
    (∃ a pm', call.run pm = .ok (some a, pm') ∧ pm.FirstFit call.count a pm' ∧
      0 < call.count) ∨
    (∃ address pm', call = .frameFree address ∧ call.run pm = .ok (none, pm') ∧
      pm.Released address pm') := by
  cases call with
  | frameAllocate =>
      rcases frameAllocate_cases hinv.blocksOk with ⟨h, _⟩ | ⟨a, pm', h, hfit⟩
      · refine .inl ⟨some noFrame, ?_, fun a ha => (Option.some.inj ha).symm⟩
        rw [run, h]
        rfl
      · refine .inr (.inl ⟨a, pm', ?_, hfit, Nat.one_pos⟩)
        rw [run, h]
        rfl
  | framesAllocate count =>
      by_cases hcount : count = 0#64
      · refine .inl ⟨some noFrame, ?_, fun a ha => (Option.some.inj ha).symm⟩
        rw [run, hcount, framesAllocate_zero]
        rfl
      · have hpos : 0 < count.toNat := Nat.pos_of_ne_zero fun h0 =>
          hcount (BitVec.eq_of_toNat_eq (by simpa using h0))
        rcases framesAllocate_cases hinv.blocksOk hcount with ⟨h, _⟩ | ⟨a, pm', h, hfit⟩
        · refine .inl ⟨some noFrame, ?_, fun a ha => (Option.some.inj ha).symm⟩
          rw [run, h]
          rfl
        · refine .inr (.inl ⟨a, pm', ?_, hfit, hpos⟩)
          rw [run, h]
          rfl
  | frameFree address =>
      rcases frameFree_cases hinv address with ⟨h, _⟩ | ⟨pm', h, hrel⟩
      · refine .inl ⟨none, ?_, fun a ha => by cases ha⟩
        rw [run, h]
        rfl
      · refine .inr (.inr ⟨address, pm', rfl, ?_, hrel⟩)
        rw [run, h]
        rfl

/-- Every call runs to its end, keeps the invariant and the layout. -/
theorem PmmCall.run_inv {pm : Pmm} (hinv : pm.Inv) (call : PmmCall) :
    ∃ r pm', call.run pm = .ok (r, pm') ∧ pm'.Inv ∧ pm'.layout = pm.layout := by
  rcases call.run_cases hinv with ⟨r, h, _⟩ | ⟨a, pm', h, hfit, _⟩ | ⟨_, pm', _, h, hrel⟩
  · exact ⟨r, pm, h, hinv, rfl⟩
  · exact ⟨_, pm', h, hfit.inv hinv, hfit.layout_eq⟩
  · exact ⟨_, pm', h, hrel.inv hinv, hrel.layout_eq⟩

/-- **The allocator's invariant is preserved by every operation on every
    argument.**  No call aborts (so none dereferences a NULL bitmap or indexes one
    outside its words), and afterwards the invariant holds, the counters are in
    range and only counters and bits have changed. -/
theorem pmm_inv_of_call {pm : Pmm} (hinv : pm.Inv) (call : PmmCall) :
    ∃ r pm', call.run pm = .ok (r, pm') ∧ pm'.Inv ∧ pm'.layout = pm.layout ∧
      ∀ b ∈ pm'.blocks, b.framesFree.toNat ≤ b.framesTotal.toNat := by
  obtain ⟨r, pm', h, hinv', hlay⟩ := call.run_inv hinv
  exact ⟨r, pm', h, hinv', hlay, fun b hb => Pmm.Inv.framesFree_le hinv' hb⟩

/-- The map of `threePages` alone. -/
def threePagesMap : MemoryMap := ⟨[threePages], threePages_wellFormed, List.pairwise_singleton _ _⟩

/-- The pmm that `threePagesMap` gives in a storage of two bitmap words. -/
def threePagesPmm : Pmm := buildPmm ⟨1#64, 2#64, fun _ => 0#64⟩ threePagesMap.descs

/-- A free of an unaligned address outside all blocks. -/
theorem pmm_inv_of_call_stray_free :
    ∃ r pm', (PmmCall.frameFree 0x7#64).run threePagesPmm = .ok (r, pm') ∧ pm'.Inv ∧
      pm'.layout = threePagesPmm.layout ∧
      ∀ b ∈ pm'.blocks, b.framesFree.toNat ≤ b.framesTotal.toNat :=
  pmm_inv_of_call (buildPmm_inv _ threePagesMap) (.frameFree 0x7#64)

/-! ## Callers that free what they hold -/

/-- The allocator and the frames its callers hold. -/
structure Clients where
  pmm : Pmm
  held : List Word

/-- Callers free only frames they hold, by any address inside the frame. -/
def PmmCall.Allowed (held : List Word) : PmmCall → Prop
  | .frameFree address => pageBase address ∈ held
  | _ => True

/-- The frames of the run of `n` at `a`. -/
def runFrames (a : Word) (n : Nat) : List Word := (List.range n).map (Pmm.runFrame a)

theorem runFrames_one (a : Word) : runFrames a 1 = [a] := by
  rw [runFrames, List.range_one, List.map_singleton, Pmm.runFrame]
  simp

/-- What the callers hold after a call. -/
def PmmCall.heldAfter (held : List Word) (r : Option Word) : PmmCall → List Word
  | .frameFree address => held.erase (pageBase address)
  | call =>
      match r with
      | none => held
      | some a => if a = noFrame then held else runFrames a call.count ++ held

/-- One call by a caller that keeps the rule. -/
inductive Clients.Step : Clients → Clients → Prop where
  | call {c : Clients} {r : Option Word} {pm' : Pmm} (call : PmmCall)
      (allowed : call.Allowed c.held) (run : call.run c.pmm = .ok (r, pm')) :
      Clients.Step c ⟨pm', call.heldAfter c.held r⟩

/-- The callers' view: which frames are free, and which are held. -/
def Clients.pool (c : Clients) : Pool.State Word := ⟨c.pmm.Free, c.held⟩

theorem mem_runFrames {a x : Word} {n : Nat} :
    x ∈ runFrames a n ↔ ∃ i, i < n ∧ x = Pmm.runFrame a i := by
  unfold runFrames
  simp only [List.mem_map, List.mem_range]
  exact exists_congr fun i => and_congr_right fun _ => eq_comm

theorem Pmm.FirstFit.nodup_runFrames {pm pm' : Pmm} (hinv : pm.Inv) {n : Nat} {a : Word}
    (h : pm.FirstFit n a pm') : (runFrames a n).Nodup := by
  unfold runFrames
  refine List.nodup_range.map_on fun i hi j hj heq => ?_
  exact h.runFrame_inj hinv (List.mem_range.mp hi) (List.mem_range.mp hj) heq

/-- A call that hands nothing out leaves the callers what they hold. -/
theorem PmmCall.heldAfter_failed {call : PmmCall} {held : List Word} {r : Option Word}
    (hcall : ∀ address, call ≠ .frameFree address) (hr : ∀ a, r = some a → a = noFrame) :
    call.heldAfter held r = held := by
  cases call with
  | frameFree address => exact absurd rfl (hcall address)
  | frameAllocate =>
      cases r with
      | none => rfl
      | some a => exact if_pos (hr a rfl)
  | framesAllocate count =>
      cases r with
      | none => rfl
      | some a => exact if_pos (hr a rfl)

/-- A call that hands out a run adds its frames. -/
theorem PmmCall.heldAfter_claimed {call : PmmCall} {held : List Word} {a : Word}
    (hpos : 0 < call.count) (hne : a ≠ noFrame) :
    call.heldAfter held (some a) = runFrames a call.count ++ held := by
  cases call with
  | frameFree address => cases hpos
  | frameAllocate => exact if_neg hne
  | framesAllocate count => exact if_neg hne

/-- All managed blocks start on a page boundary. -/
def Pmm.Aligned (pm : Pmm) : Prop := ∀ b ∈ pm.layout, 4096 ∣ b.address.toNat

theorem Pmm.Released.frame_eq {pm pm' : Pmm} (hinv : pm.Inv) (hal : pm.Aligned) {address : Word}
    (h : pm.Released address pm') :
    ∀ bit x, pm'.Marked bit x ↔
      (bit = false ∧ x = pageBase address) ∨ (pm.Marked bit x ∧ x ≠ pageBase address) := by
  obtain ⟨b, hb, _, hc, hiff⟩ := h.marked_iff hinv
  have hbal : 4096 ∣ b.address.toNat := hal b.layout (List.mem_map_of_mem hb)
  rw [hc.frame_frameIndex (hinv.nonWrapping b hb) hbal] at hiff
  exact hiff

/-- Every call by a caller that keeps the rule is a step of the pool, or leaves
    the pool alone. -/
theorem Clients.Step.refines {c c' : Clients} (hinv : c.pmm.Inv) (hal : c.pmm.Aligned)
    (h : c.Step c') : Relation.ReflTransGen Pool.Step c.pool c'.pool := by
  obtain ⟨call, allowed, run⟩ := h
  rename_i r pm'
  rcases call.run_cases hinv with
    ⟨r', h, hfail⟩ | ⟨a, pm'', h, hfit, hpos⟩ | ⟨address, pm'', rfl, h, hrel⟩
  · rw [run] at h
    cases h
    by_cases hfree : ∃ address, call = .frameFree address
    · -- nothing covered the frame: it is lost to the pool
      obtain ⟨address, rfl⟩ := hfree
      exact .single (.give allowed fun y hy => .inl hy)
    · rw [PmmCall.heldAfter_failed (fun address heq => hfree ⟨address, heq⟩) hfail]
  · rw [run] at h
    cases h
    rw [PmmCall.heldAfter_claimed hpos (hfit.ne_noFrame hinv.blocksOk hpos)]
    -- an allocation takes the frames of its run
    refine .single (.take (hfit.nodup_runFrames hinv) ?_ ?_)
    · intro x hx
      obtain ⟨i, hi, rfl⟩ := mem_runFrames.mp hx
      exact hfit.free_run hi
    · intro x hx
      obtain ⟨hfree, hne⟩ := (hfit.free_iff hinv x).mp hx
      refine ⟨hfree, fun hmem => ?_⟩
      obtain ⟨i, hi, heq⟩ := mem_runFrames.mp hmem
      exact hne i hi heq
  · rw [run] at h
    cases h
    -- a free gives the frame back
    refine .single (.give allowed fun y hy => ?_)
    rcases (hrel.frame_eq hinv hal false y).mp hy with ⟨_, h⟩ | ⟨h, _⟩
    · exact .inr h
    · exact .inl h

theorem Clients.Step.layout_eq {c c' : Clients} (hinv : c.pmm.Inv) (h : c.Step c') :
    c'.pmm.Inv ∧ c'.pmm.layout = c.pmm.layout := by
  obtain ⟨call, allowed, run⟩ := h
  obtain ⟨_, _, h, hinv', hlay⟩ := call.run_inv hinv
  rw [run] at h
  cases h
  exact ⟨hinv', hlay⟩

/-- Frames of managed PM_USABLE blocks, by a layout. -/
def UsableFrame (layout : List PmBlock) (a : Word) : Prop :=
  ∃ b ∈ layout, b.type = .usable ∧ b.map ≠ none ∧ ∃ f, f < b.framesTotal.toNat ∧ a = b.frame f

/-- The facts a run of callers keeps, over the layout it started with. -/
structure Clients.Inv (layout : List PmBlock) (c : Clients) : Prop where
  pmm : c.pmm.Inv
  layout_eq : c.pmm.layout = layout
  pool : Pool.Inv c.pool
  usable : Pool.Within (UsableFrame layout) c.pool

theorem Clients.Inv.step {layout : List PmBlock} {c c' : Clients} (hal : c.pmm.Aligned)
    (hinv : c.Inv layout) (h : c.Step c') : c'.Inv layout := by
  obtain ⟨hpool, husable⟩ := Pool.run_inv (h.refines hinv.pmm hal) hinv.pool hinv.usable
  obtain ⟨hpm, hlay⟩ := h.layout_eq hinv.pmm
  exact ⟨hpm, hlay.trans hinv.layout_eq, hpool, husable⟩

/-- Everything a run of callers keeps holds along the run. -/
theorem Clients.Inv.run {layout : List PmBlock} {c c' : Clients} (hal : c.pmm.Aligned)
    (hinv : c.Inv layout) (h : Relation.ReflTransGen Clients.Step c c') : c'.Inv layout := by
  induction h with
  | refl => exact hinv
  | tail _ hstep ih =>
      -- the layout stays, so the blocks stay aligned
      refine ih.step ?_ hstep
      unfold Pmm.Aligned at hal ⊢
      rw [ih.layout_eq, ← hinv.layout_eq]
      exact hal

/-! ## From a built pmm -/

section FromBuild

variable (storage : PmmStorage) (mmap : MemoryMap)

theorem buildPmm_aligned : (buildPmm storage mmap.descs).Aligned := by
  intro b hb
  obtain ⟨c, hc, rfl⟩ := List.mem_map.mp hb
  obtain ⟨desc, hdesc, heq⟩ := exists_desc_of_mem_buildPmm storage _ hc
  have haddr : c.address = desc.physicalStart := congrArg Prod.fst heq
  show 4096 ∣ c.address.toNat
  rw [haddr]
  exact (mmap.wellFormed desc hdesc).aligned

/-- Only frames of PM_USABLE blocks start out free. -/
theorem buildPmm_free_usable {a : Word} (h : (buildPmm storage mmap.descs).Free a) :
    UsableFrame (buildPmm storage mmap.descs).layout a := by
  obtain ⟨b, hb, hmap, f, hf, rfl, hbit⟩ := h
  obtain ⟨hbuilt, hw⟩ := buildPmm_built storage _ mmap.wellFormed hb
  refine ⟨b.layout, List.mem_map_of_mem hb, ?_, hmap, f, hf, rfl⟩
  rcases hbuilt.managedType hmap with hty | hty
  · exact hty
  · have hwords := PmBlock.words_eq hw
    rw [hbuilt.reclaimable hmap hty f (by omega)] at hbit
    cases hbit

/-- The frame at address 0 does not start out free. -/
theorem buildPmm_zero_not_free : ¬ (buildPmm storage mmap.descs).Free 0#64 := by
  rintro ⟨b, hb, hmap, f, hf, hnull, hbit⟩
  obtain ⟨hbuilt, hw⟩ := buildPmm_built storage _ mmap.wellFormed hb
  have hwords := PmBlock.words_eq hw
  rcases hbuilt.managedType hmap with hty | hty
  · exact ((hbuilt.usable hmap hty f (by omega)).mp hbit).2 hnull.symm
  · rw [hbuilt.reclaimable hmap hty f (by omega)] at hbit
    cases hbit

theorem buildPmm_clients_inv :
    Clients.Inv (buildPmm storage mmap.descs).layout ⟨buildPmm storage mmap.descs, []⟩ := by
  refine ⟨buildPmm_inv storage mmap, rfl, ⟨List.nodup_nil, fun x hx => by cases hx⟩, ?_⟩
  rintro x (hx | hx)
  · exact buildPmm_free_usable storage mmap hx
  · cases hx

/-- The run of `n` frames at `a` lies inside a descriptor. -/
def EfiMemoryDescriptor.Holds (desc : EfiMemoryDescriptor) (a : Word) (n : Nat) : Prop :=
  desc.physicalStart.toNat ≤ a.toNat ∧
  a.toNat + n * 4096 ≤ desc.physicalStart.toNat + desc.numberOfPages.toNat * 4096

/-- A run of frames of a PM_USABLE block lies in a conventional memory descriptor. -/
theorem conventional_of_usable {b : PmBlock} (hb : b ∈ (buildPmm storage mmap.descs).layout)
    (hty : b.type = .usable) {r n : Nat} (hr : r + n ≤ b.framesTotal.toNat)
    (hn : 0 < n) :
    4096 ∣ (b.frame r).toNat ∧ ∃ desc ∈ mmap.descs, desc.type = .conventionalMemory ∧
      desc.Holds (b.frame r) n := by
  have hal := buildPmm_aligned storage mmap b hb
  obtain ⟨c, hc, rfl⟩ := List.mem_map.mp hb
  obtain ⟨desc, hdesc, heq⟩ := exists_desc_of_mem_buildPmm storage _ hc
  obtain ⟨haddr, htotal, htype, _⟩ : c.address = desc.physicalStart ∧
      c.framesTotal = desc.numberOfPages ∧ c.type = pmTypeOf desc.type ∧ c.attributes = desc.attr :=
    ⟨congrArg Prod.fst heq, congrArg (fun x => x.2.1) heq, congrArg (fun x => x.2.2.1) heq,
      congrArg (fun x => x.2.2.2) heq⟩
  have hw : c.layout.NonWrapping := (buildPmm_inv storage mmap).nonWrapping c hc
  have hframe := PmBlock.frame_toNat hw (show r < c.layout.framesTotal.toNat by omega)
  have haddr' : c.layout.address = desc.physicalStart := haddr
  have htotal' : c.layout.framesTotal = desc.numberOfPages := htotal
  refine ⟨by omega, desc, hdesc, ?_, ?_⟩
  · have htype' : pmTypeOf desc.type = .usable := htype ▸ hty
    cases hd : desc.type <;> rw [hd] at htype' <;> first | rfl | cases htype'
  · unfold EfiMemoryDescriptor.Holds
    rw [hframe, ← haddr', ← htotal']
    omega

/-- A claimed run lies in one PM_USABLE block of the layout. -/
theorem Pmm.FirstFit.usable_run {layout : List PmBlock} {c : Clients} (hinv : c.Inv layout)
    {n : Nat} {a : Word} {pm' : Pmm} (hn : 0 < n) (h : c.pmm.FirstFit n a pm') :
    ∃ b ∈ layout, b.type = .usable ∧ ∃ r, r + n ≤ b.framesTotal.toNat ∧ a = b.frame r := by
  have hfree := h.free_run hn
  obtain ⟨pre, b, post, r, hsplit, _, hrun, _, rfl, _⟩ := h
  have hb := Pmm.mem_split hsplit
  have hend := hrun.2.1
  refine ⟨b.layout, ?_, ?_, r, hend, rfl⟩
  · rw [← hinv.layout_eq]
    exact List.mem_map_of_mem hb
  · -- the block is the usable one its first frame is known to lie in
    obtain ⟨d, hd, hty, _, f, hf, heq⟩ := hinv.usable (b.frame r) (.inl (by
      rw [Pmm.runFrame, ← PmBlock.frame_add] at hfree
      exact hfree))
    rw [← hinv.layout_eq] at hd
    obtain ⟨e, he, rfl⟩ := List.mem_map.mp hd
    by_cases hbe : e = b
    · rw [← hbe]
      exact hty
    · exact absurd heq.symm (Pmm.frame_ne_others hinv.pmm hsplit
        (Pmm.mem_others hsplit he hbe) (by omega) hf)

/-- **No frame is handed out twice.**  After any run of calls in which callers
    free only frames they hold, the held frames are distinct frames of
    conventional memory, and whatever call comes next runs to its end and hands
    out, if anything, a run of page-aligned frames that nobody holds, inside one
    conventional memory descriptor. -/
theorem no_frame_handed_out_twice {c : Clients}
    (h : Relation.ReflTransGen Clients.Step ⟨buildPmm storage mmap.descs, []⟩ c) :
    c.held.Nodup ∧
    (∀ a ∈ c.held, 4096 ∣ a.toNat ∧
      ∃ desc ∈ mmap.descs, desc.type = .conventionalMemory ∧ desc.Holds a 1) ∧
    ∀ call : PmmCall, call.Allowed c.held → ∃ r pm', call.run c.pmm = .ok (r, pm') ∧
      ∀ a, r = some a → a ≠ noFrame →
        (∀ x ∈ runFrames a call.count, 4096 ∣ x.toNat ∧ x ∉ c.held) ∧
        ∃ desc ∈ mmap.descs, desc.type = .conventionalMemory ∧ desc.Holds a call.count := by
  have hinv := (buildPmm_clients_inv storage mmap).run (buildPmm_aligned storage mmap) h
  refine ⟨hinv.pool.nodup, fun a ha => ?_, fun call _ => ?_⟩
  · obtain ⟨b, hb, hty, _, f, hf, rfl⟩ := hinv.usable a (.inr ha)
    exact conventional_of_usable storage mmap hb hty hf Nat.one_pos
  · rcases call.run_cases hinv.pmm with
      ⟨r, hrun, hfail⟩ | ⟨a, pm', hrun, hfit, hpos⟩ | ⟨_, pm', _, hrun, _⟩
    · exact ⟨r, _, hrun, fun a ha hne => absurd (hfail a ha) hne⟩
    · refine ⟨some a, pm', hrun, fun a' ha' _ => ?_⟩
      cases ha'
      obtain ⟨b, hb, hty, r, hr, rfl⟩ := hfit.usable_run hinv hpos
      refine ⟨fun x hx => ?_, (conventional_of_usable storage mmap hb hty hr hpos).2⟩
      obtain ⟨i, hi, rfl⟩ := mem_runFrames.mp hx
      constructor
      · rw [Pmm.runFrame, ← PmBlock.frame_add]
        exact (conventional_of_usable storage mmap hb hty (show r + i + 1 ≤ _ by omega)
          Nat.one_pos).1
      · exact fun hmem => hinv.pool.not_free _ hmem (hfit.free_run hi)
    · exact ⟨none, pm', hrun, fun a ha => by cases ha⟩

end FromBuild

/-- The pmm after a call, or `pm` if the call has no result. -/
def PmmCall.pmmAfter (pm : Pmm) (call : PmmCall) : Pmm :=
  match call.run pm with
  | .ok (_, pm') => pm'
  | .error _ => pm

/-- Two of the three pages are allocated at once, then the third by itself, and the second
    is given back. -/
def threePagesPair : Clients :=
  ⟨(PmmCall.framesAllocate 2#64).pmmAfter threePagesPmm, [0x1000#64, 0x2000#64]⟩

def threePagesAll : Clients :=
  ⟨PmmCall.frameAllocate.pmmAfter threePagesPair.pmm, [0x3000#64, 0x1000#64, 0x2000#64]⟩

def threePagesEnds : Clients :=
  ⟨(PmmCall.frameFree 0x2ABC#64).pmmAfter threePagesAll.pmm, [0x3000#64, 0x1000#64]⟩

theorem threePagesEnds_reached :
    Relation.ReflTransGen Clients.Step ⟨threePagesPmm, []⟩ threePagesEnds := by
  have hpair : Clients.Step ⟨threePagesPmm, []⟩ threePagesPair :=
    @Clients.Step.call _ (some 0x1000#64) _ (.framesAllocate 2#64) trivial rfl
  have hall : Clients.Step threePagesPair threePagesAll :=
    @Clients.Step.call _ (some 0x3000#64) _ .frameAllocate trivial rfl
  have hheld : pageBase 0x2ABC#64 ∈ threePagesAll.held := by decide
  have hends : Clients.Step threePagesAll threePagesEnds :=
    @Clients.Step.call _ none _ (.frameFree 0x2ABC#64) hheld rfl
  exact ((Relation.ReflTransGen.single hpair).tail hall).tail hends

/-- What is held is distinct, and the next call returns the page that was given back. -/
theorem no_frame_handed_out_twice_threePages :
    threePagesEnds.held.Nodup ∧
    ∃ pm', PmmCall.run threePagesEnds.pmm .frameAllocate = .ok (some 0x2000#64, pm') ∧
      0x2000#64 ∉ threePagesEnds.held := by
  obtain ⟨hnodup, _, hnext⟩ := no_frame_handed_out_twice _ threePagesMap threePagesEnds_reached
  obtain ⟨r, pm', hrun, hnew⟩ := hnext .frameAllocate trivial
  have hr : r = some 0x2000#64 := by
    have heq : (PmmCall.run threePagesEnds.pmm .frameAllocate).map Prod.fst
        = .ok (some 0x2000#64) := rfl
    rw [hrun] at heq
    exact Except.ok.inj heq
  subst hr
  have hmem : 0x2000#64 ∈ runFrames 0x2000#64 (PmmCall.count .frameAllocate) := by decide
  exact ⟨hnodup, pm', hrun, ((hnew _ rfl (by decide)).1 _ hmem).2⟩

end EchOS
