/-
  EchOS.Kernel.StartReady

  What `kernel_start` does to the machine.  Every call that it makes is a step of the
  byte system, and every byte that it writes lies in a frame that it holds by then;
  so what the runs of that system keep, it keeps.
-/
import EchOS.Kernel.GdtTable
import EchOS.Kernel.InitPagingEnds
import EchOS.Kernel.Memory.FlatSystem
import EchOS.Kernel.Start

namespace EchOS

open FlatMemory

/-! ## `init_paging` on bytes and on tables -/

/-- The same result and the same PML4. -/
def SameRoot (x : Int × Word × ByteMachine) (y : Int × Word × Machine) : Prop :=
  x.1 = y.1 ∧ x.2.1 = y.2.1 ∧ 4096 ∣ y.2.1.toNat ∧ x.2.2.Shows y.2.2

section Shows

variable {b : ByteMachine} {s : Machine} (h : b.Shows s) {root : Word} (hroot : 4096 ∣ root.toNat)
  (fuel : Nat)

include h hroot

theorem mapBlock_shows (block : PmBlock) :
    ResultRel SameResult (Flat.initPaging.mapBlock fuel b root block)
      (initPaging.mapBlock fuel s root block) := by
  unfold Flat.initPaging.mapBlock initPaging.mapBlock
  refine .ite Iff.rfl (fun _ => .ok ⟨rfl, h⟩) fun _ => ?_
  exact .ite Iff.rfl (fun _ => .ok ⟨rfl, h⟩) fun _ => mapRange_shows h hroot _ _ _ fuel _

omit h in
theorem initPaging_loop_shows {left i : Nat} {b : ByteMachine} {s : Machine} (h : b.Shows s) :
    ResultRel SameResult (Flat.initPaging.loop fuel root left i b)
      (initPaging.loop fuel root left i s) := by
  induction left generalizing b s i with
  | zero => exact .ok ⟨rfl, h⟩
  | succ left ih =>
      rw [Flat.initPaging.loop, initPaging.loop, h.pmm_eq]
      cases s.pmm.blocks[i]? with
      | none => exact .ok ⟨rfl, h⟩
      | some block =>
          refine (mapBlock_shows h hroot fuel block).bind ?_
          rintro ⟨mapped, b1⟩ ⟨_, s1⟩ ⟨rfl, h1⟩
          exact .ite Iff.rfl (fun _ => .ok ⟨rfl, h1⟩) fun _ => ih h1

omit hroot in
theorem initPaging_shows (fb : Framebuffer) :
    ResultRel SameRoot (Flat.initPaging fuel b fb) (initPaging fuel s fb) := by
  unfold Flat.initPaging initPaging
  refine (initPml4_shows h).bind ?_
  rintro ⟨pml4, b1⟩ ⟨_, s1⟩ ⟨rfl, hpml4, h1⟩
  refine .ite Iff.rfl (fun _ => .ok ⟨rfl, rfl, hpml4, h1⟩) fun _ => ?_
  dsimp only
  rw [h1.pmm_eq]
  refine (initPaging_loop_shows hpml4 fuel h1).bind ?_
  rintro ⟨mapped, b2⟩ ⟨_, s2⟩ ⟨rfl, h2⟩
  refine .ite Iff.rfl (fun _ => .ok ⟨rfl, rfl, hpml4, h2⟩) fun _ => ?_
  refine (mapRange_shows h2 hpml4 _ _ _ fuel _).bind ?_
  rintro ⟨mapped, b3⟩ ⟨_, s3⟩ ⟨rfl, h3⟩
  exact .ite Iff.rfl (fun _ => .ok ⟨rfl, rfl, hpml4, h3⟩) fun _ => .ok ⟨rfl, rfl, hpml4, h3⟩

end Shows

/-! ## `init_paging` as a run -/

namespace ByteSystem

open Relation

variable {built : Pmm} {b b' : ByteMachine} {root : Word} {held : List Word} {fuel : Nat} {r : Int}

theorem mapRange_call {vaddr paddr length flags : Word}
    (run : Flat.mapRange fuel b root vaddr paddr length flags = .ok (r, b')) :
    CallStep built ⟨b, some root, held⟩ ⟨b', some root, held⟩ :=
  ⟨_, .table rfl (.mapRange vaddr paddr length flags) run, by simp, fun _ ht => ht⟩

theorem mapBlock_calls {block : PmBlock}
    (run : Flat.initPaging.mapBlock fuel b root block = .ok (r, b')) :
    ReflTransGen (CallStep built) ⟨b, some root, held⟩ ⟨b', some root, held⟩ := by
  unfold Flat.initPaging.mapBlock at run
  simp only [] at run
  by_cases htype : block.type = .mmio ∨ block.type = .reserved
  · rw [if_pos htype] at run
    cases run
    exact .refl
  rw [if_neg htype] at run
  split at run
  · split at run
    · cases run
      exact .refl
    · exact .single (mapRange_call run)
  · split at run
    · cases run
      exact .refl
    · exact .single (mapRange_call run)

theorem loop_calls {left i : Nat} (run : Flat.initPaging.loop fuel root left i b = .ok (r, b')) :
    ReflTransGen (CallStep built) ⟨b, some root, held⟩ ⟨b', some root, held⟩ := by
  induction left generalizing b i with
  | zero =>
      cases run
      exact .refl
  | succ left ih =>
      rw [Flat.initPaging.loop] at run
      cases hblock : b.pmm.blocks[i]? with
      | none =>
          rw [hblock] at run
          cases run
          exact .refl
      | some block =>
          rw [hblock] at run
          obtain ⟨⟨mapped, b1⟩, hmap, hrest⟩ := except_bind_ok run
          have hfirst : ReflTransGen (CallStep built) ⟨b, some root, held⟩ ⟨b1, some root, held⟩ :=
            mapBlock_calls hmap
          dsimp only at hrest
          split at hrest
          · cases hrest
            exact hfirst
          · exact hfirst.trans (ih hrest)

/-- Whatever it returns, `init_paging` is a run of calls. -/
theorem initPaging_calls {fb : Framebuffer}
    (run : Flat.initPaging fuel b fb = .ok (r, root, b')) :
    ReflTransGen (CallStep built) ⟨b, none, held⟩
      ⟨b', if root = null then none else some root, held⟩ := by
  obtain ⟨⟨pml4, b1⟩, hinit, hrest⟩ := except_bind_ok run
  have hfirst : ReflTransGen (CallStep built) ⟨b, none, held⟩
      ⟨b1, if pml4 = null then none else some pml4, held⟩ :=
    .single ⟨_, .initPml4 rfl hinit, by simp, fun _ ht => ht⟩
  dsimp only at hrest
  by_cases hnull : pml4 = null
  · rw [if_pos hnull] at hrest
    cases hrest
    exact hfirst
  rw [if_neg hnull] at hrest hfirst
  obtain ⟨⟨mapped, b2⟩, hloop, hrest⟩ := except_bind_ok hrest
  have hblocks := hfirst.trans (loop_calls hloop)
  dsimp only at hrest
  split at hrest
  · cases hrest
    rw [if_neg hnull]
    exact hblocks
  obtain ⟨⟨mapped', b3⟩, hmap, hrest⟩ := except_bind_ok hrest
  have hall := hblocks.tail (mapRange_call hmap)
  dsimp only at hrest
  split at hrest
  · cases hrest
    rw [if_neg hnull]
    exact hall
  · cases hrest
    rw [if_neg hnull]
    exact hall

/-! ## The two frames of the GDT -/

section FromBuild

variable {storage : PmmStorage} {mmap : PhysicalMap} {start mem : Memory 64} {sys : ByteSystem}
  {pmm pmm' : Pmm}

theorem Reachable.held_aligned (h : Reachable storage mmap.toMemoryMap sys) {t : Word}
    (ht : t ∈ sys.held) : 4096 ∣ t.toNat :=
  Pmm.free_aligned (buildPmm_aligned storage mmap.toMemoryMap)
    ((System.Inv.parts h.inv t).mpr (.inr (.inl ht)))

theorem Reachable.allocatedFrom (h : Reachable storage mmap.toMemoryMap sys) :
    Pmm.AllocatedFrom (buildPmm storage mmap.descs) sys.machine.pmm where
  inv := System.Inv.pmm h.inv
  layout_eq := System.Inv.layout_eq h.inv
  free x hx := (System.Inv.parts h.inv x).mpr (.inl hx)

/-- The state of a run that began with the bytes `start`, and has written only to frames
    that the pmm had to give. -/
structure InFrames (storage : PmmStorage) (mmap : PhysicalMap) (start : Memory 64)
    (sys : ByteSystem) : Prop where
  reachable : Reachable storage mmap.toMemoryMap sys
  bytes_eq : ∀ x, ¬ (buildPmm storage mmap.descs).Free (pageBase x) →
    sys.machine.bytes x = start x

theorem InFrames.frameAllocate {a : Word}
    (h : InFrames storage mmap start ⟨⟨pmm, mem⟩, none, held⟩)
    (call : EchOS.frameAllocate pmm = .ok (a, pmm')) (hne : a ≠ noFrame) :
    InFrames storage mmap start ⟨⟨pmm', mem⟩, none, a :: held⟩ := by
  have hrun : PmmCall.frameAllocate.run pmm = .ok (some a, pmm') := by
    rw [PmmCall.run, call]
    rfl
  have hheld : PmmCall.frameAllocate.heldAfter held (some a) = runFrames a 1 ++ held :=
    PmmCall.heldAfter_claimed Nat.one_pos hne
  rw [runFrames_one] at hheld
  have hstep := h.reachable.tail ⟨_, .pmm .frameAllocate trivial hrun⟩
  rw [hheld] at hstep
  exact ⟨hstep, h.bytes_eq⟩

theorem InFrames.store (h : InFrames storage mmap start ⟨⟨pmm, mem⟩, none, held⟩) {t : Word}
    (hheld : t ∈ held) {m : Nat} {a : Word} {v : BitVec m} (hm : m / 8 ≤ 2 ^ 64)
    (hin : span a (m / 8) ⊆ span t 4096) :
    InFrames storage mmap start ⟨⟨pmm, FlatMemory.store mem a v⟩, none, held⟩ := by
  have hal : 4096 ∣ t.toNat := h.reachable.held_aligned hheld
  refine ⟨h.reachable.store hal hheld hm hin, fun x hx => ?_⟩
  have hfree : (buildPmm storage mmap.descs).Free t :=
    (System.Inv.parts h.reachable.inv t).mpr (.inr (.inl hheld))
  refine Eq.trans (store_eqOn mem a v fun hmem => hx ?_) (h.bytes_eq x hx)
  rwa [pageBase_of_mem_frame hal (hin hmem)]

theorem InFrames.calls {sys' : ByteSystem} (h : InFrames storage mmap start sys)
    (hrun : ReflTransGen (CallStep (buildPmm storage mmap.descs)) sys sys') :
    InFrames storage mmap start sys' := by
  obtain ⟨hreach, hsame⟩ := h.reachable.calls hrun
  exact ⟨hreach, fun x hx => (hsame x (.inr hx)).2.trans (h.bytes_eq x hx)⟩

/-- The kernel holds the two frames, and the table in them has `entries` so far. -/
structure GdtStage (storage : PmmStorage) (mmap : PhysicalMap) (start : Memory 64) (pmm : Pmm)
    (gdt base : Word) (mem : Memory 64) (entries : List Word) : Prop where
  inFrames : InFrames storage mmap start ⟨⟨pmm, mem⟩, none, [base, gdt]⟩
  table : GdtIn mem gdt 39#16 base entries

namespace GdtStage

variable {gdt base : Word} {entries : List Word}

theorem gdt_aligned (h : GdtStage storage mmap start pmm gdt base mem entries) :
    4096 ∣ gdt.toNat :=
  h.inFrames.reachable.held_aligned (by simp)

theorem base_aligned (h : GdtStage storage mmap start pmm gdt base mem entries) :
    4096 ∣ base.toNat :=
  h.inFrames.reachable.held_aligned (by simp)

theorem base_ne (h : GdtStage storage mmap start pmm gdt base mem entries) : base ≠ gdt := by
  have hnodup : [base, gdt].Nodup := System.Inv.nodup h.inFrames.reachable.inv
  simpa using hnodup

theorem descriptor
    (h : InFrames storage mmap start ⟨⟨pmm, setGdtLimit mem gdt 39#16⟩, none, [base, gdt]⟩) :
    GdtStage storage mmap start pmm gdt base (setGdtBase (setGdtLimit mem gdt 39#16) gdt base)
      [] := by
  have hgdt : 4096 ∣ gdt.toNat := h.reachable.held_aligned (by simp)
  have hheld : gdt ∈ [base, gdt] := by simp
  exact ⟨h.store hheld (by decide) (base_subset hgdt), .descriptor hgdt mem _ base⟩

theorem add (h : GdtStage storage mmap start pmm gdt base mem entries) {index : Byte}
    (hindex : index.toNat = entries.length) (entry : Word) :
    GdtStage storage mmap start pmm gdt base (gdtEntryAdd mem gdt index entry)
      (entries ++ [entry]) := by
  have hlt := index.isLt
  have hheld : base ∈ [base, gdt] := by simp
  refine ⟨?_, h.table.add h.gdt_aligned h.base_aligned h.base_ne hindex entry⟩
  unfold gdtEntryAdd
  rw [h.table.base_eq]
  exact h.inFrames.store hheld (by decide) (gdtSlot_subset h.base_aligned (by omega))

/-- The five entries. -/
theorem addKernelSegments (h : GdtStage storage mmap start pmm gdt base mem []) :
    GdtStage storage mmap start pmm gdt base (addKernelSegments mem gdt) kernelSegments :=
  ((((h.add rfl _).add rfl _).add rfl _).add rfl _).add rfl _

/-- Calls leave the table as it is. -/
theorem calls (h : GdtStage storage mmap start pmm gdt base mem entries)
    (hlen : entries.length ≤ 512) {b : ByteMachine} {pml4 : Option Word}
    (hrun : ReflTransGen (CallStep (buildPmm storage mmap.descs))
      ⟨⟨pmm, mem⟩, none, [base, gdt]⟩ ⟨b, pml4, [base, gdt]⟩) :
    GdtIn b.bytes gdt 39#16 base entries := by
  have hsame := (h.inFrames.reachable.calls hrun).2
  have hframe : ∀ t ∈ [base, gdt], Set.EqOn b.bytes mem (span t 4096) := by
    intro t ht x hx
    have hal : 4096 ∣ t.toNat := h.inFrames.reachable.held_aligned ht
    exact (hsame x (.inl ((pageBase_of_mem_frame hal hx).symm ▸ ht))).2
  exact h.table.congr h.gdt_aligned h.base_aligned hlen (hframe gdt (by simp)) (hframe base (by simp))

end GdtStage

end FromBuild

end ByteSystem

/-! ## `kernel_start` -/

/-- The pages that `init_paging` maps: of RAM that the firmware reported, and of the
    framebuffer. -/
def MapsPage (storage : PmmStorage) (mmap : LowMap) (fb : Framebuffer) (n : Nat) : Prop :=
  (∃ b ∈ (buildPmm storage mmap.descs).layout, b.IsMapped ∧ b.MeetsPage n) ∨
  PageMeets n fb.buffer.toNat (fb.buffer.toNat + fb.length.toNat)

/-- The kernel in its last loop, with everything set up. -/
structure KernelEnd.Ready (storage : PmmStorage) (mmap : LowMap) (fb : Framebuffer)
    (e : KernelEnd) : Prop where
  gdt : GdtIn e.machine.bytes e.system.gdt 39#16 e.cpu.gdtrBase kernelSegments
  gdtrLimit : e.cpu.gdtrLimit = 39#16
  selectors : e.cpu.cs = 0x08#16 ∧ e.cpu.ds = 0x10#16 ∧ e.cpu.es = 0x10#16 ∧ e.cpu.ss = 0x10#16
  cr3 : e.cpu.cr3 = e.system.pml4
  -- the tables are those at CR3, and the kernel holds the two frames of the GDT
  reachable : ByteSystem.Reachable storage mmap.toMemoryMap
    ⟨e.machine, some e.cpu.cr3, [e.cpu.gdtrBase, e.system.gdt]⟩
  walk_iff : ∀ v t, v.toNat < 2 ^ 47 → (walk e.machine.entry e.cpu.cr3 v = some t ↔
    MapsPage storage mmap fb (v.toNat / 4096) ∧ t = ⟨v, true, false⟩)
  gdt_mapped : ∀ x, pageBase x = e.cpu.gdtrBase ∨ pageBase x = e.system.gdt →
    walk e.machine.entry e.cpu.cr3 x = some ⟨x, true, false⟩

section Start

open ByteSystem

variable {storage : PmmStorage} {mmap : LowMap} {pmm : Pmm} {mem : Memory 64}

/-- A frame of the pmm lies in RAM that `init_paging` maps. -/
theorem mapsPage_of_free {fb : Framebuffer} {x : Word}
    (h : (buildPmm storage mmap.descs).Free (pageBase x)) :
    x.toNat < 2 ^ 47 ∧ MapsPage storage mmap fb (x.toNat / 4096) := by
  obtain ⟨hlow, hmeets⟩ := buildPmm_free_meets storage mmap h
  rw [pageBase_toNat] at hlow hmeets
  rw [Nat.mul_div_cancel _ (by decide)] at hmeets
  exact ⟨by omega, .inl hmeets⟩

/-- `init_paging` on the bytes that the run before it left. -/
theorem initPaging_ready {held : List Word}
    (h : Reachable storage mmap.physical.toMemoryMap ⟨⟨pmm, mem⟩, none, held⟩) {fb : Framebuffer}
    (hpos : 0 < fb.length.toNat) (hend : fb.buffer.toNat + fb.length.toNat ≤ 2 ^ 47) {fuel : Nat}
    (hfuel : 2 ^ 36 ≤ fuel) :
    ∃ r root b, Flat.initPaging fuel ⟨pmm, mem⟩ fb = .ok (r, root, b) ∧
      (r ≠ 0 → b.pmm.freeCount = 0) ∧
      (r = 0 → root ≠ null ∧ ∀ v t, v.toNat < 2 ^ 47 → (walk b.entry root v = some t ↔
        MapsPage storage mmap fb (v.toNat / 4096) ∧ t = ⟨v, true, false⟩)) := by
  have hal := buildPmm_aligned storage mmap.physical.toMemoryMap
  have hpm : Pmm.AllocatedFrom (buildPmm storage mmap.descs) pmm := h.allocatedFrom
  obtain ⟨r, root, s, hcall, hends⟩ := initPaging_ends hpm (ByteMachine.entry ⟨pmm, mem⟩) hend hfuel
  have hrel := initPaging_shows (h.inv.shows hal) fuel fb
  rw [show ByteMachine.tables (⟨⟨pmm, mem⟩, none, held⟩ : ByteSystem).machine
    = ⟨pmm, ByteMachine.entry ⟨pmm, mem⟩⟩ from rfl, hcall] at hrel
  obtain ⟨⟨r', root', b⟩, hflat, hr, hroot, hroot_al, hshows⟩ := hrel.of_ok_right
  dsimp only at hr hroot hroot_al hshows
  subst hr hroot
  refine ⟨r', root', b, hflat, fun hne => ?_, fun hzero => ?_⟩
  · rw [hshows.pmm_eq]
    rcases hends with hzero | ⟨_, hempty⟩
    · exact absurd hzero hne
    · exact hempty
  · subst hzero
    have hid := initPaging_identity hpm hpos hend hcall
    refine ⟨(initPaging_ok hcall).1, fun v t hv => ?_⟩
    have hwalk : walk b.entry root' v = walk s.mem root' v :=
      walk_congr hroot_al (fun t ht => funext fun i => (hshows.entry_eq t i ht).symm) v
    rw [hwalk]
    by_cases hcov : MapsPage storage mmap fb (v.toNat / 4096)
    · rw [hid.walk_of_covered hv hcov]
      simp [hcov, eq_comm]
    · rw [hid.walk_of_not_covered hv hcov]
      simp [hcov]

/-- The GDT is loaded, and `init_paging` has returned 0. -/
theorem ByteSystem.GdtStage.ready {start : Memory 64} {gdt base : Word}
    (h : GdtStage storage mmap.physical start pmm gdt base mem kernelSegments) {fb : Framebuffer}
    {fuel : Nat} {root : Word} {b : ByteMachine}
    (hcall : Flat.initPaging fuel ⟨pmm, mem⟩ fb = .ok (0, root, b)) (hroot : root ≠ null)
    (hwalk : ∀ v t, v.toNat < 2 ^ 47 → (walk b.entry root v = some t ↔
      MapsPage storage mmap fb (v.toNat / 4096) ∧ t = ⟨v, true, false⟩))
    {sys : Colonel} (cpu : Cpu) (console : List Message) :
    KernelEnd.Ready storage mmap fb ⟨.started, b, { sys with gdt, pml4 := root },
      { gdtFlush cpu mem gdt with cr3 := root }, console⟩ := by
  have hrun : Relation.ReflTransGen (CallStep (buildPmm storage mmap.descs))
      ⟨⟨pmm, mem⟩, none, [base, gdt]⟩ ⟨b, if root = null then none else some root, [base, gdt]⟩ :=
    initPaging_calls hcall
  rw [if_neg hroot] at hrun
  have hbase : gdtBase mem gdt = base := h.table.base_eq
  have hreach := (h.inFrames.calls hrun).reachable
  refine ⟨?_, h.table.limit_eq, ⟨rfl, rfl, rfl, rfl⟩, rfl, ?_, hwalk, fun x hx => ?_⟩
  · dsimp only [gdtFlush]
    rw [hbase]
    exact h.calls (by decide) hrun
  · dsimp only [gdtFlush]
    rw [hbase]
    exact hreach
  · dsimp only [gdtFlush] at hx ⊢
    rw [hbase] at hx
    have hheld : pageBase x ∈ [base, gdt] := by simpa using hx
    have hfree : (buildPmm storage mmap.descs).Free (pageBase x) :=
      (System.Inv.parts hreach.inv _).mpr (.inr (.inl hheld))
    obtain ⟨hlow, hmaps⟩ := mapsPage_of_free hfree
    exact (hwalk x _ hlow).mpr ⟨hmaps, rfl⟩

/-- The first frame is allocated, and the limit stored in it. -/
theorem inFrames_limit {bytes : Memory 64} {gdt : Word} {pm1 : Pmm}
    (hcall : frameAllocate (buildPmm storage mmap.descs) = .ok (gdt, pm1)) (hne : gdt ≠ noFrame) :
    InFrames storage mmap.physical bytes ⟨⟨pm1, setGdtLimit bytes gdt 39#16⟩, none, [gdt]⟩ := by
  have h0 : InFrames storage mmap.physical bytes
      ⟨⟨buildPmm storage mmap.descs, bytes⟩, none, []⟩ := ⟨⟨bytes, .refl⟩, fun _ _ => rfl⟩
  have h1 := h0.frameAllocate hcall hne
  have hheld : gdt ∈ [gdt] := by simp
  exact h1.store hheld (by decide) (limit_subset (h1.reachable.held_aligned hheld))

/-- What `kernel_start` leaves of the `bytes` it starts on: it is ready, or a frame was
    missing, CR3 is then as it was; and only bytes of free frames have changed. -/
structure KernelEnd.After (storage : PmmStorage) (mmap : LowMap) (fb : Framebuffer) (cpu : Cpu)
    (bytes : Memory 64) (e : KernelEnd) : Prop where
  ready : e.halt = .started → e.Ready storage mmap fb
  short : e.halt ≠ .started → e.machine.pmm.freeCount = 0 ∧ e.cpu.cr3 = cpu.cr3
  bytes_eq : ∀ x, ¬ (buildPmm storage mmap.descs).Free (pageBase x) →
    e.machine.bytes x = bytes x

theorem kernelStart_after (packageString : CString) (address : Word) {sys : Colonel}
    (hpos : 0 < sys.fb.length.toNat)
    (hend : sys.fb.buffer.toNat + sys.fb.length.toNat ≤ 2 ^ 47) (cpu : Cpu) (bytes : Memory 64)
    {fuel : Nat} (hfuel : 2 ^ 36 ≤ fuel) :
    ∃ e, kernelStart fuel packageString address sys cpu ⟨buildPmm storage mmap.descs, bytes⟩
        = .ok e ∧ e.After storage mmap sys.fb cpu bytes := by
  have h0 : InFrames storage mmap.physical bytes
      ⟨⟨buildPmm storage mmap.descs, bytes⟩, none, []⟩ := ⟨⟨bytes, .refl⟩, fun _ _ => rfl⟩
  unfold kernelStart
  dsimp only
  -- the frame of the descriptor
  rcases Pmm.frameAllocate_count (System.Inv.pmm h0.reachable.inv)
    with ⟨hcall, hempty⟩ | ⟨gdt, pm1, hcall, _, hne, _⟩
  all_goals rw [show frameAllocate (buildPmm storage mmap.descs) = _ from hcall]
  · exact ⟨_, rfl, ⟨by simp, fun _ => ⟨hempty, rfl⟩, h0.bytes_eq⟩⟩
  have h2 : InFrames storage mmap.physical bytes
      ⟨⟨pm1, setGdtLimit bytes gdt 39#16⟩, none, [gdt]⟩ := inFrames_limit hcall hne
  simp only [bind, Except.bind, if_neg hne]
  -- the frame of the entries
  rcases Pmm.frameAllocate_count (System.Inv.pmm h2.reachable.inv)
    with ⟨hcall, hempty⟩ | ⟨base, pm2, hcall, _, hne, _⟩
  all_goals rw [show frameAllocate pm1 = _ from hcall]
  · exact ⟨_, rfl, ⟨by simp, fun _ => ⟨hempty, rfl⟩, h2.bytes_eq⟩⟩
  have hstage := (GdtStage.descriptor (h2.frameAllocate hcall hne)).addKernelSegments
  simp only [if_neg hne]
  -- the page tables
  obtain ⟨r, root, b, hpaging, hfail, hready⟩ :=
    initPaging_ready hstage.inFrames.reachable hpos hend hfuel
  have hrun := hstage.inFrames.calls (initPaging_calls hpaging)
  rw [show Flat.initPaging fuel ⟨pm2, addKernelSegments
    (setGdtBase (setGdtLimit bytes gdt (BitVec.ofNat 16 (gdtEntryCount * 8 - 1))) gdt base) gdt⟩
    sys.fb = _ from hpaging]
  by_cases hr : r = 0
  · subst hr
    obtain ⟨hroot, hwalk⟩ := hready rfl
    exact ⟨_, rfl, ⟨fun _ => hstage.ready hpaging hroot hwalk cpu _, by simp, hrun.bytes_eq⟩⟩
  · simp only [if_pos hr]
    exact ⟨_, rfl, ⟨by simp, fun _ => ⟨hfail hr, rfl⟩, hrun.bytes_eq⟩⟩

/-- With two frames for the GDT, and if `init_paging` succeeds on what is stored by then, the
    kernel gets to its last loop. -/
theorem kernelStart_started (packageString : CString) (address : Word) {sys : Colonel} (cpu : Cpu)
    {bytes : Memory 64} {fuel : Nat} {gdt base root : Word} {pm1 pm2 : Pmm} {s : Machine}
    (hgdt : frameAllocate (buildPmm storage mmap.descs) = .ok (gdt, pm1)) (hgdt_ne : gdt ≠ noFrame)
    (hbase : frameAllocate pm1 = .ok (base, pm2)) (hbase_ne : base ≠ noFrame)
    (hpaging : initPaging fuel (ByteMachine.tables ⟨pm2,
      addKernelSegments (setGdtBase (setGdtLimit bytes gdt 39#16) gdt base) gdt⟩) sys.fb
        = .ok (0, root, s)) :
    ∃ e, kernelStart fuel packageString address sys cpu ⟨buildPmm storage mmap.descs, bytes⟩
        = .ok e ∧ e.halt = .started := by
  have hlimit : InFrames storage mmap.physical bytes
      ⟨⟨pm1, setGdtLimit bytes gdt 39#16⟩, none, [gdt]⟩ := inFrames_limit hgdt hgdt_ne
  have hstage := (GdtStage.descriptor (hlimit.frameAllocate hbase hbase_ne)).addKernelSegments
  have hshows := hstage.inFrames.reachable.inv.shows
    (buildPmm_aligned storage mmap.physical.toMemoryMap)
  have hrel := initPaging_shows hshows fuel sys.fb
  rw [hpaging] at hrel
  obtain ⟨⟨r, root', b⟩, hflat, hr, _⟩ := hrel.of_ok_right
  dsimp only at hr
  subst hr
  unfold kernelStart
  simp only [hgdt, bind, Except.bind, if_neg hgdt_ne, hbase, if_neg hbase_ne]
  rw [show Flat.initPaging fuel ⟨pm2, addKernelSegments
    (setGdtBase (setGdtLimit bytes gdt (BitVec.ofNat 16 (gdtEntryCount * 8 - 1))) gdt base) gdt⟩
    sys.fb = _ from hflat]
  exact ⟨_, rfl, rfl⟩

end Start

/-- The hand-over of the six pages; page 8 is the framebuffer's. -/
def sixPagesColonel : Colonel :=
  { physicalMemory := 0x8000#64, pml4 := null, gdt := null, fb := smallFramebuffer }

/-- The registers as the firmware had them. -/
def firmwareCpu : Cpu :=
  { gdtrLimit := 0x47#16, gdtrBase := 0x7000#64, cs := 0x38#16, ds := 0x30#16, es := 0x30#16,
    ss := 0x30#16, cr3 := 0x6000#64 }

/-- The six pages, less the two frames of the GDT. -/
def sixPagesTwoTaken : Pmm :=
  match frameAllocate sixPagesTaken with
  | .ok (_, pm) => pm
  | .error _ => sixPagesTaken

/-- Zeros, but for a byte of page 0. -/
def strayByte : Memory 64 := Function.update (fun _ => 0#8) 0x123#64 0xAB#8

/-- The other four frames are enough for the tables. -/
theorem kernelStart_sixPages (packageString : CString) (address : Word) {sys : Colonel} (cpu : Cpu)
    (hfb : sys.fb = smallFramebuffer) :
    ∃ e, kernelStart (2 ^ 36) packageString address sys cpu
      ⟨buildPmm oneBlock sixPagesLow.descs, strayByte⟩ = .ok e ∧ e.halt = .started := by
  have hends : (initPaging (2 ^ 36) (ByteMachine.tables ⟨sixPagesTwoTaken, addKernelSegments
      (setGdtBase (setGdtLimit strayByte 0x1000#64 39#16) 0x1000#64 0x2000#64) 0x1000#64⟩)
        smallFramebuffer).map (fun r => (r.1, r.2.1)) = .ok (0, 0x3000#64) := rfl
  cases hpaging : initPaging (2 ^ 36) (ByteMachine.tables ⟨sixPagesTwoTaken, addKernelSegments
      (setGdtBase (setGdtLimit strayByte 0x1000#64 39#16) 0x1000#64 0x2000#64) 0x1000#64⟩)
        smallFramebuffer with
  | error abort =>
      rw [hpaging] at hends
      cases hends
  | ok r =>
      obtain ⟨r, root, s⟩ := r
      rw [hpaging] at hends
      obtain ⟨rfl, rfl⟩ := Prod.mk.inj (Except.ok.inj hends)
      have hgdt : frameAllocate (buildPmm oneBlock sixPagesLow.descs)
          = .ok (0x1000#64, sixPagesTaken) := rfl
      have hbase : frameAllocate sixPagesTaken = .ok (0x2000#64, sixPagesTwoTaken) := rfl
      exact kernelStart_started packageString address cpu hgdt (by decide) hbase (by decide)
        (hfb ▸ hpaging)

end EchOS
