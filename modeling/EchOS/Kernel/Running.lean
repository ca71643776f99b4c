/-
  EchOS.Kernel.Running

  After `kernel_start`: what it set up stays as it is, whatever is allocated, freed,
  mapped and written later, as long as nobody gives the frames of the GDT back, writes
  to them, or asks for pages that are mapped to themselves.
-/
import EchOS.Kernel.Memory.Mappings
import EchOS.Kernel.StartReady

namespace EchOS

open FlatMemory
open ByteSystem (Step)
open Relation (ReflTransGen)

/-- The system as `kernel_start` leaves it: the tables are those at CR3, and it holds the
    frames of the GDT. -/
def KernelEnd.handed (e : KernelEnd) : ByteSystem :=
  ⟨e.machine, some e.cpu.cr3, [e.cpu.gdtrBase, e.system.gdt]⟩

/-- A step that leaves alone what `kernel_start` set up. -/
structure KeepsStart (storage : PmmStorage) (mmap : LowMap) (fb : Framebuffer) (e : KernelEnd)
    (sys sys' : ByteSystem) : Prop where
  step : ∃ act, Step (buildPmm storage mmap.descs) sys act sys' ∧
    (∀ x b, act = .write x b → pageBase x ≠ e.cpu.gdtrBase ∧ pageBase x ≠ e.system.gdt) ∧
    ∀ call, act = .table call → call.Clear ∧ ∀ w : Word, w.toNat < 2 ^ 47 →
      MapsPage storage mmap fb (w.toNat / 4096) → ¬ call.Asks w
  base_held : e.cpu.gdtrBase ∈ sys'.held
  gdt_held : e.system.gdt ∈ sys'.held

section Running

variable {storage : PmmStorage} {mmap : LowMap} {fb : Framebuffer} {e : KernelEnd}
  {sys sys' : ByteSystem}

/-- It spares every byte of the two frames. -/
theorem KeepsStart.spares (h : KeepsStart storage mmap fb e sys sys') {x : Word}
    (hx : pageBase x = e.cpu.gdtrBase ∨ pageBase x = e.system.gdt) :
    ByteSystem.Spares (buildPmm storage mmap.physical.descs) x sys sys' := by
  obtain ⟨act, hstep, hwrite, _⟩ := h.step
  refine ⟨act, hstep, .inl ?_, fun b hact => ?_⟩
  · rcases hx with hx | hx
    · rw [hx]
      exact h.base_held
    · rw [hx]
      exact h.gdt_held
  · obtain ⟨hbase, hgdt⟩ := hwrite x b hact
    exact hx.elim hbase hgdt

/-- It leaves every page that is mapped to itself alone. -/
theorem KeepsStart.leavesPage (h : KeepsStart storage mmap fb e sys sys') {w : Word}
    (hw : w.toNat < 2 ^ 47) (hmaps : MapsPage storage mmap fb (w.toNat / 4096)) :
    ByteSystem.LeavesPage (buildPmm storage mmap.physical.descs) w sys sys' := by
  obtain ⟨act, hstep, _, htable⟩ := h.step
  refine ⟨act, hstep, fun call hact => ?_⟩
  obtain ⟨hclear, hasks⟩ := htable call hact
  exact ⟨hclear, hasks w hw hmaps⟩

/-- Where a walk ends and the rights it grants are known from the two, and the other way. -/
theorem walk_eq_some_iff {mem : Mem} {root v x : Word} {write user : Bool} :
    walk mem root v = some ⟨x, write, user⟩ ↔
      translate mem root v = some x ∧
      (effectiveRights mem root v).map (fun r => (r.write, r.user)) = some (write, user) := by
  rw [effectiveRights_walk, translate]
  cases walk mem root v with
  | none => simp
  | some t =>
      obtain ⟨paddr, writable, user'⟩ := t
      simp

/-- What is ready stays so. -/
theorem KernelEnd.Ready.stays (h : e.Ready storage mmap fb)
    (hrun : ReflTransGen (KeepsStart storage mmap fb e) e.handed sys) :
    sys.pml4 = some e.cpu.cr3 ∧
    GdtIn sys.machine.bytes e.system.gdt 39#16 e.cpu.gdtrBase kernelSegments ∧
    ∀ v : Word, v.toNat < 2 ^ 47 → MapsPage storage mmap fb (v.toNat / 4096) →
      walk sys.machine.entry e.cpu.cr3 v = some ⟨v, true, false⟩ := by
  have hreach : ByteSystem.Reachable storage mmap.physical.toMemoryMap e.handed := h.reachable
  refine ⟨?_, ?_, fun v hv hmaps => ?_⟩
  · induction hrun with
    | refl => rfl
    | tail _ hstep ih =>
        obtain ⟨act, hstep, _⟩ := hstep.step
        exact hstep.pml4_eq ih
  · have hframe : ∀ t, t = e.cpu.gdtrBase ∨ t = e.system.gdt → 4096 ∣ t.toNat ∧
        Set.EqOn sys.machine.bytes e.machine.bytes (FlatMemory.span t 4096) := by
      intro t ht
      have hheld : t ∈ e.handed.held := by simpa [KernelEnd.handed] using ht
      have hal : 4096 ∣ t.toNat := hreach.held_aligned hheld
      refine ⟨hal, fun x hx => ?_⟩
      have hpage : pageBase x = e.cpu.gdtrBase ∨ pageBase x = e.system.gdt := by
        rw [pageBase_of_mem_frame hal hx]
        exact ht
      exact (hreach.spares_run (ReflTransGen.mono (fun _ _ hstep => hstep.spares hpage) _ _ hrun)).2
    obtain ⟨hgdt, hdesc⟩ := hframe _ (.inr rfl)
    obtain ⟨hbase, hentries⟩ := hframe _ (.inl rfl)
    exact GdtIn.congr hgdt hbase (by decide) h.gdt hdesc hentries
  · have hcr3 : e.handed.pml4 = some e.cpu.cr3 := rfl
    obtain ⟨hreach', hpml4, hsame⟩ :=
      hreach.leaves_run hcr3 (ReflTransGen.mono (fun _ _ hstep => hstep.leavesPage hv hmaps) _ _ hrun)
    obtain ⟨htranslate, hrights⟩ := walk_eq_some_iff.mp ((h.walk_iff v _ hv).mpr ⟨hmaps, rfl⟩)
    refine walk_eq_some_iff.mpr ⟨hsame.translate_eq.trans htranslate, ?_⟩
    rw [hreach.rights_eq hreach' hcr3 hpml4 hsame]
    exact hrights

end Running

end EchOS
