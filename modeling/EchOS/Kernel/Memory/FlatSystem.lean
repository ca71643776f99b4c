/-
  EchOS.Kernel.Memory.FlatSystem

  The memory subsystem with memory as bytes: the calls of `System`, and callers
  that write to the frames they hold and to the memory that the pmm never had.

  The tables in the bytes keep the invariant of `System` (`ByteSystem.Inv`), so
  what callers write and what the paging code writes never meet: a caller's write
  changes no translation, and a call changes no byte that callers own.
-/
import EchOS.Kernel.Memory.FlatPaging
import EchOS.Kernel.Memory.TableWrites

namespace EchOS

open FlatMemory

/-! ## The invariant depends on the tables -/

section Congr

variable {s s' : Machine} {root : Word}

/-- Machines with the same tables. -/
theorem Machine.tableAt_congr (hmem : ∀ p a, s.tableAt root p = some a → s'.mem a = s.mem a)
    (p : List Index) : s'.tableAt root p = s.tableAt root p :=
  PointerTree.node_congr hmem p

theorem Machine.TreeInv.congr (h : s.TreeInv root) (hpmm : s'.pmm = s.pmm)
    (hmem : ∀ p a, s.tableAt root p = some a → s'.mem a = s.mem a) : s'.TreeInv root := by
  have htable := Machine.tableAt_congr hmem
  have hentry : ∀ p, s'.entryAt root p = s.entryAt root p := PointerTree.slot_congr hmem
  refine ⟨hpmm ▸ h.pmm, hpmm ▸ h.frames, hpmm ▸ h.null_not_free, fun p q a hp hq => ?_,
    fun p a hp => ?_, fun i p e hp he hpres => ?_⟩
  · exact h.separate p q a ((htable p).symm.trans hp) ((htable q).symm.trans hq)
  · rw [hpmm]
    exact h.tables p a ((htable p).symm.trans hp)
  · exact h.sizes i p e hp ((hentry _).symm.trans he) hpres

theorem System.Inv.congr {built : Pmm} {sys : System} (h : sys.Inv built) {mem : Mem}
    (hmem : ∀ x, sys.IsTable x → mem x = sys.machine.mem x) :
    System.Inv built { sys with machine := { sys.machine with mem } } := by
  have hsame : ∀ root, sys.pml4 = some root → ∀ p a, sys.machine.tableAt root p = some a →
      mem a = sys.machine.mem a := fun root hroot p a hp => hmem a ⟨root, p, hroot, hp⟩
  have htable : ∀ x, System.IsTable { sys with machine := { sys.machine with mem } } x ↔
      sys.IsTable x := by
    intro x
    refine exists_congr fun root => exists_congr fun p => and_congr_right fun hroot => ?_
    have heq : Machine.tableAt { sys.machine with mem } root p = sys.machine.tableAt root p :=
      Machine.tableAt_congr (hsame root hroot) p
    exact Eq.congr_left heq
  refine ⟨h.pmm, h.frames, h.layout_eq, h.null_not_free, fun root hroot => ?_, h.nodup, h.held_used,
    fun x hx hx' => h.held_not_table x hx ((htable x).mp hx'), fun x => ?_⟩
  · exact (h.tree root hroot).congr rfl (hsame root hroot)
  · rw [htable]
    exact h.parts x

/-- The tables of a tree are frames of the pmm it started from. -/
theorem System.Inv.isTable_free {built : Pmm} {sys : System} (h : sys.Inv built) {x : Word}
    (hx : sys.IsTable x) : built.Free x :=
  (h.parts x).mpr (.inr (.inr hx))

theorem System.Inv.isTable_aligned {built : Pmm} (hal : built.Aligned) {sys : System}
    (h : sys.Inv built) {x : Word} (hx : sys.IsTable x) : 4096 ∣ x.toNat :=
  Pmm.free_aligned hal (h.isTable_free hx)

/-- What callers hold, or the pmm never had, is no table. -/
theorem System.Inv.not_isTable {built : Pmm} {sys : System} (h : sys.Inv built) {t : Word}
    (ht : t ∈ sys.held ∨ ¬ built.Free t) : ¬ sys.IsTable t := by
  intro htable
  rcases ht with hheld | hfree
  · exact h.held_not_table t hheld htable
  · exact hfree (h.isTable_free htable)

end Congr

/-- The walk reads tables at whole frames only. -/
theorem walk_congr {mem mem' : Mem} {root : Word} (hroot : 4096 ∣ root.toNat)
    (h : ∀ t, 4096 ∣ t.toNat → mem' t = mem t) (v : Word) : walk mem' root v = walk mem root v := by
  unfold walk
  simp only [h root hroot, h _ (physAddrMask_aligned _)]

/-! ## Runs -/

structure ByteSystem where
  machine : ByteMachine
  pml4 : Option Word
  held : List Word

namespace ByteSystem

/-- The system as its tables show it. -/
def tables (sys : ByteSystem) : System := ⟨sys.machine.tables, sys.pml4, sys.held⟩

/-- A byte that callers may write: of a frame they hold, or of memory that was never
    the pmm's to give, such as the kernel's image and its stack.  A write never
    changes the allocator's records, which are not in the bytes. -/
def Owned (built : Pmm) (sys : ByteSystem) (x : Word) : Prop :=
  pageBase x ∈ sys.held ∨ ¬ built.Free (pageBase x)

/-- What happens in a step. -/
inductive Action where
  | pmm (call : PmmCall)
  | initPml4
  | table (call : TableCall)
  | write (x : Word) (b : Byte)

inductive Step (built : Pmm) : ByteSystem → Action → ByteSystem → Prop where
  | pmm {sys : ByteSystem} {r : Option Word} {pmm : Pmm} (call : PmmCall)
      (allowed : call.Allowed sys.held) (run : call.run sys.machine.pmm = .ok (r, pmm)) :
      Step built sys (.pmm call)
        ⟨{ sys.machine with pmm }, sys.pml4, call.heldAfter sys.held r⟩
  | initPml4 {sys : ByteSystem} {root : Word} {s : ByteMachine} (first : sys.pml4 = none)
      (run : Flat.initPml4 sys.machine = .ok (root, s)) :
      Step built sys .initPml4 ⟨s, if root = null then none else some root, sys.held⟩
  | table {sys : ByteSystem} {root : Word} {fuel : Nat} {r : Int} {s : ByteMachine}
      (pml4 : sys.pml4 = some root) (call : TableCall)
      (run : call.runFlat fuel sys.machine root = .ok (r, s)) :
      Step built sys (.table call) ⟨s, sys.pml4, call.reserved sys.machine.pmm r ++ sys.held⟩
  | write {sys : ByteSystem} (x : Word) (b : Byte) (owned : sys.Owned built x) :
      Step built sys (.write x b)
        { sys with machine := { sys.machine with bytes := Function.update sys.machine.bytes x b } }

/-- The root stays once it is set. -/
theorem Step.pml4_eq {built : Pmm} {sys sys' : ByteSystem} {act : Action}
    (h : Step built sys act sys') {root : Word} (hroot : sys.pml4 = some root) :
    sys'.pml4 = some root := by
  cases h with
  | pmm call allowed run => exact hroot
  | initPml4 first run =>
      rw [first] at hroot
      cases hroot
  | table pml4 call run => exact hroot
  | write x b owned => exact hroot

/-- A step that is no write is a step of the tables, as long as the root is aligned. -/
theorem Step.simulates {built : Pmm} {sys sys' : ByteSystem} {act : Action}
    (hstep : Step built sys act sys') (hshows : sys.machine.Shows sys.machine.tables)
    (haligned : ∀ root, sys.pml4 = some root → 4096 ∣ root.toNat)
    (hact : ∀ x b, act ≠ .write x b) :
    ∃ s, System.AnyStep sys.tables ⟨s, sys'.pml4, sys'.held⟩ ∧ sys'.machine.Shows s := by
  cases hstep with
  | pmm call allowed run =>
      rename_i r pmm
      obtain ⟨r', pmm', hcall, hinv, hlay⟩ := call.run_inv hshows.inv
      cases run.symm.trans hcall
      exact ⟨{ sys.machine.tables with pmm }, .step (.pmm call allowed run),
        hshows.withPmm hinv hlay⟩
  | initPml4 first run =>
      have hrel := initPml4_shows hshows
      rw [run] at hrel
      obtain ⟨⟨root, s⟩, hcall, rfl, _, hshows'⟩ := hrel.of_ok_left
      exact ⟨s, .step (.initPml4 first hcall), hshows'⟩
  | table pml4 call run =>
      rename_i root _ _ _
      obtain ⟨s, hcall, hshows'⟩ := TableCall.run_of_flat hshows (haligned root pml4) run
      exact ⟨s, .table pml4 call hcall, hshows'⟩
  | write x b owned => exact absurd rfl (hact x b)

/-- The frames are free, held or tables, as the tables show them. -/
def Inv (built : Pmm) (sys : ByteSystem) : Prop := sys.tables.Inv built

section Preservation

variable {built : Pmm} (hal : built.Aligned) {sys sys' : ByteSystem}

theorem Inv.aligned {built : Pmm} (hal : built.Aligned) (h : sys.Inv built) :
    sys.machine.pmm.Aligned := by
  have hlay : sys.machine.pmm.layout = built.layout := h.layout_eq
  unfold Pmm.Aligned
  rw [hlay]
  exact hal

theorem Inv.shows {built : Pmm} (hal : built.Aligned) (h : sys.Inv built) :
    sys.machine.Shows sys.machine.tables :=
  ByteMachine.tables_shows h.pmm (h.aligned hal)

theorem Inv.root_isTable {root : Word} (hroot : sys.pml4 = some root) :
    sys.tables.IsTable root := ⟨root, [], hroot, rfl⟩

/-- What a call does to the bytes it does to the tables. -/
theorem Inv.of_shows (hal : built.Aligned) {s : Machine} {b : ByteMachine} {pml4 : Option Word}
    {held : List Word} (hinv : System.Inv built ⟨s, pml4, held⟩) (hshows : b.Shows s) :
    Inv built ⟨b, pml4, held⟩ := by
  have hcongr : System.Inv built
      { (⟨s, pml4, held⟩ : System) with machine := { s with mem := b.entry } } :=
    hinv.congr fun x hx => funext fun i =>
      (hshows.entry_eq x i (hinv.isTable_aligned hal hx)).symm
  have heq : (⟨b, pml4, held⟩ : ByteSystem).tables
      = { (⟨s, pml4, held⟩ : System) with machine := { s with mem := b.entry } } := by
    unfold tables ByteMachine.tables
    rw [hshows.pmm_eq]
  unfold Inv
  rw [heq]
  exact hcongr

include hal

theorem Inv.root_aligned (h : sys.Inv built) {root : Word} (hroot : sys.pml4 = some root) :
    4096 ∣ root.toNat :=
  System.Inv.isTable_aligned hal h (Inv.root_isTable hroot)

/-- A call on the tree is one that the tables show. -/
theorem Inv.table_shows (h : sys.Inv built) {root : Word} (hroot : sys.pml4 = some root)
    {call : TableCall} {fuel : Nat} {r : Int} {b : ByteMachine}
    (run : call.runFlat fuel sys.machine root = .ok (r, b)) :
    ∃ s, call.run fuel sys.machine.tables root = .ok (r, s) ∧ b.Shows s :=
  TableCall.run_of_flat (h.shows hal) (h.root_aligned hal hroot) run

/-- A step that is no write is a step of the tables. -/
theorem Inv.simulates {act : Action} (h : sys.Inv built) (hstep : Step built sys act sys')
    (hact : ∀ x b, act ≠ .write x b) :
    ∃ s, System.AnyStep sys.tables ⟨s, sys'.pml4, sys'.held⟩ ∧ sys'.machine.Shows s :=
  hstep.simulates (h.shows hal) (fun _ hroot => h.root_aligned hal hroot) hact

/-- A caller's write lies in no table. -/
theorem Inv.entry_write (h : sys.Inv built) {x : Word} (hx : sys.Owned built x) (b : Byte)
    {t : Word} (ht : sys.tables.IsTable t) (i : Index) :
    ByteMachine.entry { sys.machine with bytes := Function.update sys.machine.bytes x b } t i
      = sys.machine.entry t i := by
  have htal := System.Inv.isTable_aligned hal h ht
  refine load_congr (by decide) (by decide) fun y hy => Function.update_of_ne ?_ _ _
  rintro rfl
  have hpage := pageBase_of_mem_frame htal (slot_subset htal i hy)
  exact System.Inv.not_isTable h hx (hpage ▸ ht)

theorem Inv.write (h : sys.Inv built) {x : Word} {b : Byte} (hx : sys.Owned built x) :
    Inv built { sys with
      machine := { sys.machine with bytes := Function.update sys.machine.bytes x b } } :=
  System.Inv.congr h fun _ ht => funext (h.entry_write hal hx b ht)

theorem Inv.step {act : Action} (h : sys.Inv built) (hstep : Step built sys act sys') :
    sys'.Inv built := by
  by_cases hact : ∃ x b, act = .write x b
  · obtain ⟨x, b, rfl⟩ := hact
    cases hstep with
    | write x b owned => exact h.write hal owned
  · obtain ⟨s, hsim, hshows⟩ := h.simulates hal hstep fun x b heq => hact ⟨x, b, heq⟩
    exact .of_shows hal (System.Inv.anyStep h hsim) hshows

/-- Only a write changes a byte that callers own and keep. -/
theorem Inv.bytes_eq {act : Action} (h : sys.Inv built) (hstep : Step built sys act sys')
    (hact : ∀ x b, act ≠ .write x b) {x : Word} (hx : sys'.Owned built x) :
    sys'.machine.bytes x = sys.machine.bytes x := by
  obtain ⟨s, hsim, hshows⟩ := h.simulates hal hstep hact
  -- the byte's page is no table after the step
  have hmem := hsim.mem_eq h ((System.Inv.anyStep h hsim).not_isTable hx)
  have hpage := pageBase_aligned x
  refine eqOn_frame_of_entries hpage (fun i => ?_) (mem_frame_of_page x)
  rw [← hshows.entry_eq _ i hpage, hmem]
  rfl

end Preservation

/-- A step of whatever kind. -/
def Steps (built : Pmm) (sys sys' : ByteSystem) : Prop := ∃ act, Step built sys act sys'

/-- Some run leads from `build_pmm`'s pmm, in a memory with any contents, to `sys`. -/
def Reachable (storage : PmmStorage) (mmap : MemoryMap) (sys : ByteSystem) : Prop :=
  ∃ bytes, Relation.ReflTransGen (Steps (buildPmm storage mmap.descs))
    ⟨⟨buildPmm storage mmap.descs, bytes⟩, none, []⟩ sys

section FromBuild

variable {storage : PmmStorage} {mmap : PhysicalMap} {sys sys' : ByteSystem}

/-- The invariant of every reachable state. -/
theorem Reachable.inv (h : Reachable storage mmap.toMemoryMap sys) :
    sys.Inv (buildPmm storage mmap.descs) := by
  obtain ⟨bytes, hrun⟩ := h
  induction hrun with
  | refl => exact System.Inv.start storage mmap _
  | tail _ hstep ih =>
      obtain ⟨act, hstep⟩ := hstep
      exact ih.step (buildPmm_aligned storage mmap.toMemoryMap) hstep

theorem Reachable.tail {mmap : MemoryMap} (h : Reachable storage mmap sys)
    (hstep : Steps (buildPmm storage mmap.descs) sys sys') : Reachable storage mmap sys' := by
  obtain ⟨bytes, hrun⟩ := h
  exact ⟨bytes, hrun.tail hstep⟩

end FromBuild

/-- A step that is no write, and in which callers keep what they hold. -/
def CallStep (built : Pmm) (sys sys' : ByteSystem) : Prop :=
  ∃ act, Step built sys act sys' ∧ (∀ x b, act ≠ .write x b) ∧ ∀ t ∈ sys.held, t ∈ sys'.held

/-- Over such steps every byte that callers own stays as it is. -/
theorem Reachable.calls {storage : PmmStorage} {mmap : PhysicalMap} {sys sys' : ByteSystem}
    (h : Reachable storage mmap.toMemoryMap sys)
    (hrun : Relation.ReflTransGen (CallStep (buildPmm storage mmap.descs)) sys sys') :
    Reachable storage mmap.toMemoryMap sys' ∧
    ∀ x, sys.Owned (buildPmm storage mmap.descs) x →
      sys'.Owned (buildPmm storage mmap.descs) x ∧ sys'.machine.bytes x = sys.machine.bytes x := by
  have hal := buildPmm_aligned storage mmap.toMemoryMap
  induction hrun with
  | refl => exact ⟨h, fun x hx => ⟨hx, rfl⟩⟩
  | tail _ hstep ih =>
      obtain ⟨hreach, hsame⟩ := ih
      obtain ⟨act, hstep, hact, hkeep⟩ := hstep
      refine ⟨hreach.tail ⟨act, hstep⟩, fun x hx => ?_⟩
      obtain ⟨hmid, heq⟩ := hsame x hx
      have howned := hmid.imp_left (hkeep _)
      exact ⟨howned, (hreach.inv.bytes_eq hal hstep hact howned).trans heq⟩

/-- A value is written to a frame that a caller holds. -/
theorem Reachable.store {storage : PmmStorage} {mmap : MemoryMap} {pmm : Pmm} {mem : Memory 64}
    {pml4 : Option Word} {held : List Word} (h : Reachable storage mmap ⟨⟨pmm, mem⟩, pml4, held⟩)
    {t : Word} (ht : 4096 ∣ t.toNat) (hheld : t ∈ held) {m : Nat} {a : Word} {v : BitVec m}
    (hm : m / 8 ≤ 2 ^ 64) (hin : span a (m / 8) ⊆ span t 4096) :
    Reachable storage mmap ⟨⟨pmm, FlatMemory.store mem a v⟩, pml4, held⟩ := by
  refine store_induct (P := fun mem => Reachable storage mmap ⟨⟨pmm, mem⟩, pml4, held⟩) mem a v hm h
    fun mem' x b hx hreach => hreach.tail ⟨.write x b, ?_⟩
  exact .write x b (.inl (by rwa [pageBase_of_mem_frame ht (hin hx)]))

/-- What a call on the bytes has in common with one on the tables, from `s`: the result,
    the pmm and every translation; and it changes no byte outside the tables. -/
structure RefinesCall (s : ByteMachine) (root : Word) (x : Int × ByteMachine) (y : Int × Machine) :
    Prop where
  result_eq : x.1 = y.1
  pmm_eq : x.2.pmm = y.2.pmm
  walk_eq : ∀ v, walk x.2.entry root v = walk y.2.mem root v
  bytes_eq : ∀ a, (∀ p, y.2.tableAt root p ≠ some (pageBase a)) → x.2.bytes a = s.bytes a

/-- **A call on the bytes is a call on the tables.**  In every reachable state with a tree,
    `map_page`, `map_large_page`, `map_range` and `get_heap` on memory as bytes end as
    they do on the tables that the bytes hold: both abort, or both return the same result
    with the same pmm, and the processor's walk over the bytes translates every address as
    the walk over the tables does.  The bytes that changed lie in tables of the tree. -/
theorem flat_call_refines {storage : PmmStorage} {mmap : PhysicalMap} {sys : ByteSystem}
    (h : Reachable storage mmap.toMemoryMap sys) {root : Word} (hroot : sys.pml4 = some root)
    (call : TableCall) (fuel : Nat) :
    ResultRel (RefinesCall sys.machine root) (call.runFlat fuel sys.machine root)
      (call.run fuel sys.machine.tables root) := by
  have hal := buildPmm_aligned storage mmap.toMemoryMap
  have haligned := h.inv.root_aligned hal hroot
  have hrel : ResultRel SameResult (call.runFlat fuel sys.machine root)
      (call.run fuel sys.machine.tables root) := call.runFlat_shows (h.inv.shows hal) haligned
  cases hcall : call.run fuel sys.machine.tables root with
  | error e =>
      rw [hcall] at hrel
      exact hrel.mono_error
  | ok y =>
      obtain ⟨r, s⟩ := y
      rw [hcall] at hrel
      obtain ⟨⟨r', b⟩, hflat, hr, hshows⟩ := hrel.of_ok_right
      rw [hflat]
      refine .ok ⟨hr, hshows.pmm_eq, fun v => ?_, fun a ha => ?_⟩
      · exact walk_congr haligned (fun t ht => funext fun i => (hshows.entry_eq t i ht).symm) v
      · have hext := call.extends (System.Inv.tree h.inv root hroot) hcall
        have hpage := pageBase_aligned a
        refine eqOn_frame_of_entries hpage (fun i => ?_) (mem_frame_of_page a)
        rw [← hshows.entry_eq _ i hpage, hext.mem_eq _ ha]
        rfl

/-- A step after which callers own the byte at `x`, and which is no write to it. -/
def Spares (built : Pmm) (x : Word) (sys sys' : ByteSystem) : Prop :=
  ∃ act, Step built sys act sys' ∧ sys'.Owned built x ∧ ∀ b, act ≠ .write x b

/-- A run that spares `x` reaches a state in which the byte is as it was. -/
theorem Reachable.spares_run {storage : PmmStorage} {mmap : PhysicalMap} {sys sys' : ByteSystem}
    (h : Reachable storage mmap.toMemoryMap sys) {x : Word}
    (hrun : Relation.ReflTransGen (Spares (buildPmm storage mmap.descs) x) sys sys') :
    Reachable storage mmap.toMemoryMap sys' ∧ sys'.machine.bytes x = sys.machine.bytes x := by
  have hal := buildPmm_aligned storage mmap.toMemoryMap
  induction hrun with
  | refl => exact ⟨h, rfl⟩
  | tail _ hstep ih =>
      obtain ⟨hreach, hsame⟩ := ih
      obtain ⟨act, hstep, howned, hact⟩ := hstep
      refine ⟨hreach.tail ⟨act, hstep⟩, Eq.trans ?_ hsame⟩
      by_cases hwrite : ∃ y b, act = .write y b
      · obtain ⟨y, b, rfl⟩ := hwrite
        cases hstep with
        | write y b owned => exact Function.update_of_ne (fun heq => hact b (by rw [heq])) _ _
      · exact hreach.inv.bytes_eq hal hstep (fun y b heq => hwrite ⟨y, b, heq⟩) howned

end ByteSystem

/-- The state of the six pages after `init_pml4`, in a memory of zeros. -/
def sixPagesBytes : ByteSystem :=
  match Flat.initPml4 ⟨buildPmm oneBlock sixPagesMap.descs, fun _ => 0#8⟩ with
  | .ok (root, s) => ⟨s, if root = null then none else some root, []⟩
  | .error _ => ⟨⟨buildPmm oneBlock sixPagesMap.descs, fun _ => 0#8⟩, none, []⟩

theorem sixPagesBytes_reachable :
    ByteSystem.Reachable oneBlock sixPagesMap.toMemoryMap sixPagesBytes := by
  refine ⟨fun _ => 0#8, ?_⟩
  unfold sixPagesBytes
  cases h : Flat.initPml4 ⟨buildPmm oneBlock sixPagesMap.descs, fun _ => 0#8⟩ with
  | error e => exact .refl
  | ok result => exact .single ⟨.initPml4, .initPml4 rfl h⟩

theorem sixPagesBytes_pml4 : sixPagesBytes.pml4 = some 0x1000#64 := rfl

/-- Zeros are entries of zero. -/
theorem zeros_shows {pmm : Pmm} (hinv : pmm.Inv) (hal : pmm.Aligned) :
    ByteMachine.Shows ⟨pmm, fun _ => 0#8⟩ ⟨pmm, fun _ _ => 0#64⟩ := by
  refine ⟨rfl, hinv, hal, fun table index _ => ?_⟩
  apply BitVec.eq_of_getLsbD_eq
  intro i hi
  rw [ByteMachine.entry, getLsbD_load _ _ hi]
  simp

theorem sixPagesBytes_shows : sixPagesBytes.machine.Shows sixPagesSystem.machine := by
  have hrel := initPml4_shows
    (zeros_shows (buildPmm_inv oneBlock sixPagesMap.toMemoryMap) (buildPmm_aligned _ _))
  unfold sixPagesBytes sixPagesSystem bootSystem
  generalize Flat.initPml4 ⟨buildPmm oneBlock sixPagesMap.descs, fun _ => 0#8⟩ = x at hrel ⊢
  generalize initPml4 ⟨buildPmm oneBlock sixPagesMap.descs, fun _ _ => 0#64⟩ = y at hrel ⊢
  cases hrel with
  | ok hsame => exact hsame.2.2
  | error => exact zeros_shows (buildPmm_inv _ _) (buildPmm_aligned _ _)

/-- The machine after a call, or `s` if the call has no result. -/
def byteMachineAfter (s : ByteMachine) : Except Abort (Int × ByteMachine) → ByteMachine
  | .ok (_, s') => s'
  | .error _ => s

/-- The memory of the six pages with page 0x5000 mapped to frame 0x7000. -/
def oneMappedMachine : ByteMachine :=
  byteMachineAfter sixPagesBytes.machine
    (Flat.mapPage sixPagesBytes.machine 0x1000#64 0x5000#64 0x7000#64 readWriteBit)

theorem oneMappedMachine_eq :
    Flat.mapPage sixPagesBytes.machine 0x1000#64 0x5000#64 0x7000#64 readWriteBit
      = .ok (0, oneMappedMachine) ∧
    oneMappedMachine.Shows oneMapped.machine := by
  have hcall : TableCall.run 0 sixPagesSystem.machine 0x1000#64
      (.mapPage 0x5000#64 0x7000#64 readWriteBit) = .ok (0, oneMapped.machine) := rfl
  obtain ⟨b, hrun, hshows⟩ := TableCall.flat_of_run sixPagesBytes_shows ⟨1, rfl⟩ hcall
  have hflat : Flat.mapPage sixPagesBytes.machine 0x1000#64 0x5000#64 0x7000#64 readWriteBit
      = .ok (0, b) := hrun
  have heq : oneMappedMachine = b := by
    rw [oneMappedMachine, hflat, byteMachineAfter]
  rw [heq]
  exact ⟨hflat, hshows⟩

def oneMappedBytes : ByteSystem := ⟨oneMappedMachine, some 0x1000#64, []⟩

theorem oneMappedBytes_reachable :
    ByteSystem.Reachable oneBlock sixPagesMap.toMemoryMap oneMappedBytes := by
  have hrun : TableCall.runFlat 0 sixPagesBytes.machine 0x1000#64
      (.mapPage 0x5000#64 0x7000#64 readWriteBit) = .ok (0, oneMappedMachine) :=
    oneMappedMachine_eq.1
  have hheld : sixPagesBytes.held = [] := rfl
  have hstep : ByteSystem.Step (buildPmm oneBlock sixPagesMap.descs) sixPagesBytes _ _ :=
    .table sixPagesBytes_pml4 _ hrun
  rw [sixPagesBytes_pml4, hheld] at hstep
  exact sixPagesBytes_reachable.tail ⟨_, hstep⟩

/-- A call of `map_range` there. -/
theorem flat_call_refines_sixPages :
    ResultRel (ByteSystem.RefinesCall sixPagesBytes.machine 0x1000#64)
      (Flat.mapRange 8 sixPagesBytes.machine 0x1000#64 0x5000#64 0x7000#64 0x3000#64 readWriteBit)
      (mapRange 8 sixPagesBytes.machine.tables 0x1000#64 0x5000#64 0x7000#64 0x3000#64 readWriteBit) :=
  ByteSystem.flat_call_refines sixPagesBytes_reachable sixPagesBytes_pml4
    (.mapRange 0x5000#64 0x7000#64 0x3000#64 readWriteBit) 8

/-- The pmm of the six pages with the first of them allocated. -/
def sixPagesTaken : Pmm :=
  match frameAllocate (buildPmm oneBlock sixPagesMap.descs) with
  | .ok (_, pm) => pm
  | .error _ => buildPmm oneBlock sixPagesMap.descs

/-- A caller holds page 0x1000, and has put a byte there. -/
def sixPagesHeld : ByteSystem :=
  ⟨⟨sixPagesTaken, Function.update (fun _ => 0#8) 0x1010#64 0xAB#8⟩, none, [0x1000#64]⟩

theorem sixPagesHeld_reachable : ByteSystem.Reachable oneBlock sixPagesMap.toMemoryMap sixPagesHeld := by
  have hcall : PmmCall.run (buildPmm oneBlock sixPagesMap.descs) .frameAllocate
      = .ok (some 0x1000#64, sixPagesTaken) := rfl
  have hheld : pageBase 0x1010#64
      ∈ PmmCall.frameAllocate.heldAfter [] (some 0x1000#64) := by decide
  exact ⟨fun _ => 0#8, .tail (.single ⟨_, .pmm .frameAllocate trivial hcall⟩)
    ⟨.write 0x1010#64 0xAB#8, .write 0x1010#64 0xAB#8 (.inl hheld)⟩⟩

end EchOS
