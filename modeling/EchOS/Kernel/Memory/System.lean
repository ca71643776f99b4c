/-
  EchOS.Kernel.Memory.System

  The memory subsystem as a whole: a pmm as `build_pmm` leaves it, one page table
  tree, and callers that hold frames, under any order of calls.

  A frame that `build_pmm` left free is at every moment in one of three places:
  free in the pmm, held by a caller, or a table of the tree (`System.Inv.parts`).
  `System.Inv` holds in every reachable state when all memory lies below 2^52,
  where a page table entry can hold its address.
-/
import EchOS.Kernel.Memory.HeapReserve
import EchOS.Kernel.Memory.PhysicalCalls

namespace EchOS

/-! ## Calls -/

/-- A call of one of the functions that work on the page tables. -/
inductive TableCall where
  | mapPage (vaddr paddr flags : Word)
  | mapLargePage (vaddr paddr flags : Word)
  | mapRange (vaddr paddr length flags : Word)
  | getHeap (vaddr length : Word)
  deriving Repr, DecidableEq

namespace TableCall

/-- The call, with a bound on the turns of `map_range`'s loop. -/
def run (fuel : Nat) (s : Machine) (pml4 : Word) : TableCall → Except Abort (Int × Machine)
  | .mapPage vaddr paddr flags => EchOS.mapPage s pml4 vaddr paddr flags
  | .mapLargePage vaddr paddr flags => EchOS.mapLargePage s pml4 vaddr paddr flags
  | .mapRange vaddr paddr length flags => EchOS.mapRange fuel s pml4 vaddr paddr length flags
  | .getHeap vaddr length => EchOS.getHeap fuel s pml4 vaddr length

/-- The flags have no bits 12 to 51. -/
def Plain : TableCall → Prop
  | .mapPage _ _ flags | .mapLargePage _ _ flags | .mapRange _ _ _ flags => PlainFlags flags
  | .getHeap _ _ => True

/-- The frames that `get_heap` reserves. -/
def heapFrames (pm : Pmm) (length : Word) : List Word :=
  match framesAllocate pm (heapPages length) with
  | .ok (a, _) => runFrames a (heapPages length).toNat
  | .error _ => []

/-- The frames a caller gets from a call that returned `r`: those `get_heap`
    reserved, if it succeeded. -/
def reserved (pm : Pmm) (r : Int) : TableCall → List Word
  | .getHeap _ length => if r = 0 then heapFrames pm length else []
  | _ => []

theorem heapFrames_eq {pm pmm : Pmm} {length a : Word}
    (h : framesAllocate pm (heapPages length) = .ok (a, pmm)) :
    heapFrames pm length = runFrames a (heapPages length).toNat := by
  unfold heapFrames
  rw [h]

end TableCall

/-- What a call that works on the tree does to the frames. -/
structure TableCall.Effect (root : Word) (got : List Word) (s s' : Machine) : Prop where
  inv : s'.TreeInv root
  layout_eq : s'.pmm.layout = s.pmm.layout
  kept : ∀ p a, s.tableAt root p = some a → s'.tableAt root p = some a
  origin : ∀ p a, s'.tableAt root p = some a → s.tableAt root p = some a ∨ s.pmm.Free a
  nodup : got.Nodup
  got_free : ∀ x ∈ got, s.pmm.Free x
  got_not_table : ∀ x ∈ got, ∀ p, s'.tableAt root p ≠ some x
  free_iff : ∀ x, s'.pmm.Free x ↔ s.pmm.Free x ∧ x ∉ got ∧ ∀ p, s'.tableAt root p ≠ some x
  used_iff : ∀ x, s'.pmm.Used x ↔ s.pmm.Used x ∨ x ∈ got ∨ ∃ p, s'.tableAt root p = some x

section Effect

variable {root : Word} {s s' : Machine}

theorem TableCall.Effect.of_grows (hinv : s.TreeInv root) {flags : Word}
    {new : Finset (List Index)} (h : s.Grows flags root new s') :
    TableCall.Effect root [] s s' where
  inv := h.inv
  layout_eq := h.layout_eq
  kept := h.kept
  origin _ _ hp := h.origin hinv.pmm hp
  nodup := List.nodup_nil
  got_free x hx := by cases hx
  got_not_table x hx := by cases hx
  free_iff x := by
    rw [h.free_iff hinv]
    simp
  used_iff x := by
    rw [h.used_iff hinv]
    simp

/-- Reserving a run and then growing the tree. -/
theorem TableCall.Effect.of_reserve (hinv : s.TreeInv root) {n : Nat} {a : Word} {pmm : Pmm}
    (hfit : s.pmm.FirstFit n a pmm) {flags : Word} {new : Finset (List Index)}
    (h : Machine.Grows flags root new { s with pmm } s') :
    TableCall.Effect root (runFrames a n) s s' := by
  have hinv1 := hinv.of_firstFit hfit
  have hrun : ∀ x, (∀ i, i < n → x ≠ Pmm.runFrame a i) ↔ x ∉ runFrames a n := by
    intro x
    rw [mem_runFrames]
    exact ⟨fun h ⟨i, hi, heq⟩ => h i hi heq, fun h i hi heq => h ⟨i, hi, heq⟩⟩
  refine ⟨h.inv, h.layout_eq.trans hfit.layout_eq, h.kept,
    fun _ _ hp => (h.origin_claimed hinv hfit hp).imp_right And.left,
    hfit.nodup_runFrames hinv.pmm, ?_, ?_, fun x => ?_, fun x => ?_⟩
  · intro x hx
    obtain ⟨i, hi, rfl⟩ := mem_runFrames.mp hx
    exact hfit.free_run hi
  · intro x hx p
    obtain ⟨i, hi, rfl⟩ := mem_runFrames.mp hx
    exact Machine.tableAt_ne_runFrame hinv hfit h hi p
  · rw [h.free_iff hinv1, hfit.free_iff hinv.pmm, hrun, and_assoc]
  · rw [h.used_iff hinv1, hfit.used_iff hinv.pmm, ← mem_runFrames, or_assoc]

/-- What every call does to the frames, whatever it returns. -/
theorem TableCall.effect (hinv : s.TreeInv root) (call : TableCall) {fuel : Nat} {r : Int}
    (h : call.run fuel s root = .ok (r, s')) :
    TableCall.Effect root (call.reserved s.pmm r) s s' := by
  cases call with
  | mapPage vaddr paddr flags =>
      obtain ⟨_, _, hrewrites⟩ := (mapPage_outcome_of_ok hinv h).rewrites
      exact .of_grows hinv hrewrites.grows
  | mapLargePage vaddr paddr flags =>
      obtain ⟨_, _, hrewrites⟩ := (mapLargePage_outcome_of_ok hinv h).rewrites
      exact .of_grows hinv hrewrites.grows
  | mapRange vaddr paddr length flags =>
      obtain ⟨_, new, hgrows⟩ := loop_grows hinv h
      exact .of_grows hinv hgrows
  | getHeap vaddr length =>
      rcases getHeap_cases hinv h with
        ⟨rfl, rfl, _⟩ | ⟨a, pmm, s2, r2, _, hcall, _, hfit, hmap, hend⟩
      · have hrefl : s'.Grows readWriteBit root ∅ s' := .refl hinv
        exact .of_grows hinv hrefl
      · obtain ⟨_, new, hgrows⟩ := loop_grows (hinv.of_firstFit hfit) hmap
        rcases hend with ⟨_, rfl, rfl⟩ | ⟨_, rfl, hmem, hinv', hlay', hfree', hused'⟩
        · have hgot : TableCall.reserved s.pmm 0 (.getHeap vaddr length)
              = runFrames a (heapPages length).toNat := TableCall.heapFrames_eq hcall
          rw [hgot]
          exact .of_reserve hinv hfit hgrows
        · -- everything reserved was given back
          have hgot : TableCall.reserved s.pmm (-1) (.getHeap vaddr length) = [] := rfl
          have hsame : ∀ p, s'.tableAt root p = s2.tableAt root p := fun p => by
            unfold Machine.tableAt
            rw [hmem]
          have hkept : ∀ p b, s.tableAt root p = some b → s'.tableAt root p = some b :=
            fun p b hb => (hsame p).trans (hgrows.kept p b hb)
          have horigin : ∀ p b, s'.tableAt root p = some b →
              s.tableAt root p = some b ∨ s.pmm.Free b := by
            intro p b hb
            rw [hsame] at hb
            exact (hgrows.origin_claimed hinv hfit hb).imp_right And.left
          rw [hgot]
          refine ⟨hinv', hlay', hkept, horigin, List.nodup_nil, fun x hx => ?_, fun x hx => ?_,
            fun x => ?_, fun x => ?_⟩
          · cases hx
          · cases hx
          · rw [hfree']
            simp
          · rw [hused']
            simp

end Effect

/-! ## The PML4 -/

/-- A zero entry leads nowhere, so a root filled with zeros is the only table. -/
theorem node_zeroed_root (mem : Mem) (root : Word) (p : List Index) (a : Word) :
    PointerTree.node entryTable (PointerTree.fill mem root 0#64) root p = some a ↔
      p = [] ∧ a = root := by
  rw [PointerTree.node_fill_root entryTable_zero]
  cases p with
  | nil =>
      constructor
      · exact fun h => ⟨rfl, (Option.some.inj h).symm⟩
      · exact fun h => congrArg some h.2.symm
  | cons i p =>
      constructor
      · intro h
        cases h
      · intro h
        cases h.1

theorem slot_zeroed_root {mem : Mem} {root : Word} {p : List Index} {e : Word}
    (h : PointerTree.slot entryTable (PointerTree.fill mem root 0#64) root p = some e) :
    e = 0#64 := by
  cases p with
  | nil => cases h
  | cons i p =>
      obtain ⟨b, hb, rfl⟩ := Option.map_eq_some_iff.mp h
      obtain ⟨_, rfl⟩ := (node_zeroed_root mem root p b).mp hb
      exact if_pos rfl

/-- `alloc_table` for a root: a frame that is the only table of its tree. -/
theorem initPml4_cases {s s' : Machine} (hinv : s.pmm.Inv) (haddr : s.pmm.Addressable)
    (hnull : ¬ s.pmm.Free null) {root : Word} (h : initPml4 s = .ok (root, s')) :
    (root = null ∧ s' = s) ∨
    root ≠ null ∧ s.pmm.FirstFit 1 root s'.pmm ∧ s'.TreeInv root ∧
      (∀ p a, s'.tableAt root p = some a ↔ p = [] ∧ a = root) ∧
      ∀ p e, s'.entryAt root p = some e → e = 0#64 := by
  unfold initPml4 allocTable at h
  rcases Pmm.frameAllocate_count hinv with ⟨hcall, _⟩ | ⟨a, pmm, hcall, hfit, hne, _⟩
  · rw [hcall] at h
    cases h
    exact .inl ⟨rfl, rfl⟩
  · rw [hcall] at h
    simp only [bind, Except.bind, pure, Except.pure, if_neg hne] at h
    cases h
    have htakes : s.pmm.Takes [root] pmm := .cons hcall hfit (.nil _)
    have hfree := htakes.free_of_mem hinv List.mem_cons_self
    have hroot : root ≠ null := fun h => hnull (h ▸ hfree)
    refine .inr ⟨hroot, hfit, ⟨hfit.inv hinv, haddr.of_layout_eq hfit.layout_eq, fun h => ?_,
      PointerTree.separate_fill_root entryTable_zero, fun p a hp => ?_, fun i p e hp he hpres => ?_⟩,
      node_zeroed_root s.mem root, fun _ _ => slot_zeroed_root⟩
    · exact hnull ((htakes.free_iff hinv null).mp h).1
    · obtain ⟨_, rfl⟩ := (node_zeroed_root s.mem root p a).mp hp
      exact ⟨(htakes.used_iff hinv _).mpr (.inr List.mem_cons_self), hroot⟩
    · rw [slot_zeroed_root he] at hpres
      exact absurd BitVec.zero_and hpres

/-! ## Runs -/

/-- The machine, the root of its tree once `init_pml4` has made one, and the frames
    that callers hold. -/
structure System where
  machine : Machine
  pml4 : Option Word
  held : List Word

namespace System

/-- One call: of the allocator, by a caller that frees only what it holds; of
    `init_pml4`, as long as there is no tree; or of a function on the tree. -/
inductive Step : System → System → Prop where
  | pmm {sys : System} {r : Option Word} {pmm : Pmm} (call : PmmCall)
      (allowed : call.Allowed sys.held) (run : call.run sys.machine.pmm = .ok (r, pmm)) :
      Step sys ⟨{ sys.machine with pmm }, sys.pml4, call.heldAfter sys.held r⟩
  | initPml4 {sys : System} {root : Word} {s : Machine} (first : sys.pml4 = none)
      (run : EchOS.initPml4 sys.machine = .ok (root, s)) :
      Step sys ⟨s, if root = null then none else some root, sys.held⟩
  | table {sys : System} {root : Word} {fuel : Nat} {r : Int} {s : Machine}
      (pml4 : sys.pml4 = some root) (call : TableCall) (plain : call.Plain)
      (run : call.run fuel sys.machine root = .ok (r, s)) :
      Step sys ⟨s, sys.pml4, call.reserved sys.machine.pmm r ++ sys.held⟩

/-- Some run of calls leads from `build_pmm`'s pmm, in a memory with any contents,
    to `sys`. -/
def Reachable (storage : PmmStorage) (mmap : MemoryMap) (sys : System) : Prop :=
  ∃ mem, Relation.ReflTransGen Step ⟨⟨buildPmm storage mmap.descs, mem⟩, none, []⟩ sys

/-- `x` is a table of the tree. -/
def IsTable (sys : System) (x : Word) : Prop :=
  ∃ root p, sys.pml4 = some root ∧ sys.machine.tableAt root p = some x

theorem isTable_iff {sys : System} {root x : Word} (hroot : sys.pml4 = some root) :
    sys.IsTable x ↔ ∃ p, sys.machine.tableAt root p = some x := by
  constructor
  · rintro ⟨root', p, hroot', hp⟩
    rw [hroot] at hroot'
    cases hroot'
    exact ⟨p, hp⟩
  · exact fun ⟨p, hp⟩ => ⟨root, p, hroot, hp⟩

/-- What holds in every reachable state: each frame that started out free is free,
    held or a table, and only one of these. -/
structure Inv (built : Pmm) (sys : System) : Prop where
  pmm : sys.machine.pmm.Inv
  frames : sys.machine.pmm.Addressable
  layout_eq : sys.machine.pmm.layout = built.layout
  null_not_free : ¬ built.Free null
  tree : ∀ root, sys.pml4 = some root → sys.machine.TreeInv root
  nodup : sys.held.Nodup
  held_used : ∀ x ∈ sys.held, sys.machine.pmm.Used x
  held_not_table : ∀ x ∈ sys.held, ¬ sys.IsTable x
  parts : ∀ x, built.Free x ↔ sys.machine.pmm.Free x ∨ x ∈ sys.held ∨ sys.IsTable x

section Preservation

variable {built : Pmm} {sys sys' : System}

theorem Inv.machine_null_not_free (hinv : sys.Inv built) : ¬ sys.machine.pmm.Free null :=
  fun h => hinv.null_not_free ((hinv.parts null).mpr (.inl h))

/-- Frames that were free are held once. -/
theorem Inv.nodup_got (hinv : sys.Inv built) {got : List Word} (hnodup : got.Nodup)
    (hfree : ∀ x ∈ got, sys.machine.pmm.Free x) : (got ++ sys.held).Nodup := by
  rw [List.nodup_append]
  refine ⟨hnodup, hinv.nodup, fun x hx y hy heq => ?_⟩
  subst heq
  exact hinv.pmm.not_used_of_free (hfree x hx) (hinv.held_used x hy)

/-- Callers get a run of free frames. -/
theorem Inv.of_firstFit (hinv : sys.Inv built) {n : Nat} {a : Word} {pmm : Pmm}
    (hfit : sys.machine.pmm.FirstFit n a pmm) :
    Inv built ⟨{ sys.machine with pmm }, sys.pml4, runFrames a n ++ sys.held⟩ := by
  have hfree := hfit.free_iff hinv.pmm
  have hused := hfit.used_iff hinv.pmm
  have hrun : ∀ x ∈ runFrames a n, sys.machine.pmm.Free x := by
    intro x hx
    obtain ⟨i, hi, rfl⟩ := mem_runFrames.mp hx
    exact hfit.free_run hi
  refine ⟨hfit.inv hinv.pmm, hinv.frames.of_layout_eq hfit.layout_eq,
    hfit.layout_eq.trans hinv.layout_eq, hinv.null_not_free,
    fun root hroot => (hinv.tree root hroot).of_firstFit hfit,
    hinv.nodup_got (hfit.nodup_runFrames hinv.pmm) hrun, fun x hx => ?_, fun x hx => ?_,
    fun x => ?_⟩
  · rcases List.mem_append.mp hx with hx | hx
    · exact (hused x).mpr (.inr (mem_runFrames.mp hx))
    · exact (hused x).mpr (.inl (hinv.held_used x hx))
  · rcases List.mem_append.mp hx with hx | hx
    · rintro ⟨root, p, hroot, hp⟩
      exact hinv.pmm.not_used_of_free (hrun x hx) ((hinv.tree root hroot).tables p x hp).1
    · exact hinv.held_not_table x hx
  -- the run moves from the free frames to the held ones
  · rw [hinv.parts]
    show _ ↔ pmm.Free x ∨ x ∈ runFrames a n ++ sys.held ∨ sys.IsTable x
    rw [hfree, List.mem_append]
    constructor
    · rintro (hf | hheld | htab)
      · by_cases hx : x ∈ runFrames a n
        · exact .inr (.inl (.inl hx))
        · exact .inl ⟨hf, fun i hi heq => hx (mem_runFrames.mpr ⟨i, hi, heq⟩)⟩
      · exact .inr (.inl (.inr hheld))
      · exact .inr (.inr htab)
    · rintro (⟨hf, _⟩ | (hx | hheld) | htab)
      · exact .inl hf
      · exact .inl (hrun x hx)
      · exact .inr (.inl hheld)
      · exact .inr (.inr htab)

/-- A caller gives a held frame back. -/
theorem Inv.of_frameFree (hinv : sys.Inv built) {address : Word}
    (hheld : pageBase address ∈ sys.held) {pmm : Pmm}
    (h : frameFree sys.machine.pmm address = .ok pmm) :
    Inv built ⟨{ sys.machine with pmm }, sys.pml4, sys.held.erase (pageBase address)⟩ := by
  obtain ⟨pmm', hcall, hinv', hlay', hmarked⟩ :=
    Pmm.frameFree_managed hinv.pmm hinv.frames (.inr (hinv.held_used _ hheld))
  rw [h] at hcall
  cases hcall
  have hbuilt : built.Free (pageBase address) := (hinv.parts _).mpr (.inr (.inl hheld))
  have hfree : ∀ x, pmm.Free x ↔ x = pageBase address ∨
      (sys.machine.pmm.Free x ∧ x ≠ pageBase address) := by
    intro x
    refine (hmarked false x).trans ?_
    exact or_congr_left (and_iff_right rfl)
  have hused : ∀ x, sys.machine.pmm.Used x → x ≠ pageBase address → pmm.Used x :=
    fun x hu hne => (hmarked true x).mpr (.inr ⟨hu, hne⟩)
  have hmem : ∀ x, x ∈ sys.held.erase (pageBase address) ↔ x ≠ pageBase address ∧ x ∈ sys.held :=
    fun x => hinv.nodup.mem_erase_iff
  have hnotTable := hinv.held_not_table _ hheld
  refine ⟨hinv', hinv.frames.of_layout_eq hlay', hlay'.trans hinv.layout_eq, hinv.null_not_free,
    fun root hroot => ?_, hinv.nodup.erase _, fun x hx => ?_, fun x hx => ?_, fun x => ?_⟩
  · have htree := hinv.tree root hroot
    refine ⟨hinv', hinv.frames.of_layout_eq hlay', fun hn => ?_, htree.separate, fun p b hb => ?_,
      htree.sizes⟩
    · rcases (hfree null).mp hn with heq | ⟨hn, _⟩
      · exact hinv.null_not_free (heq ▸ hbuilt)
      · exact htree.null_not_free hn
    · obtain ⟨hu, hne⟩ := htree.tables p b hb
      exact ⟨hused b hu fun heq => hnotTable ⟨root, p, hroot, heq ▸ hb⟩, hne⟩
  · obtain ⟨hne, hx⟩ := (hmem x).mp hx
    exact hused x (hinv.held_used x hx) hne
  · exact hinv.held_not_table x ((hmem x).mp hx).2
  -- the frame moves from the held ones to the free ones
  · rw [hinv.parts]
    show _ ↔ pmm.Free x ∨ x ∈ sys.held.erase (pageBase address) ∨ sys.IsTable x
    rw [hfree, hmem]
    by_cases hx : x = pageBase address
    · rw [hx]
      exact iff_of_true (.inr (.inl hheld)) (.inl (.inl rfl))
    · simp [hx]

/-- A call of the allocator. -/
theorem Inv.pmmCall (hinv : sys.Inv built) {call : PmmCall} (allowed : call.Allowed sys.held)
    {r : Option Word} {pmm : Pmm} (run : call.run sys.machine.pmm = .ok (r, pmm)) :
    Inv built ⟨{ sys.machine with pmm }, sys.pml4, call.heldAfter sys.held r⟩ := by
  rcases call.run_cases hinv.pmm with
    ⟨r', h, hfail⟩ | ⟨a, pm', h, hfit, hpos⟩ | ⟨address, pm', rfl, h, _⟩
  · rw [run] at h
    cases h
    by_cases hfree : ∃ address, call = .frameFree address
    · -- a held frame is managed, so the free does not miss it
      obtain ⟨address, rfl⟩ := hfree
      have hcall : ∃ pm, frameFree sys.machine.pmm address = .ok pm := by
        rcases frameFree_cases hinv.pmm address with ⟨h, _⟩ | ⟨pm, h, _⟩
        · exact ⟨_, h⟩
        · exact ⟨_, h⟩
      obtain ⟨pm, hcall⟩ := hcall
      rw [PmmCall.run, hcall] at run
      cases run
      exact hinv.of_frameFree allowed hcall
    · rw [PmmCall.heldAfter_failed (fun address heq => hfree ⟨address, heq⟩) hfail]
      exact hinv
  · rw [run] at h
    cases h
    rw [PmmCall.heldAfter_claimed hpos (hfit.ne_noFrame hinv.pmm.blocksOk hpos)]
    exact hinv.of_firstFit hfit
  · rw [run] at h
    cases h
    have hcall : frameFree sys.machine.pmm address = .ok pmm := by
      cases hfree : frameFree sys.machine.pmm address with
      | error e =>
          rw [PmmCall.run, hfree] at run
          cases run
      | ok pm =>
          rw [PmmCall.run, hfree] at run
          cases run
          rfl
    exact hinv.of_frameFree allowed hcall

/-- A call of `init_pml4`. -/
theorem Inv.initPml4 (hinv : sys.Inv built) (first : sys.pml4 = none) {root : Word} {s : Machine}
    (run : EchOS.initPml4 sys.machine = .ok (root, s)) :
    Inv built ⟨s, if root = null then none else some root, sys.held⟩ := by
  have hnoTable : ∀ x, ¬ sys.IsTable x := by
    rintro x ⟨root, p, hroot, _⟩
    rw [first] at hroot
    cases hroot
  rcases initPml4_cases hinv.pmm hinv.frames hinv.machine_null_not_free run with
    ⟨rfl, rfl⟩ | ⟨hroot, hfit, htree, htable, _⟩
  · rw [if_pos rfl, ← first]
    exact hinv
  · rw [if_neg hroot]
    have hfree := hfit.free_iff hinv.pmm
    have hused := hfit.used_iff hinv.pmm
    have hrootFree : sys.machine.pmm.Free root := by
      have := hfit.free_run Nat.one_pos
      rwa [Pmm.Takes.runFrame_one Nat.one_pos] at this
    have hisTable : ∀ x, IsTable ⟨s, some root, sys.held⟩ x ↔ x = root := by
      intro x
      rw [isTable_iff rfl]
      constructor
      · rintro ⟨p, hp⟩
        exact ((htable p x).mp hp).2
      · rintro rfl
        exact ⟨[], (htable [] x).mpr ⟨rfl, rfl⟩⟩
    refine ⟨htree.pmm, htree.frames, hfit.layout_eq.trans hinv.layout_eq, hinv.null_not_free,
      fun root' hroot' => ?_, hinv.nodup, fun x hx => ?_, fun x hx h => ?_, fun x => ?_⟩
    · cases hroot'
      exact htree
    · exact (hused x).mpr (.inl (hinv.held_used x hx))
    · rw [(hisTable x).mp h] at hx
      exact hinv.pmm.not_used_of_free hrootFree (hinv.held_used root hx)
    -- the root moves from the free frames to the tables, of which there were none
    · rw [hinv.parts, hisTable, hfree]
      show _ ↔ _ ∨ x ∈ sys.held ∨ x = root
      by_cases hx : x = root
      · rw [hx]
        exact iff_of_true (.inl hrootFree) (.inr (.inr rfl))
      · have hrun : ∀ i, i < 1 → x ≠ Pmm.runFrame root i := fun i hi heq =>
          hx (by rw [heq, Pmm.Takes.runFrame_one hi])
        simp only [hx, hnoTable, or_false, and_iff_left hrun]

/-- A call that works on the tree. -/
theorem Inv.tableCall (hinv : sys.Inv built) {root : Word} (hroot : sys.pml4 = some root)
    {call : TableCall} {fuel : Nat} {r : Int} {s : Machine}
    (run : call.run fuel sys.machine root = .ok (r, s)) :
    Inv built ⟨s, sys.pml4, call.reserved sys.machine.pmm r ++ sys.held⟩ := by
  have htree := hinv.tree root hroot
  have heffect := call.effect htree run
  have hold : ∀ x, sys.IsTable x ↔ ∃ p, sys.machine.tableAt root p = some x :=
    fun x => isTable_iff hroot
  have hnew : ∀ x, IsTable ⟨s, sys.pml4, call.reserved sys.machine.pmm r ++ sys.held⟩ x ↔
      ∃ p, s.tableAt root p = some x := fun x => isTable_iff hroot
  -- a table is an old one, or its frame was free
  have horigin : ∀ x p, s.tableAt root p = some x →
      sys.IsTable x ∨ sys.machine.pmm.Free x := by
    intro x p hp
    rcases heffect.origin p x hp with hp | hfree
    · exact .inl ((hold x).mpr ⟨p, hp⟩)
    · exact .inr hfree
  refine ⟨heffect.inv.pmm, heffect.inv.frames, heffect.layout_eq.trans hinv.layout_eq,
    hinv.null_not_free, fun root' hroot' => ?_, hinv.nodup_got heffect.nodup heffect.got_free,
    fun x hx => ?_, fun x hx h => ?_, fun x => ?_⟩
  · rw [show sys.pml4 = some root' from hroot'] at hroot
    cases hroot
    exact heffect.inv
  · rcases List.mem_append.mp hx with hx | hx
    · exact (heffect.used_iff x).mpr (.inr (.inl hx))
    · exact (heffect.used_iff x).mpr (.inl (hinv.held_used x hx))
  · obtain ⟨p, hp⟩ := (hnew x).mp h
    rcases List.mem_append.mp hx with hx | hx
    · exact heffect.got_not_table x hx p hp
    · rcases horigin x p hp with htab | hfree
      · exact hinv.held_not_table x hx htab
      · exact hinv.pmm.not_used_of_free hfree (hinv.held_used x hx)
  -- each new table or reserved frame was free, or was a table before
  · rw [hinv.parts, hnew, hold]
    show _ ↔ s.pmm.Free x ∨ x ∈ call.reserved sys.machine.pmm r ++ sys.held ∨ _
    rw [heffect.free_iff, List.mem_append]
    constructor
    · rintro (hf | hheld | ⟨p, hp⟩)
      · by_cases htab : ∃ p, s.tableAt root p = some x
        · exact .inr (.inr htab)
        · by_cases hx : x ∈ call.reserved sys.machine.pmm r
          · exact .inr (.inl (.inl hx))
          · exact .inl ⟨hf, hx, fun p hp => htab ⟨p, hp⟩⟩
      · exact .inr (.inl (.inr hheld))
      · exact .inr (.inr ⟨p, heffect.kept p x hp⟩)
    · rintro (⟨hf, _⟩ | (hx | hheld) | ⟨p, hp⟩)
      · exact .inl hf
      · exact .inl (heffect.got_free x hx)
      · exact .inr (.inl hheld)
      · rcases horigin x p hp with htab | hfree
        · exact .inr (.inr ((hold x).mp htab))
        · exact .inl hfree

theorem Inv.step (hinv : sys.Inv built) (h : Step sys sys') : sys'.Inv built := by
  cases h with
  | pmm call allowed run => exact hinv.pmmCall allowed run
  | initPml4 first run => exact hinv.initPml4 first run
  | table pml4 call plain run => exact hinv.tableCall pml4 run

/-- A call, where those on the tree may have any flags, also ones that reach into
    the address field. -/
inductive AnyStep : System → System → Prop where
  | step {sys sys' : System} (h : Step sys sys') : AnyStep sys sys'
  | table {sys : System} {root : Word} {fuel : Nat} {r : Int} {s : Machine}
      (pml4 : sys.pml4 = some root) (call : TableCall)
      (run : call.run fuel sys.machine root = .ok (r, s)) :
      AnyStep sys ⟨s, sys.pml4, call.reserved sys.machine.pmm r ++ sys.held⟩

theorem Inv.anyStep (hinv : sys.Inv built) (h : AnyStep sys sys') : sys'.Inv built := by
  cases h with
  | step h => exact hinv.step h
  | table pml4 call run => exact hinv.tableCall pml4 run

end Preservation

/-- `Reachable` with calls that may have any flags. -/
def AnyReachable (storage : PmmStorage) (mmap : MemoryMap) (sys : System) : Prop :=
  ∃ mem, Relation.ReflTransGen AnyStep ⟨⟨buildPmm storage mmap.descs, mem⟩, none, []⟩ sys

theorem Reachable.any {storage : PmmStorage} {mmap : MemoryMap} {sys : System}
    (h : Reachable storage mmap sys) : AnyReachable storage mmap sys :=
  h.imp fun _ hrun => Relation.ReflTransGen.mono (fun _ _ => AnyStep.step) _ _ hrun

end System

/-- The state after `init_pml4` alone, in a memory of zeros. -/
def bootSystem (storage : PmmStorage) (mmap : MemoryMap) : System :=
  match initPml4 ⟨buildPmm storage mmap.descs, fun _ _ => 0#64⟩ with
  | .ok (root, s) => ⟨s, if root = null then none else some root, []⟩
  | .error _ => ⟨⟨buildPmm storage mmap.descs, fun _ _ => 0#64⟩, none, []⟩

theorem bootSystem_reachable (storage : PmmStorage) (mmap : MemoryMap) :
    System.Reachable storage mmap (bootSystem storage mmap) := by
  refine ⟨fun _ _ => 0#64, ?_⟩
  unfold bootSystem
  cases h : initPml4 ⟨buildPmm storage mmap.descs, fun _ _ => 0#64⟩ with
  | error e => exact .refl
  | ok result => exact .single (.initPml4 rfl h)

/-! ## Memory that page tables can address -/

/-- A memory map of ranges that end at or below 2^52, the physical addresses that
    bits 12 to 51 of an entry can hold. -/
structure PhysicalMap extends MemoryMap where
  addressable : ∀ desc ∈ descs, desc.physicalStart.toNat + desc.numberOfPages.toNat * 4096 ≤ 2 ^ 52

section FromBuild

variable (storage : PmmStorage) (mmap : PhysicalMap)

theorem buildPmm_addressable : (buildPmm storage mmap.descs).Addressable := by
  intro a ha
  obtain ⟨_, hlay, hmap, f, hf, rfl⟩ := Pmm.free_or_used_iff.mp ha
  obtain ⟨b, hb, rfl⟩ := List.mem_map.mp hlay
  have hw := (buildPmm_inv storage mmap.toMemoryMap).nonWrapping b hb
  have hframe : (b.layout.frame f).toNat = b.address.toNat + f * 4096 := PmBlock.frame_toNat hw hf
  have hlt : f < b.framesTotal.toNat := hf
  -- the block is a descriptor's
  obtain ⟨desc, hdesc, heq⟩ := exists_desc_of_mem_buildPmm storage _ hb
  have haddr : b.address = desc.physicalStart := congrArg Prod.fst heq
  have htotal : b.framesTotal = desc.numberOfPages := congrArg (fun x => x.2.1) heq
  have halign := (mmap.wellFormed desc hdesc).aligned
  have hend := mmap.addressable desc hdesc
  rw [← haddr, ← htotal] at hend
  rw [← haddr] at halign
  omega

theorem System.Inv.start (mem : Mem) :
    System.Inv (buildPmm storage mmap.descs) ⟨⟨buildPmm storage mmap.descs, mem⟩, none, []⟩ := by
  refine ⟨buildPmm_inv storage mmap.toMemoryMap, buildPmm_addressable storage mmap, rfl,
    buildPmm_zero_not_free storage mmap.toMemoryMap, fun root hroot => ?_, List.nodup_nil, fun x hx => ?_,
    fun x hx => ?_, fun x => ?_⟩
  · cases hroot
  · cases hx
  · cases hx
  · constructor
    · exact fun hf => .inl hf
    · rintro (hf | hx | ⟨root, p, hroot, _⟩)
      · exact hf
      · cases hx
      · cases hroot

/-- The invariant of every reachable state, whatever the flags were. -/
theorem System.AnyReachable.inv {storage : PmmStorage} {mmap : PhysicalMap} {sys : System}
    (h : System.AnyReachable storage mmap.toMemoryMap sys) :
    sys.Inv (buildPmm storage mmap.descs) := by
  obtain ⟨mem, hrun⟩ := h
  induction hrun with
  | refl => exact .start storage mmap mem
  | tail _ hstep ih => exact ih.anyStep hstep

/-- The invariant of every reachable state. -/
theorem System.Reachable.inv {storage : PmmStorage} {mmap : PhysicalMap} {sys : System}
    (h : System.Reachable storage mmap.toMemoryMap sys) :
    sys.Inv (buildPmm storage mmap.descs) :=
  h.any.inv

end FromBuild

/-! ## Page tables are private -/

/-- Four pages of conventional memory at 2^52. -/
def highPages : EfiMemoryDescriptor :=
  { type := .conventionalMemory, physicalStart := 0x10000000000000#64, numberOfPages := 4#64,
    attr := 0#64 }

def highMap : MemoryMap where
  descs := [highPages]
  wellFormed desc hdesc := by
    rw [List.mem_singleton.mp hdesc]
    exact ⟨by decide, by decide⟩
  apart := List.pairwise_singleton _ _

/-- A storage of one block and one bitmap word. -/
def oneBlock : PmmStorage := ⟨1#64, 1#64, fun _ => 0#64⟩

/-- The machine after a call, or `s` if the call has no result. -/
def machineAfter (s : Machine) : Except Abort (Int × Machine) → Machine
  | .ok (_, s') => s'
  | .error _ => s

/-- A memory whose frames 0x1000 and 0x2000 happen to look like tables that allow no
    writes, the one leading to the other and that to frame 0x3000. -/
def strayMemory : Mem := fun table _ =>
  if table = 0x1000#64 then 0x2001#64 else if table = 0x2000#64 then 0x3001#64 else 0#64

/-- The state after `init_pml4` with all managed memory at 2^52 and `strayMemory`
    below, where entries that lose the upper bits of their tables lead. -/
def strayBoot : System :=
  match initPml4 ⟨buildPmm oneBlock highMap.descs, strayMemory⟩ with
  | .ok (root, s) => ⟨s, if root = null then none else some root, []⟩
  | .error _ => ⟨⟨buildPmm oneBlock highMap.descs, strayMemory⟩, none, []⟩

theorem strayBoot_reachable : System.Reachable oneBlock highMap strayBoot := by
  refine ⟨strayMemory, ?_⟩
  unfold strayBoot
  cases h : initPml4 ⟨buildPmm oneBlock highMap.descs, strayMemory⟩ with
  | error e => exact .refl
  | ok result => exact .single (.initPml4 rfl h)

/-- `map_page` of one page, in memory at 2^52. -/
def highMapped : Machine :=
  let boot := (bootSystem oneBlock highMap).machine
  machineAfter boot (mapPage boot 0x10000000000000#64 0#64 0x5000#64 readWriteBit)

/-- In memory at 2^52 an entry loses the upper bits of the table it is to point
    to: the first frame that `map_page` takes for a table is not in the tree. -/
theorem page_tables_private_fails_high :
    System.Reachable oneBlock highMap (bootSystem oneBlock highMap) ∧
    (bootSystem oneBlock highMap).pml4 = some 0x10000000000000#64 ∧
    TableCall.run 0 (bootSystem oneBlock highMap).machine 0x10000000000000#64
      (.mapPage 0#64 0x5000#64 readWriteBit) = .ok (0, highMapped) ∧
    (bootSystem oneBlock highMap).machine.pmm.Free 0x10000000001000#64 ∧
    ¬ highMapped.pmm.Free 0x10000000001000#64 ∧
    ∀ p, highMapped.tableAt 0x10000000000000#64 p ≠ some 0x10000000001000#64 := by
  have hblocks : ∀ f, f < 4 → ∀ b ∈ highMapped.pmm.blocks, b.used highMapped.pmm.bitmap f = true := by
    decide
  refine ⟨bootSystem_reachable oneBlock highMap, rfl, rfl, ?_, ?_, fun p hp => ?_⟩
  · exact ⟨_, List.mem_cons_self, by decide, 1, by decide, by decide, by decide⟩
  · rintro ⟨b, hb, _, f, hf, _, hbit⟩
    have htotal : ∀ b ∈ highMapped.pmm.blocks, b.framesTotal.toNat = 4 := by decide
    rw [htotal b hb] at hf
    rw [hblocks f hf b hb] at hbit
    cases hbit
  · cases p with
    | nil => exact absurd hp (by decide)
    | cons i p =>
        -- an entry's address field is below 2^52
        obtain ⟨a, _, hentry⟩ := PointerTree.node_cons_eq_some hp
        have haddr := congrArg BitVec.toNat (entryTable_eq_some hentry).2
        rw [and_physAddrMask_toNat] at haddr
        have : (0x10000000001000#64 : Word).toNat = 0x10000000001000 := rfl
        omega

/-- **Page tables stay a tree of privately owned frames.**  In every reachable
    state no two paths, and so no two entries, lead to one table; every table sits
    in a used frame that no caller holds and that no call hands out; and whatever
    a call on the tree returns, all tables stay where they are and each frame that
    the call took from the pmm is a table of the tree afterwards, unless
    `get_heap` reserved it for its caller. -/
theorem page_tables_private {storage : PmmStorage} {mmap : PhysicalMap} {sys : System}
    (h : System.Reachable storage mmap.toMemoryMap sys) {root : Word}
    (hroot : sys.pml4 = some root) :
    (∀ p q a, sys.machine.tableAt root p = some a → sys.machine.tableAt root q = some a → p = q) ∧
    (∀ p a, sys.machine.tableAt root p = some a →
      sys.machine.pmm.Used a ∧ a ∉ sys.held ∧
      ∀ (call : PmmCall) r pmm, call.run sys.machine.pmm = .ok (some r, pmm) → r ≠ noFrame →
        a ∉ runFrames r call.count) ∧
    ∀ call : TableCall, call.Plain → ∀ fuel r s, call.run fuel sys.machine root = .ok (r, s) →
      (∀ p a, sys.machine.tableAt root p = some a → s.tableAt root p = some a) ∧
      (∀ x ∈ call.reserved sys.machine.pmm r, ∀ p, s.tableAt root p ≠ some x) ∧
      ∀ x, sys.machine.pmm.Free x → ¬ s.pmm.Free x →
        (∃ p, s.tableAt root p = some x) ∨ x ∈ call.reserved sys.machine.pmm r := by
  have hinv := h.inv
  have htree := hinv.tree root hroot
  refine ⟨fun p q a hp hq => htree.separate p q a hp hq, fun p a hp => ⟨(htree.tables p a hp).1,
    fun hheld => hinv.held_not_table a hheld ⟨root, p, hroot, hp⟩, ?_⟩, ?_⟩
  · intro call r pmm hrun hne hmem
    have hused := (htree.tables p a hp).1
    rcases call.run_cases hinv.pmm with
      ⟨r', hcall, hfail⟩ | ⟨b, pmm', hcall, hfit, _⟩ | ⟨_, pmm', _, hcall, _⟩
    · rw [hrun] at hcall
      cases hcall
      exact hne (hfail r rfl)
    · rw [hrun] at hcall
      cases hcall
      obtain ⟨i, hi, rfl⟩ := mem_runFrames.mp hmem
      exact hinv.pmm.not_used_of_free (hfit.free_run hi) hused
    · rw [hrun] at hcall
      cases hcall
  -- a frame no longer free that is no table was reserved, or it would still be free
  · intro call _ fuel r s hrun
    have heffect := call.effect htree hrun
    refine ⟨heffect.kept, heffect.got_not_table, fun x hfree hnot => ?_⟩
    by_cases htab : ∃ p, s.tableAt root p = some x
    · exact .inl htab
    · refine .inr ?_
      by_contra hx
      exact hnot ((heffect.free_iff x).mpr ⟨hfree, hx, fun p hp => htab ⟨p, hp⟩⟩)

/-- Six pages of conventional memory at 0x1000. -/
def sixPages : EfiMemoryDescriptor :=
  { type := .conventionalMemory, physicalStart := 0x1000#64, numberOfPages := 6#64, attr := 0#64 }

def sixPagesMap : PhysicalMap where
  descs := [sixPages]
  wellFormed desc hdesc := by
    rw [List.mem_singleton.mp hdesc]
    exact ⟨by decide, by decide⟩
  apart := List.pairwise_singleton _ _
  addressable desc hdesc := by
    rw [List.mem_singleton.mp hdesc]
    decide

/-- The state of `sixPagesMap` after `init_pml4`. -/
def sixPagesSystem : System := bootSystem oneBlock sixPagesMap.toMemoryMap

theorem sixPagesSystem_reachable : System.Reachable oneBlock sixPagesMap.toMemoryMap sixPagesSystem :=
  bootSystem_reachable _ _

theorem sixPagesSystem_pml4 : sixPagesSystem.pml4 = some 0x1000#64 := rfl

/-- The six-page system with page 0x5000 mapped to frame 0x7000. -/
def oneMapped : System :=
  ⟨machineAfter sixPagesSystem.machine
    (mapPage sixPagesSystem.machine 0x1000#64 0x5000#64 0x7000#64 readWriteBit), some 0x1000#64, []⟩

theorem oneMapped_reachable : System.Reachable oneBlock sixPagesMap.toMemoryMap oneMapped := by
  obtain ⟨mem, hrun⟩ := sixPagesSystem_reachable
  have hcall : TableCall.run 0 sixPagesSystem.machine 0x1000#64
      (.mapPage 0x5000#64 0x7000#64 readWriteBit) = .ok (0, oneMapped.machine) := rfl
  refine ⟨mem, hrun.tail ?_⟩
  exact .table sixPagesSystem_pml4 (.mapPage 0x5000#64 0x7000#64 readWriteBit)
    plainFlags_readWriteBit hcall

theorem oneMapped_pml4 : oneMapped.pml4 = some 0x1000#64 := rfl

/-- The page table of page 0x5000 lies in frame 0x4000: no other entry leads to it, no call
    hands it out, and it stays there when another page is mapped. -/
theorem page_tables_private_oneMapped :
    oneMapped.machine.tableAt 0x1000#64 (path 3 0x5000#64) = some 0x4000#64 ∧
    (∀ p, oneMapped.machine.tableAt 0x1000#64 p = some 0x4000#64 → p = path 3 0x5000#64) ∧
    oneMapped.machine.pmm.Used 0x4000#64 ∧ 0x4000#64 ∉ oneMapped.held ∧
    (∀ count r pmm, PmmCall.run oneMapped.machine.pmm (.framesAllocate count) = .ok (some r, pmm) →
      r ≠ noFrame → 0x4000#64 ∉ runFrames r count.toNat) ∧
    ∃ s, mapPage oneMapped.machine 0x1000#64 0x40000000#64 0x8000#64 readWriteBit = .ok (0, s) ∧
      s.tableAt 0x1000#64 (path 3 0x5000#64) = some 0x4000#64 := by
  have htable : oneMapped.machine.tableAt 0x1000#64 (path 3 0x5000#64) = some 0x4000#64 := by
    decide
  obtain ⟨hseparate, hprivate, hcalls⟩ := page_tables_private oneMapped_reachable oneMapped_pml4
  obtain ⟨hused, hheld, halloc⟩ := hprivate _ _ htable
  obtain ⟨s, hcall⟩ : ∃ s, TableCall.run 0 oneMapped.machine 0x1000#64
      (.mapPage 0x40000000#64 0x8000#64 readWriteBit) = .ok (0, s) := ⟨_, rfl⟩
  obtain ⟨hkept, _⟩ := hcalls (.mapPage 0x40000000#64 0x8000#64 readWriteBit)
    plainFlags_readWriteBit 0 0 s hcall
  exact ⟨htable, fun p hp => hseparate p _ _ hp htable, hused, hheld,
    fun count r pmm hrun hne => halloc (.framesAllocate count) r pmm hrun hne,
    s, hcall, hkept _ _ htable⟩

end EchOS
