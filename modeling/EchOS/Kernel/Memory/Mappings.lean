/-
  EchOS.Kernel.Memory.Mappings

  Mappings that last.  A page hangs in two leaf entries, one of a page directory
  and one of a page table; a call that is not asked for the page leaves both as
  they are, whatever it returns, and with them the page's address and rights.
-/
import EchOS.Kernel.Memory.FlatSystem
import EchOS.Kernel.Memory.LeafRights

namespace EchOS

/-! ## The leaf entries of a page -/

namespace Machine

/-- The page of `w` hangs in the same leaf entries. -/
structure SameLeaves (root w : Word) (s s' : Machine) : Prop where
  large : s'.leafEntryAt root (path 3 w) = s.leafEntryAt root (path 3 w)
  small : s'.leafEntryAt root (path 4 w) = s.leafEntryAt root (path 4 w)

namespace SameLeaves

variable {root w : Word} {s s' s'' : Machine}

theorem of_same (h : s'.leafEntryAt root = s.leafEntryAt root) : s.SameLeaves root w s' :=
  ⟨congrFun h _, congrFun h _⟩

theorem refl (s : Machine) : s.SameLeaves root w s := ⟨rfl, rfl⟩

theorem trans (h : s.SameLeaves root w s') (h' : s'.SameLeaves root w s'') :
    s.SameLeaves root w s'' :=
  ⟨h'.large.trans h.large, h'.small.trans h.small⟩

/-- Another page's entry is written. -/
theorem of_update_small {v : Word} {e : Option Word}
    (h : s'.leafEntryAt root = Function.update (s.leafEntryAt root) (path 4 v) e)
    (hne : path 4 w ≠ path 4 v) : s.SameLeaves root w s' := by
  constructor
  · rw [h, Function.update_of_ne (path_ne_of_length_ne (by decide))]
  · rw [h, Function.update_of_ne hne]

/-- Another region's entry is written. -/
theorem of_update_large {v : Word} {e : Option Word}
    (h : s'.leafEntryAt root = Function.update (s.leafEntryAt root) (path 3 v) e)
    (hne : path 3 w ≠ path 3 v) : s.SameLeaves root w s' := by
  constructor
  · rw [h, Function.update_of_ne hne]
  · rw [h, Function.update_of_ne (path_ne_of_length_ne (by decide))]

theorem pageEntry_eq (h : s.SameLeaves root w s') : s'.pageEntry root w = s.pageEntry root w := by
  unfold pageEntry
  rw [h.large, h.small]

theorem pageFrame_eq (h : s.SameLeaves root w s') : s'.pageFrame root w = s.pageFrame root w := by
  unfold pageFrame
  rw [leafAt_eq, leafAt_eq, leafAt_eq, leafAt_eq, h.large, h.small]

theorem translate_eq (h : s.SameLeaves root w s') :
    translate s'.mem root w = translate s.mem root w := by
  rw [EchOS.translate_eq, EchOS.translate_eq, h.pageFrame_eq]

/-- The memory says which leaves there are. -/
theorem of_mem (h : s.SameLeaves root w s') (hmem : s''.mem = s'.mem) :
    s.SameLeaves root w s'' := by
  have heq : s''.leafEntryAt root = s'.leafEntryAt root := by
    unfold leafEntryAt
    rw [hmem]
  exact h.trans (of_same heq)

end SameLeaves

/-- A turn of `map_range` leaves the pages alone that it does not go over. -/
theorem EntryTurn.sameLeaves {flags root v p stop : Word} {s s' : Machine} {n : Nat}
    (h : s.EntryTurn flags root v p stop (some n) s') {w : Word}
    (hw : ∀ j, j < n → path 4 w ≠ path 4 (nthPage v j)) : s.SameLeaves root w s' := by
  cases h with
  | large fits noTable rewrites =>
      refine .of_update_large rewrites.leaves_eq fun heq => ?_
      obtain ⟨j, hj, heq4⟩ := exists_page_of_region (largeFits_iff.mp fits).1 heq
      exact hw j hj heq4
  | kept notLarge covered same rewrites => exact .of_same rewrites.leaves_eq
  | small notLarge uncovered rewrites =>
      have hfirst := hw 0 Nat.one_pos
      rw [nthPage_zero] at hfirst
      exact .of_update_small rewrites.leaves_eq hfirst

theorem EntryTurn.sameLeaves_of_none {flags root v p stop : Word} {s s' : Machine}
    (h : s.EntryTurn flags root v p stop none s') (w : Word) : s.SameLeaves root w s' := by
  cases h with
  | clash _ _ _ rewrites => exact .of_same rewrites.leaves_eq
  | starved _ _ _ rewrites => exact .of_same rewrites.leaves_eq

end Machine

section Calls

variable {root : Word} {s s' : Machine}

theorem loop_sameLeaves {flags v p stop : Word} (hclear : stop.toNat ≤ 2 ^ 64 - 4096)
    (hinv : s.TreeInv root) {fuel : Nat} {r : Int}
    (h : mapRange.loop root stop flags fuel s v p = .ok (r, s')) {w : Word}
    (hw : ∀ j, j < spanPages v stop → path 4 w ≠ path 4 (nthPage v j)) :
    s.SameLeaves root w s' := by
  have hrun := loop_span_induct hclear
    (I := fun _ s1 => s1.TreeInv root ∧ s.SameLeaves root w s1)
    (J := fun s1 => s.SameLeaves root w s1) (fun _ _ h => h.1)
    (fun k s1 n s2 _ hle h hturn => by
      obtain ⟨_, _, hrewrites⟩ := hturn.rewrites
      refine ⟨hrewrites.grows.inv, h.2.trans (hturn.sameLeaves fun j hj => ?_)⟩
      rw [nthPage_add]
      exact hw _ (by omega))
    (fun k s1 s2 _ h hturn => h.2.trans (hturn.sameLeaves_of_none w))
    ⟨hinv, .refl s⟩ h
  rcases hrun with ⟨_, _, hsame⟩ | ⟨_, hsame⟩
  · exact hsame
  · exact hsame

/-- No call touches the leaves of a page it is not asked to map. -/
theorem TableCall.sameLeaves (hinv : s.TreeInv root) (call : TableCall) (hclear : call.Clear)
    {fuel : Nat} {r : Int} (h : call.run fuel s root = .ok (r, s')) {w : Word}
    (hw : ¬ call.Asks w) : s.SameLeaves root w s' := by
  cases call with
  | mapPage vaddr paddr flags =>
      cases mapPage_outcome_of_ok hinv h with
      | covered _ _ opened => exact .of_same opened.rewrites.leaves_eq
      | starved _ exhausted =>
          obtain ⟨_, hrewrites⟩ := exhausted.rewrites
          exact .of_same hrewrites.leaves_eq
      | written uncovered rewrites =>
          exact .of_update_small rewrites.leaves_eq fun heq => hw (path_four_eq_iff.mp heq)
  | mapLargePage vaddr paddr flags =>
      cases mapLargePage_outcome_of_ok hinv h with
      | refused _ opened => exact .of_same opened.rewrites.leaves_eq
      | starved _ exhausted =>
          obtain ⟨_, hrewrites⟩ := exhausted.rewrites
          exact .of_same hrewrites.leaves_eq
      | written noTable rewrites =>
          exact .of_update_large rewrites.leaves_eq fun heq => hw (path_three_eq_iff.mp heq)
  | mapRange vaddr paddr length flags =>
      obtain ⟨hpos, hrange⟩ := hclear
      exact loop_sameLeaves hrange.stop_le hinv h fun _ hj => hrange.path_ne hpos hw hj
  | getHeap vaddr length =>
      obtain ⟨hpos, hrange⟩ := hclear
      rcases getHeap_cases hinv h with
        ⟨_, rfl, _⟩ | ⟨a, pmm, s2, r2, _, _, _, hfit, hmap, hend⟩
      · exact .refl _
      · have hsame := loop_sameLeaves hrange.stop_le (hinv.of_firstFit hfit) hmap
          fun _ hj => hrange.path_ne hpos hw hj
        rcases hend with ⟨_, _, rfl⟩ | ⟨_, _, hmem, _⟩
        · exact ⟨hsame.large, hsame.small⟩
        · exact Machine.SameLeaves.of_mem ⟨hsame.large, hsame.small⟩ hmem

end Calls

/-! ## Runs -/

section Congr

variable {root : Word} {s s' : Machine}
  (hmem : ∀ p a, s.tableAt root p = some a → s'.mem a = s.mem a)

include hmem

/-- Machines with the same tables have the same leaves. -/
theorem Machine.SameLeaves.of_tables (w : Word) : s.SameLeaves root w s' :=
  .of_same (funext fun p => PointerTree.leafAt_congr hmem leafEntry p)

theorem Machine.Led.congr (h : s.Led root) : s'.Led root := by
  have hentry : ∀ p, s'.entryAt root p = s.entryAt root p := PointerTree.slot_congr hmem
  have huser : ∀ p, s'.UserAt root p ↔ s.UserAt root p := by
    intro p
    cases p with
    | nil => exact Iff.rfl
    | cons i p => simp only [Machine.UserAt, hentry]
  refine ⟨fun i p e he => h.pointers i p e ((hentry _).symm.trans he), fun i p hp => ?_⟩
  exact (huser p).mpr (h.users i p ((huser _).mp hp))

end Congr

namespace ByteSystem

/-- The leaf entries decide the rights, as the tables show them. -/
def Led (sys : ByteSystem) : Prop := sys.tables.Led

/-- A step in which no call asks for the page of `w`.  A range of no bytes or up to the last
    page is left out: it may reach pages that it does not ask for. -/
def LeavesPage (built : Pmm) (w : Word) (sys sys' : ByteSystem) : Prop :=
  ∃ act, Step built sys act sys' ∧ ∀ call, act = .table call → call.Clear ∧ ¬ call.Asks w

section Preservation

variable {built : Pmm} (hal : built.Aligned) {sys sys' : ByteSystem}

include hal

/-- What the tables show after a step. -/
theorem Inv.entry_eq {s : Machine} {b : ByteMachine} {pml4 : Option Word} {held : List Word}
    (h : System.Inv built ⟨s, pml4, held⟩) (hshows : b.Shows s) {root : Word}
    (hroot : pml4 = some root) :
    ∀ p a, s.tableAt root p = some a → b.tables.mem a = s.mem a := fun p a hp =>
  funext fun i => (hshows.entry_eq a i (h.isTable_aligned hal ⟨root, p, hroot, hp⟩)).symm

/-- The tables after a write. -/
theorem Inv.write_entry (h : sys.Inv built) {x : Word} {b : Byte} (hx : sys.Owned built x)
    {root : Word} (hroot : sys.pml4 = some root) :
    ∀ p a, sys.machine.tables.tableAt root p = some a →
      ByteMachine.entry { sys.machine with bytes := Function.update sys.machine.bytes x b } a
        = sys.machine.tables.mem a := fun p _ hp =>
  funext (h.entry_write hal hx b ⟨root, p, hroot, hp⟩)

theorem Led.step {act : Action} (hled : sys.Led) (h : sys.Inv built)
    (hstep : Step built sys act sys') : sys'.Led := by
  intro root hroot
  by_cases hact : ∃ x b, act = .write x b
  · obtain ⟨x, b, rfl⟩ := hact
    cases hstep with
    | write x b owned => exact (hled root hroot).congr (h.write_entry hal owned hroot)
  · obtain ⟨s, hsim, hshows⟩ := h.simulates hal hstep fun x b heq => hact ⟨x, b, heq⟩
    have hled' := System.Led.anyStep hled h hsim root hroot
    exact hled'.congr (Inv.entry_eq hal (System.Inv.anyStep h hsim) hshows hroot)

/-- The leaves of a page over a step that does not ask for it. -/
theorem Inv.sameLeaves {w : Word} (h : sys.Inv built) (hstep : LeavesPage built w sys sys')
    {root : Word} (hroot : sys.pml4 = some root) :
    sys'.pml4 = some root ∧ sys.machine.tables.SameLeaves root w sys'.machine.tables := by
  obtain ⟨act, hstep, hasks⟩ := hstep
  have hstep' := hstep
  cases hstep' with
  | pmm call allowed run => exact ⟨hroot, .of_same rfl⟩
  | initPml4 first run =>
      rw [first] at hroot
      cases hroot
  | write x b owned => exact ⟨hroot, .of_tables (h.write_entry hal owned hroot) w⟩
  | table pml4 call run =>
      rename_i root' fuel r b
      cases pml4.symm.trans hroot
      obtain ⟨hclear, hw⟩ := hasks call rfl
      obtain ⟨s, hcall, hshows⟩ := h.table_shows hal pml4 run
      have hleaves := call.sameLeaves (h.tree root pml4) hclear hcall hw
      have hsim := System.Inv.tableCall h pml4 hcall
      exact ⟨pml4, hleaves.trans (.of_tables (Inv.entry_eq hal hsim hshows pml4) w)⟩

end Preservation

theorem Reachable.led {storage : PmmStorage} {mmap : PhysicalMap} {sys : ByteSystem}
    (h : Reachable storage mmap.toMemoryMap sys) : sys.Led := by
  obtain ⟨bytes, hrun⟩ := h
  induction hrun with
  | refl =>
      intro root hroot
      cases hroot
  | tail hbefore hstep ih =>
      obtain ⟨act, hstep⟩ := hstep
      exact ih.step (buildPmm_aligned storage mmap.toMemoryMap) (Reachable.inv ⟨bytes, hbefore⟩) hstep

/-- A run that leaves the page of `w` alone reaches a state with the same leaves there. -/
theorem Reachable.leaves_run {storage : PmmStorage} {mmap : PhysicalMap} {sys sys' : ByteSystem}
    (h : Reachable storage mmap.toMemoryMap sys) {root : Word} (hroot : sys.pml4 = some root)
    {w : Word}
    (hrun : Relation.ReflTransGen (LeavesPage (buildPmm storage mmap.descs) w) sys sys') :
    Reachable storage mmap.toMemoryMap sys' ∧ sys'.pml4 = some root ∧
      sys.machine.tables.SameLeaves root w sys'.machine.tables := by
  have hal := buildPmm_aligned storage mmap.toMemoryMap
  induction hrun with
  | refl => exact ⟨h, hroot, .refl _⟩
  | tail _ hstep ih =>
      obtain ⟨hreach, hroot', hsame⟩ := ih
      obtain ⟨hroot'', hsame'⟩ := hreach.inv.sameLeaves hal hstep hroot'
      obtain ⟨act, hstep, _⟩ := hstep
      exact ⟨hreach.tail ⟨act, hstep⟩, hroot'', hsame.trans hsame'⟩

/-- The rights in force are those of the leaf, so they are the same too. -/
theorem Reachable.rights_eq {storage : PmmStorage} {mmap : PhysicalMap} {sys sys' : ByteSystem}
    (h : Reachable storage mmap.toMemoryMap sys) (h' : Reachable storage mmap.toMemoryMap sys')
    {root : Word} (hroot : sys.pml4 = some root) (hroot' : sys'.pml4 = some root) {w : Word}
    (hsame : sys.machine.tables.SameLeaves root w sys'.machine.tables) :
    effectiveRights sys'.machine.entry root w = effectiveRights sys.machine.entry root w := by
  have hrights := (h.led root hroot).effectiveRights_eq w
  have hrights' := (h'.led root hroot').effectiveRights_eq w
  exact (hrights'.trans (congrArg _ hsame.pageEntry_eq)).trans hrights.symm

end ByteSystem

end EchOS
