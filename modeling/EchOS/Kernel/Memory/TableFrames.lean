/-
  EchOS.Kernel.Memory.TableFrames

  The page tables as one more client of the allocator.

  Whatever addresses an entry can hold, the pmm of a running system is one that
  clients leave who free only what they hold: the table code keeps the frames it
  gets, and `get_heap` gives back frames it just reserved.  So `Clients.Inv`
  holds in every reachable state, for any memory map and any flags
  (`System.AnyReachable.tracked`); `System.Inv` needs memory below 2^52.
-/
import EchOS.Kernel.Memory.System

namespace EchOS

section Clients

variable {layout : List PmBlock} {pm pm' : Pmm} {held : List Word}

theorem Clients.Inv.perm (h : Clients.Inv layout ⟨pm, held⟩) {held' : List Word}
    (hperm : held.Perm held') : Clients.Inv layout ⟨pm, held'⟩ where
  pmm := h.pmm
  layout_eq := h.layout_eq
  pool := ⟨hperm.nodup_iff.mp h.pool.nodup,
    fun x hx => h.pool.not_free x (hperm.mem_iff.mpr hx)⟩
  usable x hx := h.usable x (hx.imp_right hperm.mem_iff.mpr)

/-- The frames of an aligned block are aligned, even past a wrap. -/
theorem PmBlock.frame_aligned {b : PmBlock} (h : 4096 ∣ b.address.toNat) (f : Nat) :
    4096 ∣ (b.frame f).toNat := by
  have hframe : (b.frame f).toNat = (b.address.toNat + f % 2 ^ 64 * 4096 % 2 ^ 64) % 2 ^ 64 := by
    rw [PmBlock.frame, BitVec.toNat_add, BitVec.toNat_mul, BitVec.toNat_ofNat, frameSize_toNat]
  rw [hframe]
  omega

theorem UsableFrame.aligned (hal : ∀ b ∈ layout, 4096 ∣ b.address.toNat) {a : Word}
    (h : UsableFrame layout a) : 4096 ∣ a.toNat := by
  obtain ⟨b, hb, _, _, f, _, rfl⟩ := h
  exact PmBlock.frame_aligned (hal b hb) f

/-- A call of the allocator, by a client that keeps the rule. -/
theorem Clients.Inv.call (hal : ∀ b ∈ layout, 4096 ∣ b.address.toNat)
    (h : Clients.Inv layout ⟨pm, held⟩) {call : PmmCall} (allowed : call.Allowed held)
    {r : Option Word} (run : call.run pm = .ok (r, pm')) :
    Clients.Inv layout ⟨pm', call.heldAfter held r⟩ := by
  have haligned : pm.Aligned := by
    unfold Pmm.Aligned
    rw [h.layout_eq]
    exact hal
  exact h.step haligned (.call call allowed run)

end Clients

/-! ## The functions on the tables -/

/-- Whatever clients hold besides, the pmm of `s'` is that of `s` after a client
    took the frames `tables` out of it. -/
def Machine.TakesTables (layout : List PmBlock) (s s' : Machine) : Prop :=
  ∀ held, Clients.Inv layout ⟨s.pmm, held⟩ →
    ∃ tables, Clients.Inv layout ⟨s'.pmm, tables ++ held⟩

namespace Machine.TakesTables

variable {layout : List PmBlock} {s s' s'' : Machine}

theorem refl (s : Machine) : TakesTables layout s s := fun _ h => ⟨[], h⟩

theorem trans (h : TakesTables layout s s') (h' : TakesTables layout s' s'') :
    TakesTables layout s s'' := by
  intro held hinv
  obtain ⟨tables, hinv'⟩ := h held hinv
  obtain ⟨tables', hinv''⟩ := h' _ hinv'
  refine ⟨tables' ++ tables, ?_⟩
  rw [List.append_assoc]
  exact hinv''

/-- Only the pmm counts. -/
theorem of_pmm_eq (h : s'.pmm = s.pmm) : TakesTables layout s s' := by
  intro held hinv
  exact ⟨[], h ▸ hinv⟩

end Machine.TakesTables

section Tables

variable {layout : List PmBlock} (hal : ∀ b ∈ layout, 4096 ∣ b.address.toNat) {s s' : Machine}

include hal

theorem allocTable_takes {next : Word} (h : allocTable s = .ok (next, s')) {held : List Word}
    (hinv : Clients.Inv layout ⟨s.pmm, held⟩) :
    ∃ tables, Clients.Inv layout ⟨s'.pmm, tables ++ held⟩ ∧ (next ≠ null → next ∈ tables) := by
  unfold allocTable at h
  obtain ⟨⟨frame, pmm⟩, hcall, hrest⟩ := except_bind_ok h
  have hrun : PmmCall.run s.pmm .frameAllocate = .ok (some frame, pmm) := by
    rw [PmmCall.run, hcall]
    rfl
  have hallowed : PmmCall.frameAllocate.Allowed held := trivial
  have hstep := hinv.call hal hallowed hrun
  have hheld : PmmCall.heldAfter held (some frame) .frameAllocate
      = if frame = noFrame then held else runFrames frame 1 ++ held := rfl
  by_cases hfail : frame = noFrame
  · rw [hheld, if_pos hfail] at hstep
    -- no frame: the callers hold what they held
    simp only [if_pos hfail] at hrest
    cases hrest
    exact ⟨[], hstep, fun hne => absurd rfl hne⟩
  · rw [hheld, if_neg hfail] at hstep
    simp only [if_neg hfail] at hrest
    cases hrest
    -- the run of one frame is the table
    refine ⟨_, hstep, fun _ => mem_runFrames.mpr ⟨0, Nat.one_pos, ?_⟩⟩
    rw [Pmm.Takes.runFrame_one Nat.one_pos]

theorem nextTable_takes {table next flags : Word} {index : Index}
    (h : nextTable s table index flags = .ok (next, s')) : s.TakesTables layout s' := by
  unfold nextTable at h
  split at h
  · obtain ⟨⟨frame, s1⟩, halloc, hrest⟩ := except_bind_ok h
    intro held hinv
    -- a new table; linking it in does not touch the pmm
    obtain ⟨tables, hinv', _⟩ := allocTable_takes hal halloc hinv
    refine ⟨tables, ?_⟩
    simp only [] at hrest
    split at hrest
    · cases hrest
      exact hinv'
    · cases hrest
      exact hinv'
  · split at h
    · cases h
      exact .refl s
    · cases h
      -- an old table: at most its entry is widened
      exact .of_pmm_eq rfl

/-- Opening the page directory only takes tables, and so does the rest. -/
theorem withDirectory_takes {root v flags : Word} {r : Int}
    {rest : Word → Machine → Except Abort (Int × Machine)}
    (hrest : ∀ pd s1, rest pd s1 = .ok (r, s') → s1.TakesTables layout s')
    (h : withDirectory s root v flags rest = .ok (r, s')) : s.TakesTables layout s' := by
  unfold withDirectory at h
  obtain ⟨⟨pdp, s1⟩, hpdp, h⟩ := except_bind_ok h
  have h1 := nextTable_takes hal hpdp
  simp only [] at h
  split at h
  · cases h
    exact h1
  obtain ⟨⟨pd, s2⟩, hpd, h⟩ := except_bind_ok h
  have h2 := h1.trans (nextTable_takes hal hpd)
  simp only [] at h
  split at h
  · cases h
    exact h2
  · exact h2.trans (hrest pd s2 h)

theorem mapPage_takes {root v p flags : Word} {r : Int}
    (h : mapPage s root v p flags = .ok (r, s')) : s.TakesTables layout s' := by
  rw [mapPage_eq] at h
  refine withDirectory_takes hal (fun pd s1 h => ?_) h
  simp only [] at h
  split at h
  · cases h
    exact .refl _
  obtain ⟨⟨pt, s2⟩, hpt, h⟩ := except_bind_ok h
  have h2 := nextTable_takes hal hpt
  simp only [] at h
  split at h
  · cases h
    exact h2
  · cases h
    exact h2.trans (.of_pmm_eq rfl)

theorem mapLargePage_takes {root v p flags : Word} {r : Int}
    (h : mapLargePage s root v p flags = .ok (r, s')) : s.TakesTables layout s' := by
  rw [mapLargePage_eq] at h
  refine withDirectory_takes hal (fun pd s1 h => ?_) h
  split at h
  · cases h
    exact .refl _
  · cases h
    exact .of_pmm_eq rfl

theorem loop_takes {root stop flags : Word} {fuel : Nat} {v p : Word} {r : Int}
    (h : mapRange.loop root stop flags fuel s v p = .ok (r, s')) : s.TakesTables layout s' := by
  induction fuel generalizing s v p with
  | zero => cases h
  | succ fuel ih =>
      unfold mapRange.loop at h
      split at h
      · obtain ⟨⟨large, s1⟩, hlarge, h⟩ := except_bind_ok h
        -- a turn tries the 2 MiB page, then the small one
        have h1 : s.TakesTables layout s1 := by
          unfold mapRange.tryLarge at hlarge
          split at hlarge
          · exact mapLargePage_takes hal hlarge
          · cases hlarge
            exact .refl s
        simp only [] at h
        split at h
        · exact h1.trans (ih h)
        obtain ⟨⟨small, s2⟩, hsmall, h⟩ := except_bind_ok h
        have h2 := h1.trans (mapPage_takes hal hsmall)
        simp only [] at h
        split at h
        · cases h
          exact h2
        · exact h2.trans (ih h)
      · cases h
        exact .refl _

/-- The release loop gives back the frames of a run from the `i`th on. -/
theorem release_gives {a : Word} {left i : Nat} {pm pm' : Pmm} {tables held : List Word}
    (hinv : Clients.Inv layout
      ⟨pm, tables ++ ((List.range' i left).map (Pmm.runFrame a) ++ held)⟩)
    (h : getHeap.release a left i pm = .ok pm') : Clients.Inv layout ⟨pm', tables ++ held⟩ := by
  induction left generalizing i pm with
  | zero =>
      cases h
      exact hinv
  | succ left ih =>
      rw [List.range'_succ, List.map_cons, List.cons_append] at hinv
      have hfront := hinv.perm List.perm_middle
      unfold getHeap.release at h
      obtain ⟨pm1, hfree, hrest⟩ := except_bind_ok h
      -- the frame is on a page boundary, so `frame_free` frees this one
      have hbase : pageBase (Pmm.runFrame a i) = Pmm.runFrame a i :=
        pageBase_of_aligned ((hfront.usable _ (.inr List.mem_cons_self)).aligned hal)
      have hrun : PmmCall.run pm (.frameFree (Pmm.runFrame a i)) = .ok (none, pm1) := by
        have hfree' : frameFree pm (Pmm.runFrame a i) = .ok pm1 := hfree
        rw [PmmCall.run, hfree']
        rfl
      have hallowed : (PmmCall.frameFree (Pmm.runFrame a i)).Allowed
          (Pmm.runFrame a i :: (tables ++ ((List.range' (i + 1) left).map (Pmm.runFrame a) ++ held))) := by
        show pageBase _ ∈ _
        rw [hbase]
        exact List.mem_cons_self
      -- only a frame that is held may be given back
      have hgiven := hfront.call hal hallowed hrun
      rw [PmmCall.heldAfter, hbase, List.erase_cons_head] at hgiven
      exact ih hgiven hrest

/-- Whatever a call returns, the frames it reserved are its caller's and the
    others it took are the tables'. -/
theorem TableCall.takes (call : TableCall) {fuel : Nat} {root : Word} {r : Int}
    (h : call.run fuel s root = .ok (r, s')) {held : List Word}
    (hinv : Clients.Inv layout ⟨s.pmm, held⟩) :
    ∃ tables, Clients.Inv layout ⟨s'.pmm, tables ++ (call.reserved s.pmm r ++ held)⟩ := by
  cases call with
  | mapPage vaddr paddr flags => exact mapPage_takes hal h held hinv
  | mapLargePage vaddr paddr flags => exact mapLargePage_takes hal h held hinv
  | mapRange vaddr paddr length flags => exact loop_takes hal h held hinv
  | getHeap vaddr length =>
      have hcall : EchOS.getHeap fuel s root vaddr length = .ok (r, s') := h
      unfold EchOS.getHeap at hcall
      obtain ⟨⟨a, pmm⟩, hreserve, hcall⟩ := except_bind_ok hcall
      have hrun : PmmCall.run s.pmm (.framesAllocate (heapPages length)) = .ok (some a, pmm) := by
        rw [PmmCall.run, hreserve]
        rfl
      have hallowed : (PmmCall.framesAllocate (heapPages length)).Allowed held := trivial
      have hreserved := hinv.call hal hallowed hrun
      have hheld : PmmCall.heldAfter held (some a) (.framesAllocate (heapPages length))
          = if a = noFrame then held else runFrames a (heapPages length).toNat ++ held := rfl
      simp only [] at hcall
      split at hcall
      · next hfail =>
          rw [hheld, if_pos hfail] at hreserved
          cases hcall
          exact ⟨[], hreserved⟩
      · next hne =>
          rw [hheld, if_neg hne] at hreserved
          obtain ⟨⟨mapped, s1⟩, hmap, hcall⟩ := except_bind_ok hcall
          obtain ⟨tables, hmapped⟩ := loop_takes hal hmap _ hreserved
          simp only [] at hcall
          split at hcall
          · -- the reservation is given back, the tables are not
            obtain ⟨pmm', hrelease, hcall⟩ := except_bind_ok hcall
            cases hcall
            rw [runFrames, List.range_eq_range'] at hmapped
            exact ⟨tables, release_gives hal hmapped hrelease⟩
          · cases hcall
            refine ⟨tables, ?_⟩
            rw [reserved, if_pos rfl, heapFrames_eq hreserve]
            exact hmapped

end Tables

/-! ## Runs -/

namespace System

/-- The callers of a system and its page tables are clients of the allocator that
    keep the rule, and the frame of the root is the tables'. -/
def Tracked (layout : List PmBlock) (sys : System) : Prop :=
  ∃ tables, Clients.Inv layout ⟨sys.machine.pmm, sys.held ++ tables⟩ ∧
    ∀ root, sys.pml4 = some root → root ∈ tables

/-- A call of one client leaves the others what they hold. -/
theorem heldAfter_append {call : PmmCall} {held tables : List Word} (allowed : call.Allowed held)
    (r : Option Word) : call.heldAfter (held ++ tables) r = call.heldAfter held r ++ tables := by
  have happ : ∀ a n, (if a = noFrame then held ++ tables else runFrames a n ++ (held ++ tables))
      = (if a = noFrame then held else runFrames a n ++ held) ++ tables := by
    intro a n
    split
    · rfl
    · rw [List.append_assoc]
  cases call with
  | frameFree address => exact List.erase_append_left tables allowed
  | frameAllocate =>
      cases r with
      | none => rfl
      | some a => exact happ a 1
  | framesAllocate count =>
      cases r with
      | none => rfl
      | some a => exact happ a count.toNat

section Tracked

variable {layout : List PmBlock} (hal : ∀ b ∈ layout, 4096 ∣ b.address.toNat) {sys sys' : System}

include hal

theorem Tracked.table (h : sys.Tracked layout) {root : Word} {fuel : Nat} {r : Int} {s : Machine}
    (call : TableCall) (run : call.run fuel sys.machine root = .ok (r, s)) :
    Tracked layout ⟨s, sys.pml4, call.reserved sys.machine.pmm r ++ sys.held⟩ := by
  obtain ⟨tables, hinv, hroot⟩ := h
  obtain ⟨new, hinv'⟩ := call.takes hal run hinv
  rw [← List.append_assoc (call.reserved _ r)] at hinv'
  exact ⟨new ++ tables, hinv'.perm (List.perm_append_comm_assoc ..), fun root hpml4 =>
    List.mem_append_right new (hroot root hpml4)⟩

theorem Tracked.step (h : sys.Tracked layout) (hstep : AnyStep sys sys') : sys'.Tracked layout := by
  cases hstep with
  | table pml4 call run => exact h.table hal call run
  | step hstep =>
      cases hstep with
      | table pml4 call plain run => exact h.table hal call run
      | pmm call allowed run =>
          obtain ⟨tables, hinv, hroot⟩ := h
          -- the callers' frames change, the tables keep theirs
          refine ⟨tables, ?_, hroot⟩
          rw [← heldAfter_append allowed]
          refine hinv.call hal ?_ run
          cases call with
          | frameFree address => exact List.mem_append_left _ allowed
          | frameAllocate => trivial
          | framesAllocate count => trivial
      | initPml4 first run =>
          rename_i root s
          obtain ⟨tables, hinv, _⟩ := h
          obtain ⟨new, hinv', hroot⟩ := allocTable_takes hal run hinv
          refine ⟨new ++ tables, hinv'.perm (List.perm_append_comm_assoc ..), fun root' hpml4 => ?_⟩
          by_cases hnull : root = null
          · rw [if_pos hnull] at hpml4
            cases hpml4
          · rw [if_neg hnull] at hpml4
            cases hpml4
            exact List.mem_append_left _ (hroot hnull)

end Tracked

/-- In every reachable state the callers and the tables hold different frames, in
    any memory and after calls with any flags. -/
theorem AnyReachable.tracked {storage : PmmStorage} {mmap : MemoryMap} {sys : System}
    (h : AnyReachable storage mmap sys) : sys.Tracked (buildPmm storage mmap.descs).layout := by
  obtain ⟨mem, hrun⟩ := h
  induction hrun with
  | refl =>
      refine ⟨[], buildPmm_clients_inv storage mmap, fun root hroot => ?_⟩
      cases hroot
  | tail _ hstep ih => exact ih.step (buildPmm_aligned storage mmap) hstep

end System

end EchOS
