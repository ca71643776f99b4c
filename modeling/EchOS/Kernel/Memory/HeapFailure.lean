/-
  EchOS.Kernel.Memory.HeapFailure

  A `get_heap` call that fails.

  The frames of the reservation always come back.  The pages that `map_range` had
  mapped before it failed stay mapped, so the translation is restored only when
  there were none: when the first page of the range that is not already mapped as
  asked is one that cannot be mapped (`HeapStalled`).
-/
import EchOS.Kernel.Memory.MapStall

namespace EchOS

theorem heapSize_toNat {length : Word} (h : (heapPages length).toNat < 2 ^ 52) :
    (heapPages length * frameSize).toNat = (heapPages length).toNat * 4096 := by
  rw [toNat_mul_of_lt, frameSize_toNat]
  rw [frameSize_toNat]
  omega

/-- The frames after a failed reservation of `n` frames: those reserved are free
    again, and the others are as before unless they are tables now. -/
structure Machine.Returned (root : Word) (n : Nat) (s s' : Machine) : Prop where
  released : ∀ a pmm, s.pmm.FirstFit n a pmm → ∀ i, i < n → s'.pmm.Free (Pmm.runFrame a i)
  free_iff : ∀ x, s'.pmm.Free x ↔ s.pmm.Free x ∧ ∀ p, s'.tableAt root p ≠ some x
  used_iff : ∀ x, s'.pmm.Used x ↔ s.pmm.Used x ∨ ∃ p, s'.tableAt root p = some x

/-- A failed reservation is undone: the frames are given back, and every page
    translates as before. -/
structure Machine.Undone (root : Word) (n : Nat) (s s' : Machine) : Prop
    extends Machine.Returned root n s s' where
  translation : ∀ w, translate s'.mem root w = translate s.mem root w

/-- If there is a run of free frames for the heap at all, then with its first run
    taken out the pages of the range are mapped to the frames of the run up to a
    page that cannot be mapped. -/
def Machine.HeapStalled (root : Word) (s : Machine) (vaddr length : Word) : Prop :=
  ∀ a pmm, length ≠ 0#64 → s.pmm.FirstFit (heapPages length).toNat a pmm →
    Machine.Stalled root { s with pmm } (pageBase vaddr) a (vaddr + heapPages length * frameSize)

section Failed

variable {root vaddr length : Word} {s s' : Machine} {fuel : Nat}

theorem pageFrame_eq_of_translate {w : Word}
    (h : translate s'.mem root w = translate s.mem root w) :
    s'.pageFrame root w = s.pageFrame root w := by
  rw [translate_eq, translate_eq] at h
  have hinj : Function.Injective (· + (w &&& 0xFFF#64)) := fun x y hxy =>
    (BitVec.add_left_inj _).mp hxy
  exact Option.map_injective hinj h

theorem Pmm.FirstFit.aligned {pm pm' : Pmm} (haddr : pm.Addressable) {n : Nat} {a : Word}
    (h : pm.FirstFit n a pm') (hn : 0 < n) : 4096 ∣ a.toNat := by
  have hfirst := h.free_run hn
  have hzero : Pmm.runFrame a 0 = a := nthPage_zero a
  rw [hzero] at hfirst
  exact (haddr a (.inl hfirst)).1

theorem heapPages_pos (h : length ≠ 0#64) : 0 < (heapPages length).toNat := by
  refine Nat.pos_of_ne_zero fun h0 => heapPages_ne_zero h ?_
  exact BitVec.eq_of_toNat_eq h0

/-- A failed call: there was no run to reserve, or `map_range` failed on the run. -/
theorem getHeap_failed (hinv : s.TreeInv root)
    (h : getHeap fuel s root vaddr length = .ok (-1, s')) :
    Machine.Returned root (heapPages length).toNat s s' ∧
    ((s' = s ∧ ∀ a pmm, length ≠ 0#64 → ¬ s.pmm.FirstFit (heapPages length).toNat a pmm) ∨
      ∃ a pmm s2, length ≠ 0#64 ∧ s.pmm.FirstFit (heapPages length).toNat a pmm ∧
        4096 ∣ a.toNat ∧ s'.mem = s2.mem ∧
        mapRange.loop root (vaddr + heapPages length * frameSize) readWriteBit fuel
          { s with pmm } (pageBase vaddr) a = .ok (-1, s2)) := by
  rcases getHeap_cases hinv h with
    ⟨_, rfl, hnone⟩ | ⟨a, pmm, s2, r2, hlen, _, _, hfit, hmap, hcase⟩
  -- no run: the state is the one before the call
  · have hno : ∀ a pmm, length ≠ 0#64 → ¬ s'.pmm.FirstFit (heapPages length).toNat a pmm := by
      intro a pmm hlen hfit
      have hpos := heapPages_pos hlen
      rcases framesAllocate_cases hinv.pmm.blocksOk (heapPages_ne_zero hlen) with
        ⟨_, hnorun⟩ | ⟨a', pmm', hcall, hfit'⟩
      · obtain ⟨b, hb, f, hrun, _⟩ := hfit.exists_run
        exact hnorun b hb f hrun
      · rw [hnone] at hcall
        cases hcall
        exact hfit'.ne_noFrame hinv.pmm.blocksOk hpos rfl
    refine ⟨⟨fun a pmm hfit i hi => hfit.free_run hi, fun x => ?_, fun x => ?_⟩, .inl ⟨rfl, hno⟩⟩
    · -- a table of the tree is used already
      refine (and_iff_left_of_imp fun hfree p hp => ?_).symm
      exact hinv.pmm.not_used_of_free hfree (hinv.tables p x hp).1
    · exact (or_iff_left_of_imp fun ⟨p, hp⟩ => (hinv.tables p x hp).1).symm
  · rcases hcase with ⟨_, hr, _⟩ | ⟨rfl, _, hmem, _, _, hfree, hused⟩
    · cases hr
    · have hal := hfit.aligned hinv.frames (heapPages_pos hlen)
      have hloop := hmap
      rw [mapRange, pageBase_of_aligned hal] at hloop
      -- the mapping ran with the run taken out of the free frames
      obtain ⟨_, new, hgrows⟩ := loop_grows (hinv.of_firstFit hfit) hloop
      refine ⟨⟨fun a' pmm' hfit' i hi => ?_, hfree, hused⟩,
        .inr ⟨a, pmm, s2, hlen, hfit, hal, hmem, hloop⟩⟩
      -- a frame of the run is free again, since no table was put there
      obtain ⟨rfl, rfl⟩ := hfit.unique hfit'
      refine (hfree _).mpr ⟨hfit.free_run hi, fun p hp => ?_⟩
      have htable : s2.tableAt root p = some (Pmm.runFrame a i) := by
        rw [Machine.tableAt, ← hmem]
        exact hp
      exact Machine.tableAt_ne_runFrame hinv hfit hgrows hi p htable

end Failed

/-- The range ends below the last page of the address space, or wraps. -/
def HeapEndClear (vaddr length : Word) : Prop :=
  vaddr.toNat + (heapPages length).toNat * 4096 ≤ 2 ^ 64 - 4096 ∨
  2 ^ 64 ≤ vaddr.toNat + (heapPages length).toNat * 4096

/-- The state after `get_heap(0x1FF000, 0x2000)` in the six-page system. -/
def halfMapped : Machine :=
  machineAfter sixPagesSystem.machine
    (getHeap 3 sixPagesSystem.machine 0x1000#64 0x1FF000#64 0x2000#64)

/-- Two pages on both sides of a 2 MiB boundary: there are three frames for the
    tables of the first and none for the page table of the second.  The call fails
    and leaves the first page mapped to a frame that is free again. -/
theorem failed_heap_mapped :
    System.Reachable oneBlock sixPagesMap.toMemoryMap sixPagesSystem ∧
    sixPagesSystem.pml4 = some 0x1000#64 ∧
    getHeap 3 sixPagesSystem.machine 0x1000#64 0x1FF000#64 0x2000#64 = .ok (-1, halfMapped) ∧
    halfMapped.pmm.Free 0x2000#64 ∧
    translate sixPagesSystem.machine.mem 0x1000#64 0x1FF000#64 = none ∧
    translate halfMapped.mem 0x1000#64 0x1FF000#64 = some 0x2000#64 :=
  ⟨sixPagesSystem_reachable, rfl, rfl,
    ⟨_, List.mem_cons_self, by decide, 1, by decide, by decide, by decide⟩, by decide, by decide⟩

/-- **When a failed `get_heap` is undone.**  In every reachable state, after a call
    that returned -1 the frames are given back.  The translation is as before if
    the call was stalled; and, for a range of less than 2^36 pages that does not
    end in the last page of the address space, only then. -/
theorem failed_heap_undone {storage : PmmStorage} {mmap : PhysicalMap} {sys : System}
    (h : System.Reachable storage mmap.toMemoryMap sys) {root : Word}
    (hroot : sys.pml4 = some root) {fuel : Nat} {vaddr length : Word} {s : Machine}
    (hcall : getHeap fuel sys.machine root vaddr length = .ok (-1, s)) :
    Machine.Returned root (heapPages length).toNat sys.machine s ∧
    (sys.machine.HeapStalled root vaddr length →
      Machine.Undone root (heapPages length).toNat sys.machine s) ∧
    ((heapPages length).toNat < 2 ^ 36 → HeapEndClear vaddr length →
      (Machine.Undone root (heapPages length).toNat sys.machine s ↔
        sys.machine.HeapStalled root vaddr length)) := by
  have htree := h.inv.tree root hroot
  obtain ⟨hreturned, hrun⟩ := getHeap_failed htree hcall
  have henough : sys.machine.HeapStalled root vaddr length →
      Machine.Undone root (heapPages length).toNat sys.machine s := by
    intro hstalled
    refine ⟨hreturned, fun w => ?_⟩
    rcases hrun with ⟨rfl, _⟩ | ⟨a, pmm, s2, hlen, hfit, _, hmem, hloop⟩
    · rfl
    · have hquiet := (hstalled a pmm hlen hfit).run plainFlags_readWriteBit
        (htree.of_firstFit hfit) (pageBase_aligned vaddr) hloop
      rw [hmem]
      exact translate_eq_of_pageFrame (congrFun hquiet.2 w)
  refine ⟨hreturned, henough, fun hpages hclear => ⟨fun hundone => ?_, henough⟩⟩
  rcases hrun with ⟨_, hno⟩ | ⟨a, pmm, s2, hlen, hfit, hal, hmem, hloop⟩
  · exact fun a pmm hlen hfit => absurd hfit (hno a pmm hlen)
  · intro a' pmm' _ hfit'
    obtain ⟨rfl, rfl⟩ := hfit.unique hfit'
    have hsize : (heapPages length * frameSize).toNat = (heapPages length).toNat * 4096 :=
      heapSize_toNat (by omega)
    have hbase := pageBase_toNat vaddr
    rcases hclear with hclear | hwrap
    · have hstop : (vaddr + heapPages length * frameSize).toNat
          = vaddr.toNat + (heapPages length).toNat * 4096 := by
        rw [toNat_add_of_lt (by omega), hsize]
      let R := PageRange.ofCall vaddr a (vaddr + heapPages length * frameSize)
        (by omega) (by omega)
      have hpaddr : R.paddr = a := pageBase_of_aligned hal
      rw [← hpaddr] at hloop ⊢
      have hsame : s2.pageFrame root = Machine.pageFrame { sys.machine with pmm } root := by
        funext w
        apply pageFrame_eq_of_translate
        rw [← hmem]
        exact hundone.translation w
      rcases R.run_cases (htree.of_firstFit hfit) plainFlags_readWriteBit hloop with
        ⟨hr, _⟩ | ⟨_, m, s1, new, hm, hprog, _, hframe, hblocked, _⟩
      · cases hr
      · exact R.stalled_of_unchanged hm hprog (hframe.symm.trans hsame) hblocked
    · -- a range that wraps has an end below its start, and the call succeeds
      have hstop : ¬ pageBase vaddr < vaddr + heapPages length * frameSize := by
        rw [BitVec.lt_def, BitVec.toNat_add, hsize, hbase]
        omega
      cases loop_of_not_lt hstop hloop

/-- The two pages on both sides of a 2 MiB boundary are no stalled call. -/
theorem failed_heap_undone_halfMapped :
    ¬ sixPagesSystem.machine.HeapStalled 0x1000#64 0x1FF000#64 0x2000#64 := by
  intro hstalled
  have hundone := failed_heap_undone sixPagesSystem_reachable sixPagesSystem_pml4
    (rfl : getHeap 3 sixPagesSystem.machine 0x1000#64 0x1FF000#64 0x2000#64 = .ok (-1, halfMapped))
  exact absurd ((hundone.2.1 hstalled).translation 0x1FF000#64) (by decide)

end EchOS
