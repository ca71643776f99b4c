/-
  EchOS.Kernel.Memory.HeapReserve

  The frames behind `get_heap`: it reserves a run of free frames, maps it with
  `map_range`, and gives the run back when the mapping failed.

  `getHeap_cases` lists the three ways a call can end, with the marks of the pmm
  in each.
-/
import EchOS.Kernel.Memory.Heap
import EchOS.Kernel.Memory.MapTurn

namespace EchOS

/-! ## The page count -/

theorem heapPages_toNat (length : Word) : (heapPages length).toNat = (length.toNat + 4095) / 4096 := by
  have hdiv : (length / frameSize).toNat = length.toNat / 4096 := BitVec.toNat_udiv
  have hlt := length.isLt
  have hmul : (length / frameSize * frameSize).toNat = length.toNat / 4096 * 4096 := by
    rw [toNat_mul_of_lt, hdiv, frameSize_toNat]
    rw [hdiv, frameSize_toNat]
    omega
  unfold heapPages
  simp only [BitVec.lt_def, hmul]
  split
  · rw [toNat_add_of_lt, hdiv]
    · show length.toNat / 4096 + 1 = _
      omega
    · rw [hdiv]
      show length.toNat / 4096 + 1 < _
      omega
  · rw [hdiv]
    omega

theorem heapPages_ne_zero {length : Word} (h : length ≠ 0#64) : heapPages length ≠ 0#64 := by
  intro h0
  have hpages := heapPages_toNat length
  rw [h0] at hpages
  have hlen : length.toNat ≠ 0 := fun hz => h (BitVec.eq_of_toNat_eq hz)
  have : (0#64 : Word).toNat = 0 := rfl
  omega

/-! ## Giving the frames back -/

/-- The release loop frees the frames it is given, and changes nothing else. -/
theorem release_spec {a : Word} {left i : Nat} {pm : Pmm} (hinv : pm.Inv)
    (haddr : pm.Addressable)
    (hrun : ∀ j, i ≤ j → j < i + left → pm.Free (Pmm.runFrame a j) ∨ pm.Used (Pmm.runFrame a j)) :
    ∃ pm', getHeap.release a left i pm = .ok pm' ∧ pm'.Inv ∧ pm'.layout = pm.layout ∧
      ∀ bit y, pm'.Marked bit y ↔
        (bit = false ∧ ∃ j, i ≤ j ∧ j < i + left ∧ y = Pmm.runFrame a j) ∨
        (pm.Marked bit y ∧ ∀ j, i ≤ j → j < i + left → y ≠ Pmm.runFrame a j) := by
  induction left generalizing i pm with
  | zero =>
      refine ⟨pm, rfl, hinv, rfl, fun bit y => ?_⟩
      have hno : ∀ j, ¬ (i ≤ j ∧ j < i + 0) := fun j hj => by omega
      constructor
      · exact fun h => .inr ⟨h, fun j h1 h2 => absurd ⟨h1, h2⟩ (hno j)⟩
      · rintro (⟨_, j, h1, h2, _⟩ | ⟨h, _⟩)
        · exact absurd ⟨h1, h2⟩ (hno j)
        · exact h
  | succ left ih =>
      have hbase : pageBase (Pmm.runFrame a i) = Pmm.runFrame a i :=
        pageBase_of_aligned (haddr _ (hrun i (Nat.le_refl i) (by omega))).1
      have hfirst := hrun i (Nat.le_refl i) (by omega)
      rw [← hbase] at hfirst
      obtain ⟨pm1, hcall, hinv1, hlay1, hmarked1⟩ := Pmm.frameFree_managed hinv haddr hfirst
      rw [hbase] at hmarked1
      have hrest : ∀ j, i + 1 ≤ j → j < i + 1 + left →
          pm1.Free (Pmm.runFrame a j) ∨ pm1.Used (Pmm.runFrame a j) := by
        intro j h1 h2
        rw [Pmm.free_or_used_iff, hlay1, ← Pmm.free_or_used_iff]
        exact hrun j (by omega) (by omega)
      obtain ⟨pm', hloop, hinv', hlay', hmarked'⟩ := ih hinv1 (haddr.of_layout_eq hlay1) hrest
      refine ⟨pm', ?_, hinv', hlay'.trans hlay1, fun bit y => ?_⟩
      · have hcall' : frameFree pm (a + BitVec.ofNat 64 i * frameSize) = .ok pm1 := hcall
        rw [getHeap.release, hcall']
        exact hloop
      · rw [hmarked', hmarked1]
        constructor
        · rintro (⟨hbit, j, h1, h2, hy⟩ | ⟨⟨hbit, hy⟩ | ⟨hm, hy⟩, hne⟩)
          · exact .inl ⟨hbit, j, by omega, by omega, hy⟩
          · exact .inl ⟨hbit, i, Nat.le_refl i, by omega, hy⟩
          · refine .inr ⟨hm, fun j h1 h2 heq => ?_⟩
            rcases Nat.eq_or_lt_of_le h1 with hij | hij
            · exact hy (hij ▸ heq)
            · exact hne j hij (by omega) heq
        · rintro (⟨hbit, j, h1, h2, hy⟩ | ⟨hm, hne⟩)
          · by_cases hlater : ∃ j, i + 1 ≤ j ∧ j < i + 1 + left ∧ y = Pmm.runFrame a j
            · exact .inl ⟨hbit, hlater⟩
            · -- the frame of this turn, and not one that a later turn frees again
              refine .inr ⟨.inl ⟨hbit, ?_⟩, fun k h3 h4 heq => hlater ⟨k, h3, h4, heq⟩⟩
              rcases Nat.eq_or_lt_of_le h1 with hij | hij
              · rw [hy, hij]
              · exact absurd ⟨j, hij, by omega, hy⟩ hlater
          · refine .inr ⟨.inr ⟨hm, hne i (Nat.le_refl i) (by omega)⟩, fun j h1 h2 => ?_⟩
            exact hne j (by omega) (by omega)

/-! ## The ways a call can end -/

section Cases

variable {root : Word} {s : Machine}

/-- The tree does not see frames being marked used. -/
theorem Machine.TreeInv.of_firstFit (hinv : s.TreeInv root) {n : Nat} {a : Word} {pmm : Pmm}
    (hfit : s.pmm.FirstFit n a pmm) : Machine.TreeInv root { s with pmm } := by
  refine ⟨hfit.inv hinv.pmm, hinv.frames.of_layout_eq hfit.layout_eq, fun h => ?_, hinv.separate,
    fun p b hb => ?_, hinv.sizes⟩
  · exact hinv.null_not_free ((hfit.free_iff hinv.pmm null).mp h).1
  · obtain ⟨hused, hne⟩ := hinv.tables p b hb
    exact ⟨(hfit.used_iff hinv.pmm b).mpr (.inl hused), hne⟩

theorem plainFlags_readWriteBit : PlainFlags readWriteBit := by
  show readWriteBit &&& physAddrMask = 0#64
  decide

/-- A table of a tree that grew after a run was claimed is an old one, or sits in a frame
    outside the run. -/
theorem Machine.Grows.origin_claimed (hinv : s.TreeInv root) {n : Nat} {a : Word} {pmm : Pmm}
    (hfit : s.pmm.FirstFit n a pmm) {flags : Word} {new : Finset (List Index)} {s2 : Machine}
    (hgrows : Machine.Grows flags root new { s with pmm } s2) {p : List Index} {b : Word}
    (hb : s2.tableAt root p = some b) :
    s.tableAt root p = some b ∨ s.pmm.Free b ∧ ∀ i, i < n → b ≠ Pmm.runFrame a i := by
  rcases hgrows.origin (hinv.of_firstFit hfit).pmm hb with hold | hfree
  · exact .inl hold
  · exact .inr ((hfit.free_iff hinv.pmm b).mp hfree)

/-- No table sits in the frames of a claimed run, also after more tables. -/
theorem Machine.tableAt_ne_runFrame (hinv : s.TreeInv root) {n : Nat} {a : Word} {pmm : Pmm}
    (hfit : s.pmm.FirstFit n a pmm) {flags : Word} {new : Finset (List Index)} {s2 : Machine}
    (hgrows : Machine.Grows flags root new { s with pmm } s2) {i : Nat} (hi : i < n)
    (p : List Index) : s2.tableAt root p ≠ some (Pmm.runFrame a i) := by
  intro hp
  rcases hgrows.origin_claimed hinv hfit hp with hold | ⟨_, houtside⟩
  · exact hinv.pmm.not_used_of_free (hfit.free_run hi) (hinv.tables p _ hold).1
  · exact houtside i hi rfl

/-- Giving a reservation back after its mapping failed: the frames that are free
    are those that were free before and hold no table. -/
theorem release_after_map (hinv : s.TreeInv root) {n : Nat} {a : Word} {pmm : Pmm}
    (hfit : s.pmm.FirstFit n a pmm) {flags : Word} {new : Finset (List Index)} {s2 : Machine}
    (hgrows : Machine.Grows flags root new { s with pmm } s2) :
    ∃ pm3, getHeap.release a n 0 s2.pmm = .ok pm3 ∧
      Machine.TreeInv root { s2 with pmm := pm3 } ∧ pm3.layout = s.pmm.layout ∧
      (∀ x, pm3.Free x ↔ s.pmm.Free x ∧ ∀ p, s2.tableAt root p ≠ some x) ∧
      ∀ x, pm3.Used x ↔ s.pmm.Used x ∨ ∃ p, s2.tableAt root p = some x := by
  have hinv1 := hinv.of_firstFit hfit
  have hinv2 := hgrows.inv
  have htable := fun i (hi : i < n) => Machine.tableAt_ne_runFrame hinv hfit hgrows hi
  -- the run is used, so each of its frames is managed
  have hused : ∀ i, 0 ≤ i → i < 0 + n →
      s2.pmm.Free (Pmm.runFrame a i) ∨ s2.pmm.Used (Pmm.runFrame a i) := by
    intro i _ hi
    refine .inr ((hgrows.used_iff hinv1 _).mpr (.inl ?_))
    exact (hfit.used_iff hinv.pmm _).mpr (.inr ⟨i, by omega, rfl⟩)
  obtain ⟨pm3, hrelease, hinv3, hlay3, hmarked3⟩ := release_spec hinv2.pmm hinv2.frames hused
  rw [Nat.zero_add] at hmarked3
  have hfree' : ∀ x, pm3.Free x ↔ s.pmm.Free x ∧ ∀ p, s2.tableAt root p ≠ some x := by
    intro x
    refine (hmarked3 false x).trans ?_
    constructor
    · rintro (⟨_, i, _, hi, rfl⟩ | ⟨hm, _⟩)
      · exact ⟨hfit.free_run hi, htable i hi⟩
      · obtain ⟨hfree1, hno⟩ := (hgrows.free_iff hinv1 x).mp hm
        exact ⟨((hfit.free_iff hinv.pmm x).mp hfree1).1, hno⟩
    · rintro ⟨hfree, hno⟩
      by_cases hin : ∃ i, i < n ∧ x = Pmm.runFrame a i
      · obtain ⟨i, hi, rfl⟩ := hin
        exact .inl ⟨rfl, i, Nat.zero_le i, hi, rfl⟩
      · refine .inr ⟨(hgrows.free_iff hinv1 x).mpr ⟨?_, hno⟩, fun i _ hi heq => hin ⟨i, hi, heq⟩⟩
        exact (hfit.free_iff hinv.pmm x).mpr ⟨hfree, fun i hi heq => hin ⟨i, hi, heq⟩⟩
  have hused' : ∀ x, pm3.Used x ↔ s.pmm.Used x ∨ ∃ p, s2.tableAt root p = some x := by
    intro x
    refine (hmarked3 true x).trans ?_
    constructor
    · rintro (⟨hbit, _⟩ | ⟨hm, hno⟩)
      · cases hbit
      · rcases (hgrows.used_iff hinv1 x).mp hm with hu | htab
        · rcases (hfit.used_iff hinv.pmm x).mp hu with hu | ⟨i, hi, heq⟩
          · exact .inl hu
          · exact absurd heq (hno i (Nat.zero_le i) hi)
        · exact .inr htab
    · rintro (hu | ⟨p, hp⟩)
      · have hu1 := (hfit.used_iff hinv.pmm x).mpr (.inl hu)
        refine .inr ⟨(hgrows.used_iff hinv1 x).mpr (.inl hu1), fun i _ hi heq => ?_⟩
        exact hinv.pmm.not_used_of_free (hfit.free_run hi) (heq ▸ hu)
      · exact .inr ⟨(hinv2.tables p x hp).1, fun i _ hi heq => htable i hi p (heq ▸ hp)⟩
  have hlay : pm3.layout = s.pmm.layout := by
    rw [hlay3, hgrows.layout_eq]
    exact hfit.layout_eq
  refine ⟨pm3, hrelease, ⟨hinv3, hinv2.frames.of_layout_eq hlay3, fun hn => ?_, hinv2.separate,
    fun p b hb => ?_, hinv2.sizes⟩, hlay, hfree', hused'⟩
  · exact hinv.null_not_free ((hfree' null).mp hn).1
  · exact ⟨(hused' b).mpr (.inr ⟨p, hb⟩), (hinv2.tables p b hb).2⟩

/-- The ways a call of `get_heap` can end: nothing reserved, everything mapped, or
    the reservation given back. -/
theorem getHeap_cases (hinv : s.TreeInv root) {fuel : Nat} {vaddr length : Word} {r : Int}
    {s' : Machine} (h : getHeap fuel s root vaddr length = .ok (r, s')) :
    (r = -1 ∧ s' = s ∧ framesAllocate s.pmm (heapPages length) = .ok (noFrame, s.pmm)) ∨
    ∃ a pmm s2 r2, length ≠ 0#64 ∧ framesAllocate s.pmm (heapPages length) = .ok (a, pmm) ∧
      a ≠ noFrame ∧ s.pmm.FirstFit (heapPages length).toNat a pmm ∧
      mapRange fuel { s with pmm } root vaddr a (heapPages length * frameSize) readWriteBit
        = .ok (r2, s2) ∧
      (r2 = 0 ∧ r = 0 ∧ s' = s2 ∨
        r2 = -1 ∧ r = -1 ∧ s'.mem = s2.mem ∧ s'.TreeInv root ∧ s'.pmm.layout = s.pmm.layout ∧
          (∀ x, s'.pmm.Free x ↔ s.pmm.Free x ∧ ∀ p, s'.tableAt root p ≠ some x) ∧
          ∀ x, s'.pmm.Used x ↔ s.pmm.Used x ∨ ∃ p, s'.tableAt root p = some x) := by
  unfold getHeap at h
  simp only [] at h
  -- no bytes are no pages, which `frames_allocate` refuses
  by_cases hzero : length = 0#64
  · have hpages : heapPages length = 0#64 := by
      rw [hzero]
      decide
    rw [hpages] at h ⊢
    rw [framesAllocate_zero] at h ⊢
    cases h
    exact .inl ⟨rfl, rfl, rfl⟩
  have hpages := heapPages_ne_zero hzero
  rcases framesAllocate_cases hinv.pmm.blocksOk hpages with ⟨hcall, _⟩ | ⟨a, pmm, hcall, hfit⟩
  · rw [hcall] at h ⊢
    cases h
    exact .inl ⟨rfl, rfl, rfl⟩
  · have hpos : 0 < (heapPages length).toNat := by
      rcases Nat.eq_zero_or_pos (heapPages length).toNat with h0 | h0
      · exact absurd (BitVec.eq_of_toNat_eq h0) hpages
      · exact h0
    have hne : a ≠ noFrame := hfit.ne_noFrame hinv.pmm.blocksOk hpos
    rw [hcall] at h
    change (if a = noFrame then _ else _) = _ at h
    rw [if_neg hne] at h
    obtain ⟨⟨r2, s2⟩, hmap, hrest⟩ := except_bind_ok h
    obtain ⟨hr2, new, hgrows⟩ := loop_grows (hinv.of_firstFit hfit) hmap
    simp only [] at hrest
    refine .inr ⟨a, pmm, s2, r2, hzero, hcall, hne, hfit, hmap, ?_⟩
    rcases hr2 with rfl | rfl
    · cases hrest
      exact .inl ⟨rfl, rfl, rfl⟩
    -- the mapping failed: the tables it took stay used, the reservation is given back
    · obtain ⟨pm3, hrelease, hinv3, hlay3, hfree3, hused3⟩ := release_after_map hinv hfit hgrows
      rw [if_pos (by decide), hrelease] at hrest
      cases hrest
      exact .inr ⟨rfl, rfl, rfl, hinv3, hlay3, hfree3, hused3⟩

end Cases

end EchOS
