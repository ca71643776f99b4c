/-
  EchOS.Efi.PmmCompare

  `compare_pmm` of `efi-stage/efi_pmm.c`, by what it prints.

  The message about the block counts is printed without its arguments.
-/
import EchOS.Efi.Firmware
import EchOS.Kernel.Memory.PhysicalFrees

namespace EchOS

/-! ## The code -/

/-- The first line of `compare_pmm`. -/
def comparePmm.heading (addressA addressB : Word) : PrintCall :=
  ⟨"Comparing physical memory maps at a:0x%llx and b:0x%llx\n", [addressA, addressB]⟩

/-- The body of its loop, on blocks `i`. -/
def comparePmm.block (i : Nat) (a b : PmBlock) : List PrintCall :=
  (if a.framesTotal ≠ b.framesTotal then
    [⟨"Block %d frames_total - a: %d, b: %d\n", [BitVec.ofNat 64 i, a.framesTotal, b.framesTotal]⟩]
  else []) ++
  if a.framesFree ≠ b.framesFree then
    [⟨"Block %d frames_free - a: %d, b: %d\n", [BitVec.ofNat 64 i, a.framesFree, b.framesFree]⟩]
  else []

/-- Blocks `i` of both, where they have them. -/
def comparePmm.at (a b : Pmm) (i : Nat) : List PrintCall :=
  match a.blocks[i]?, b.blocks[i]? with
  | some x, some y => comparePmm.block i x y
  | _, _ => []

/-- `compare_pmm` -/
def comparePmm (addressA addressB : Word) (a b : Pmm) : List PrintCall :=
  let blockCount := if a.blocks.length > b.blocks.length then b.blocks.length else a.blocks.length
  comparePmm.heading addressA addressB ::
    ((if a.blocks.length ≠ b.blocks.length then [⟨"Block count - a: %d, b: %d\n", []⟩] else []) ++
      (List.range blockCount).flatMap (comparePmm.at a b))

/-! ## What it tells -/

/-- The counts that are compared. -/
def PmBlock.counts (b : PmBlock) : Word × Word := (b.framesTotal, b.framesFree)

theorem comparePmm.block_eq_nil {i : Nat} {a b : PmBlock} :
    comparePmm.block i a b = [] ↔ a.counts = b.counts := by
  simp [comparePmm.block, PmBlock.counts]

/-- Nothing is printed about a block that is the same. -/
theorem comparePmm.at_eq_nil {a b : Pmm} {i : Nat} (h : a.blocks[i]? = b.blocks[i]?) :
    comparePmm.at a b i = [] := by
  rw [comparePmm.at, ← h]
  cases a.blocks[i]? with
  | none => rfl
  | some x => exact comparePmm.block_eq_nil.mpr rfl

/-- With as many blocks in both, it prints what there is to say about each. -/
theorem comparePmm_eq {a b : Pmm} (hlength : a.blocks.length = b.blocks.length)
    (addressA addressB : Word) :
    comparePmm addressA addressB a b = comparePmm.heading addressA addressB ::
      (List.range a.blocks.length).flatMap (comparePmm.at a b) := by
  simp [comparePmm, hlength]

theorem comparePmm_self (addressA addressB : Word) (pm : Pmm) :
    comparePmm addressA addressB pm pm = [comparePmm.heading addressA addressB] := by
  rw [comparePmm_eq rfl, List.flatMap_eq_nil_iff.mpr fun i _ => comparePmm.at_eq_nil rfl]

/-- **`compare_pmm` is silent exactly on equal counts.**  It prints nothing but its heading if
    and only if the two have as many blocks and the same counts of frames, total and free,
    block by block. -/
theorem compare_pmm_silent_iff (addressA addressB : Word) (a b : Pmm) :
    comparePmm addressA addressB a b = [comparePmm.heading addressA addressB] ↔
      a.blocks.map PmBlock.counts = b.blocks.map PmBlock.counts := by
  by_cases hlength : a.blocks.length = b.blocks.length
  · have hblock : ∀ i, comparePmm.at a b i = [] ↔
        (a.blocks.map PmBlock.counts)[i]? = (b.blocks.map PmBlock.counts)[i]? := by
      intro i
      by_cases hi : i < a.blocks.length
      · have hi' : i < b.blocks.length := hlength ▸ hi
        rw [comparePmm.at, List.getElem?_eq_getElem hi, List.getElem?_eq_getElem hi']
        simpa [hi, hi'] using comparePmm.block_eq_nil
      · have hi' : ¬ i < b.blocks.length := hlength ▸ hi
        simp [comparePmm.at, hi, hi']
    rw [comparePmm_eq hlength, List.cons_eq_cons, List.flatMap_eq_nil_iff]
    constructor
    · rintro ⟨_, hall⟩
      refine List.ext_getElem? fun i => ?_
      by_cases hi : i < a.blocks.length
      · exact (hblock i).mp (hall i (List.mem_range.mpr hi))
      · simp [hi, hlength ▸ hi]
    · intro heq
      exact ⟨rfl, fun i _ => (hblock i).mpr (by rw [heq])⟩
  · constructor
    · intro h
      simp [comparePmm, hlength] at h
    · intro h
      exact absurd (by simpa using congrArg List.length h) hlength

/-- A pmm, and one with another free count in one place. -/
theorem comparePmm_replace (addressA addressB : Word) {pre post : List PmBlock} {x y : PmBlock}
    (htotal : x.framesTotal = y.framesTotal) (hfree : x.framesFree ≠ y.framesFree)
    (bitmap bitmap' : PackedBits.Words 64) :
    comparePmm addressA addressB ⟨pre ++ x :: post, bitmap⟩ ⟨pre ++ y :: post, bitmap'⟩
      = [comparePmm.heading addressA addressB,
         ⟨"Block %d frames_free - a: %d, b: %d\n",
          [BitVec.ofNat 64 pre.length, x.framesFree, y.framesFree]⟩] := by
  have hsame : ∀ i, i ≠ pre.length →
      comparePmm.at ⟨pre ++ x :: post, bitmap⟩ ⟨pre ++ y :: post, bitmap'⟩ i = [] := by
    intro i hi
    apply comparePmm.at_eq_nil
    rcases Nat.lt_or_gt_of_ne hi with hlt | hgt
    · simp [List.getElem?_append_left hlt]
    · obtain ⟨k, rfl⟩ : ∃ k, i = pre.length + (k + 1) := ⟨i - pre.length - 1, by omega⟩
      simp [List.getElem?_append_right]
  have hblock : comparePmm.at ⟨pre ++ x :: post, bitmap⟩ ⟨pre ++ y :: post, bitmap'⟩ pre.length
      = [⟨"Block %d frames_free - a: %d, b: %d\n",
          [BitVec.ofNat 64 pre.length, x.framesFree, y.framesFree]⟩] := by
    simp [comparePmm.at, comparePmm.block, htotal, hfree]
  -- the blocks before it, the block, and those behind it
  have hrange : List.range (pre ++ x :: post).length
      = List.range pre.length ++ (pre.length :: (List.range post.length).map fun k =>
          pre.length + 1 + k) := by
    rw [List.length_append, List.length_cons, Nat.add_comm post.length, ← Nat.add_assoc,
      List.range_add, List.range_succ, List.append_assoc]
    rfl
  have hbefore : (List.range pre.length).flatMap
      (comparePmm.at ⟨pre ++ x :: post, bitmap⟩ ⟨pre ++ y :: post, bitmap'⟩) = [] :=
    List.flatMap_eq_nil_iff.mpr fun i hi => hsame i (Nat.ne_of_lt (List.mem_range.mp hi))
  have hafter : ((List.range post.length).map fun k => pre.length + 1 + k).flatMap
      (comparePmm.at ⟨pre ++ x :: post, bitmap⟩ ⟨pre ++ y :: post, bitmap'⟩) = [] := by
    rw [List.flatMap_map]
    exact List.flatMap_eq_nil_iff.mpr fun k _ => hsame _ (by omega)
  rw [comparePmm_eq (by simp), hrange, List.flatMap_append, List.flatMap_cons, hbefore, hblock,
    hafter]
  rfl

/-- **`compare_pmm` shows an allocation.**  Between a pmm and what `frames_allocate` makes of
    it, it prints one line for a call that succeeds, about the block that the frames are from,
    with its free frames before and after; and none for a call that fails. -/
theorem compare_pmm_shows_allocation {pm pm' : Pmm} (hinv : pm.Inv) {count a : Word}
    (h : framesAllocate pm count = .ok (a, pm')) (addressA addressB : Word) :
    (a = noFrame → comparePmm addressA addressB pm pm' = [comparePmm.heading addressA addressB]) ∧
    (a ≠ noFrame → ∃ i b f, pm.blocks[i]? = some b ∧ a = b.frame f ∧
      f + count.toNat ≤ b.framesTotal.toNat ∧ count.toNat ≤ b.framesFree.toNat ∧
      comparePmm addressA addressB pm pm' = [comparePmm.heading addressA addressB,
        ⟨"Block %d frames_free - a: %d, b: %d\n",
          [BitVec.ofNat 64 i, b.framesFree, b.framesFree - count]⟩]) := by
  have hself := comparePmm_self addressA addressB pm
  by_cases hcount : count = 0#64
  · rw [hcount, framesAllocate_zero] at h
    cases h
    exact ⟨fun _ => hself, fun hne => absurd rfl hne⟩
  rcases framesAllocate_cases hinv.blocksOk hcount with ⟨hcall, _⟩ | ⟨a', pm1, hcall, hfit⟩
  · cases hcall.symm.trans h
    exact ⟨fun _ => hself, fun hne => absurd rfl hne⟩
  · cases hcall.symm.trans h
    have hpos : 0 < count.toNat := by
      refine Nat.pos_of_ne_zero fun h0 => hcount (BitVec.eq_of_toNat_eq h0)
    refine ⟨fun heq => absurd heq (hfit.ne_noFrame hinv.blocksOk hpos), fun _ => ?_⟩
    obtain ⟨pre, b, post, f, hsplit, _, hrun, _, rfl, rfl⟩ := hfit
    have hle := hrun.le_framesFree (hinv.ok b (Pmm.mem_split hsplit))
    have hclaimed : b.framesFree - count = (b.claimed count.toNat).framesFree := by
      rw [PmBlock.claimed, BitVec.ofNat_toNat, BitVec.setWidth_eq]
    refine ⟨pre.length, b, f, by simp [hsplit], rfl, hrun.2.1, hle, ?_⟩
    have hne : b.framesFree ≠ (b.claimed count.toNat).framesFree := by
      rw [← hclaimed]
      bv_omega
    obtain ⟨blocks, bitmap⟩ := pm
    cases hsplit
    rw [hclaimed]
    have htotal : b.framesTotal = (b.claimed count.toNat).framesTotal := rfl
    exact comparePmm_replace addressA addressB htotal hne _ _

/-- Two of three pages. -/
theorem compare_pmm_shows_allocation_threePages :
    ∃ pm', framesAllocate threePagesPmm 2#64 = .ok (0x1000#64, pm') ∧
      comparePmm 0x8000#64 0x9000#64 threePagesPmm pm'
        = [comparePmm.heading 0x8000#64 0x9000#64,
           ⟨"Block %d frames_free - a: %d, b: %d\n", [0#64, 3#64, 1#64]⟩] := by
  obtain ⟨pm', hcall⟩ : ∃ pm', framesAllocate threePagesPmm 2#64 = .ok (0x1000#64, pm') :=
    ⟨_, rfl⟩
  obtain ⟨i, b, f, hb, _, _, _, hprints⟩ := (compare_pmm_shows_allocation threePagesPmm_inv hcall
    0x8000#64 0x9000#64).2 (by decide)
  refine ⟨pm', hcall, ?_⟩
  have hi : i = 0 := by
    have hlt := (List.getElem?_eq_some_iff.mp hb).1
    exact Nat.lt_one_iff.mp hlt
  subst hi
  have hfree : b.framesFree = 3#64 := by
    cases hb
    rfl
  rw [hprints, hfree]
  rfl

end EchOS
