/-
  EchOS.Kernel.Memory.FirstFit

  `frames_allocate` as exact first fit, and the agreement of the two allocators
  on single frames.

  Both statements need no more than that each block for itself is in order
  (`Pmm.BlocksOk`): exact counters, set padding bits, no free frame without a
  bitmap, and no block that wraps.
-/
import EchOS.Kernel.Memory.PhysicalCalls

namespace EchOS

/-- The bits of the storage after a run of `n` frames of the block was marked,
    counted from the first word of the storage. -/
theorem PmBlock.get_setRange (b : PmBlock) (bitmap : PackedBits.Words 64) (r n k : Nat) :
    PackedBits.get (PackedBits.setRange bitmap b.base r n) 0 k
      = (decide (64 * b.base + r ≤ k ∧ k < 64 * b.base + r + n) || PackedBits.get bitmap 0 k) := by
  rw [PackedBits.setRange_eq_setRange_zero (by decide), PackedBits.get_setRange (by decide)]

/-- The block has no run of `count` free frames. -/
def PmBlock.NoRun (b : PmBlock) (bitmap : PackedBits.Words 64) (count : Nat) : Prop :=
  ∀ f, ¬ b.RunAt bitmap count f

/-- **`frames_allocate` is exact first fit.**  It always returns.  It returns the
    failure value if and only if `count` is 0 or no managed block has `count` free
    frames in a row, and then the pmm is unchanged.  Otherwise it returns the
    address of the lowest such run of the first block that has one; that block's
    counter goes down by `count`, exactly the bits of the run are set, and nothing
    else changes. -/
theorem framesAllocate_exact_first_fit {pm : Pmm} (hblocks : pm.BlocksOk) (count : Word) :
    ∃ address pm', framesAllocate pm count = .ok (address, pm') ∧
      (address = noFrame ↔
        count = 0#64 ∨ ∀ b ∈ pm.blocks, b.NoRun pm.bitmap count.toNat) ∧
      (address = noFrame → pm' = pm) ∧
      (address ≠ noFrame → ∃ pre b post f,
        pm.blocks = pre ++ b :: post ∧
        (∀ c ∈ pre, c.NoRun pm.bitmap count.toNat) ∧
        b.RunAt pm.bitmap count.toNat f ∧
        (∀ g, g < f → ¬ b.RunAt pm.bitmap count.toNat g) ∧
        address = b.address + BitVec.ofNat 64 f * frameSize ∧
        count.toNat ≤ b.framesFree.toNat ∧
        pm'.blocks = pre ++ { b with framesFree := b.framesFree - count } :: post ∧
        ∀ k, PackedBits.get pm'.bitmap 0 k
          = (decide (64 * b.base + f ≤ k ∧ k < 64 * b.base + f + count.toNat)
            || PackedBits.get pm.bitmap 0 k)) := by
  by_cases hzero : count = 0#64
  · subst hzero
    exact ⟨noFrame, pm, framesAllocate_zero, iff_of_true rfl (.inl rfl), fun _ => rfl,
      fun h => absurd rfl h⟩
  have hpos : 0 < count.toNat := Nat.pos_of_ne_zero fun h0 =>
    hzero (BitVec.eq_of_toNat_eq (by simpa using h0))
  rcases framesAllocate_cases hblocks hzero with ⟨hcall, hnone⟩ | ⟨a, pm', hcall, hfit⟩
  · exact ⟨noFrame, pm, hcall, iff_of_true rfl (.inr hnone), fun _ => rfl, fun h => absurd rfl h⟩
  · have hne := hfit.ne_noFrame hblocks hpos
    obtain ⟨pre, b, post, f, hsplit, hpre, hrun, hfirst, rfl, rfl⟩ := hfit
    have hb : b ∈ pm.blocks := Pmm.mem_split hsplit
    -- the run found refutes both reasons to fail
    have hnot : ¬ (count = 0#64 ∨ ∀ b ∈ pm.blocks, b.NoRun pm.bitmap count.toNat) := by
      rintro (h0 | hnone)
      · exact hzero h0
      · exact hnone b hb f hrun
    refine ⟨b.frame f, _, hcall, iff_of_false hne hnot, fun h => absurd h hne, fun _ => ?_⟩
    refine ⟨pre, b, post, f, hsplit, hpre, hrun, hfirst, rfl, hrun.le_framesFree (hblocks.ok b hb),
      ?_, fun k => b.get_setRange pm.bitmap f count.toNat k⟩
    simp only [PmBlock.claimed, BitVec.ofNat_toNat, BitVec.setWidth_eq]

theorem threePagesPmm_blocksOk : threePagesPmm.BlocksOk := (buildPmm_inv _ threePagesMap).blocksOk

/-- Two of the three pages. -/
theorem framesAllocate_exact_first_fit_threePages :
    ∃ address pm', framesAllocate threePagesPmm 2#64 = .ok (address, pm') ∧
      (address = noFrame → pm' = threePagesPmm) := by
  obtain ⟨address, pm', hcall, _, hsame, _⟩ :=
    framesAllocate_exact_first_fit threePagesPmm_blocksOk 2#64
  exact ⟨address, pm', hcall, hsame⟩

/-- **The two allocators agree on single frames**: the same address and the same
    pmm, also when no frame is free. -/
theorem frameAllocate_eq_framesAllocate_one {pm : Pmm} (hblocks : pm.BlocksOk) :
    frameAllocate pm = framesAllocate pm 1#64 := by
  have hone : (1#64 : Word) ≠ 0#64 := by decide
  -- a failure of either refutes a success of the other
  rcases frameAllocate_cases hblocks with ⟨hcall, hnone⟩ | ⟨a, pm1, hcall, hfit⟩
  · rcases framesAllocate_cases hblocks hone with ⟨hcall', _⟩ | ⟨a', pm2, _, hfit'⟩
    · rw [hcall, hcall']
    · -- a run of one frame is a free frame
      obtain ⟨b, hb, f, hrun, _⟩ := hfit'.exists_run
      exact absurd hrun (hnone b hb f)
  · rcases framesAllocate_cases hblocks hone with ⟨_, hnone⟩ | ⟨a', pm2, hcall', hfit'⟩
    · obtain ⟨b, hb, f, hrun, _⟩ := hfit.exists_run
      exact absurd hrun (hnone b hb f)
    · -- both claimed the first free frame, and there is only one
      obtain ⟨rfl, rfl⟩ := hfit.unique hfit'
      rw [hcall, hcall']

theorem frameAllocate_eq_framesAllocate_one_threePages :
    frameAllocate threePagesPmm = framesAllocate threePagesPmm 1#64 :=
  frameAllocate_eq_framesAllocate_one threePagesPmm_blocksOk

end EchOS
