/-
  EchOS.Kernel.Memory.PhysicalTakes

  Runs of `frame_allocate`: the frames a number of calls take, one after the
  other, and how many calls a pmm can serve.  And the free of one managed frame.

  `Takes pm frames pm'` is what the page table code does to the pmm.  The frames
  are distinct, were free and are used afterwards, and are the first ones the
  allocator would hand out (`Takes.eq_firstFrames`).
-/
import EchOS.Kernel.Memory.PhysicalInvariant
import Mathlib.Data.List.Nodup

namespace EchOS

namespace Pmm

/-- The sum of the `frames_free` counters. -/
def freeCount (pm : Pmm) : Nat := (pm.blocks.map fun b => b.framesFree.toNat).sum

/-- The frames that the next `n` calls of `frame_allocate` return, as long as they
    do not fail. -/
def firstFrames : Nat → Pmm → List Word
  | 0, _ => []
  | n + 1, pm =>
      match frameAllocate pm with
      | .ok (address, pm) => if address = noFrame then [] else address :: firstFrames n pm
      | .error _ => []

/-- `pm'` is `pm` after successful calls of `frame_allocate` returned `frames`. -/
inductive Takes : Pmm → List Word → Pmm → Prop where
  | nil (pm : Pmm) : Takes pm [] pm
  | cons {pm pm' pm'' : Pmm} {a : Word} {frames : List Word}
      (call : frameAllocate pm = .ok (a, pm')) (fit : pm.FirstFit 1 a pm')
      (rest : Takes pm' frames pm'') : Takes pm (a :: frames) pm''

section Count

variable {pm pm' : Pmm} (hinv : pm.Inv)

include hinv

theorem FirstFit.freeCount_add {n : Nat} {a : Word} (h : pm.FirstFit n a pm') :
    pm'.freeCount + n = pm.freeCount := by
  obtain ⟨pre, b, post, r, hsplit, _, hrun, _, _, rfl⟩ := h
  have hle := hrun.le_framesFree (hinv.ok b (mem_split hsplit))
  have hlt := b.framesFree.isLt
  have hclaimed : (b.claimed n).framesFree.toNat + n = b.framesFree.toNat := by
    show (b.framesFree - BitVec.ofNat 64 n).toNat + n = b.framesFree.toNat
    rw [BitVec.toNat_sub, toNat_ofNat_of_lt (by omega)]
    omega
  unfold freeCount
  rw [hsplit]
  simp only [List.map_append, List.map_cons, List.sum_append, List.sum_cons]
  omega

/-- Without a free run of one frame the counters are all zero. -/
theorem freeCount_eq_zero (h : ∀ b ∈ pm.blocks, ∀ r, ¬ b.RunAt pm.bitmap 1 r) :
    pm.freeCount = 0 := by
  have hzero : ∀ b ∈ pm.blocks, b.framesFree.toNat = 0 := by
    intro b hb
    by_cases hmap : b.map = none
    · rw [(hinv.ok b hb).unmanaged hmap]
      rfl
    · rw [(hinv.ok b hb).count hmap]
      refine PackedBits.zeros_eq_zero_iff.mpr fun f hf => ?_
      cases hbit : PackedBits.get pm.bitmap b.base f with
      | true => rfl
      | false =>
          -- a clear bit is a run of one
          refine absurd ⟨hmap, hf, fun i hi => ?_⟩ (h b hb f)
          rw [show f + i = f by omega]
          exact hbit
  unfold freeCount
  rw [List.sum_eq_zero_iff_forall_eq_nat]
  intro x hx
  obtain ⟨b, hb, rfl⟩ := List.mem_map.mp hx
  exact hzero b hb

/-- `frame_allocate` fails exactly when no frame is left. -/
theorem frameAllocate_count :
    (frameAllocate pm = .ok (noFrame, pm) ∧ pm.freeCount = 0) ∨
    ∃ a pm', frameAllocate pm = .ok (a, pm') ∧ pm.FirstFit 1 a pm' ∧ a ≠ noFrame ∧
      0 < pm.freeCount := by
  rcases frameAllocate_cases hinv.blocksOk with ⟨hres, hnone⟩ | ⟨a, pm', hres, hfit⟩
  · exact .inl ⟨hres, freeCount_eq_zero hinv hnone⟩
  · have hcount := hfit.freeCount_add hinv
    exact .inr ⟨a, pm', hres, hfit, hfit.ne_noFrame hinv.blocksOk Nat.one_pos, by omega⟩

end Count

/-! ## Several calls -/

namespace Takes

variable {pm pm' pm'' : Pmm} {frames frames' : List Word}

theorem append (h : Takes pm frames pm') (h' : Takes pm' frames' pm'') :
    Takes pm (frames ++ frames') pm'' := by
  induction h with
  | nil => exact h'
  | cons call fit _ ih => exact .cons call fit (ih h')

theorem layout_eq (h : Takes pm frames pm') : pm'.layout = pm.layout := by
  induction h with
  | nil => rfl
  | cons _ fit _ ih => rw [ih, fit.layout_eq]

section Inv

variable (hinv : pm.Inv)

include hinv

theorem inv (h : Takes pm frames pm') : pm'.Inv := by
  induction h with
  | nil => exact hinv
  | cons _ fit _ ih => exact ih (fit.inv hinv)

theorem freeCount_add (h : Takes pm frames pm') :
    pm'.freeCount + frames.length = pm.freeCount := by
  induction h with
  | nil => rfl
  | cons _ fit _ ih =>
      have hrest := ih (fit.inv hinv)
      have hone := fit.freeCount_add hinv
      rw [List.length_cons]
      omega

omit hinv in
theorem runFrame_one {a : Word} {i : Nat} (hi : i < 1) : runFrame a i = a := by
  have h0 : i = 0 := by omega
  rw [h0]
  unfold runFrame
  simp

theorem free_iff (h : Takes pm frames pm') (x : Word) :
    pm'.Free x ↔ pm.Free x ∧ x ∉ frames := by
  induction h with
  | nil => simp
  | cons call fit rest ih =>
      rename_i a _
      rw [ih (fit.inv hinv), fit.free_iff hinv, List.mem_cons, not_or, and_assoc]
      refine and_congr_right fun _ => and_congr_left fun _ => ?_
      constructor
      · intro h heq
        exact h 0 Nat.one_pos (by rw [runFrame_one Nat.one_pos, heq])
      · intro h i hi heq
        exact h (by rw [heq, runFrame_one hi])

theorem used_iff (h : Takes pm frames pm') (x : Word) :
    pm'.Used x ↔ pm.Used x ∨ x ∈ frames := by
  induction h with
  | nil => simp
  | cons call fit rest ih =>
      rename_i a _
      rw [ih (fit.inv hinv), fit.used_iff hinv, List.mem_cons, or_assoc]
      refine or_congr_right (or_congr_left ?_)
      constructor
      · rintro ⟨i, hi, rfl⟩
        exact runFrame_one hi
      · rintro rfl
        exact ⟨0, Nat.one_pos, (runFrame_one Nat.one_pos).symm⟩

theorem free_of_mem (h : Takes pm frames pm') {x : Word} (hx : x ∈ frames) : pm.Free x := by
  induction h with
  | nil => cases hx
  | cons call fit rest ih =>
      rcases List.mem_cons.mp hx with rfl | hx
      · have := fit.free_run Nat.one_pos
        rwa [runFrame_one Nat.one_pos] at this
      · exact ((fit.free_iff hinv x).mp (ih (fit.inv hinv) hx)).1

omit hinv in
/-- The frames are the first ones of the allocator. -/
theorem eq_firstFrames (h : Takes pm frames pm') (hinv : pm.Inv) :
    frames = firstFrames frames.length pm := by
  induction h with
  | nil => rfl
  | cons call fit rest ih =>
      rename_i pm a frames
      have hne : a ≠ noFrame := by
        rcases frameAllocate_count hinv with ⟨hres, hzero⟩ | ⟨a', pm', hres, _, hne, _⟩
        · have := fit.freeCount_add hinv
          omega
        · rw [call] at hres
          cases hres
          exact hne
      rw [List.length_cons, firstFrames, call]
      simp only [if_neg hne]
      rw [← ih (fit.inv hinv)]

end Inv

end Takes

/-! ## Managed frames -/

/-- The managed frames are a matter of the layout. -/
theorem free_or_used_iff {pm : Pmm} {a : Word} :
    pm.Free a ∨ pm.Used a ↔ ∃ b ∈ pm.layout, b.map ≠ none ∧
      ∃ f, f < b.framesTotal.toNat ∧ a = b.frame f := by
  constructor
  · rintro (⟨b, hb, hmap, f, hf, ha, _⟩ | ⟨b, hb, hmap, f, hf, ha, _⟩)
    · exact ⟨b.layout, List.mem_map_of_mem hb, hmap, f, hf, ha⟩
    · exact ⟨b.layout, List.mem_map_of_mem hb, hmap, f, hf, ha⟩
  · rintro ⟨_, hlay, hmap, f, hf, ha⟩
    obtain ⟨b, hb, rfl⟩ := List.mem_map.mp hlay
    cases hbit : b.used pm.bitmap f with
    | false => exact .inl ⟨b, hb, hmap, f, hf, ha, hbit⟩
    | true => exact .inr ⟨b, hb, hmap, f, hf, ha, hbit⟩

/-- Every managed frame is a page below 2^52, where an entry can hold it. -/
def Addressable (pm : Pmm) : Prop :=
  ∀ a, pm.Free a ∨ pm.Used a → 4096 ∣ a.toNat ∧ a.toNat < 2 ^ 52

theorem Addressable.of_layout_eq {pm pm' : Pmm} (h : pm.Addressable)
    (hlay : pm'.layout = pm.layout) : pm'.Addressable := by
  intro a ha
  rw [free_or_used_iff, hlay, ← free_or_used_iff] at ha
  exact h a ha

/-- `frame_free` of an address in a managed frame frees that frame. -/
theorem frameFree_managed {pm : Pmm} (hinv : pm.Inv) (haddr : pm.Addressable) {address : Word}
    (hx : pm.Free (pageBase address) ∨ pm.Used (pageBase address)) :
    ∃ pm', frameFree pm address = .ok pm' ∧ pm'.Inv ∧ pm'.layout = pm.layout ∧
      ∀ bit y, pm'.Marked bit y ↔
        (bit = false ∧ y = pageBase address) ∨ (pm.Marked bit y ∧ y ≠ pageBase address) := by
  obtain ⟨_, hlay, hmap, f, hf, hframe⟩ := free_or_used_iff.mp hx
  obtain ⟨b, hb, rfl⟩ := List.mem_map.mp hlay
  have hlt : f < b.framesTotal.toNat := hf
  have hw := hinv.nonWrapping b hb
  have hmanaged : ∀ g, g < b.framesTotal.toNat → pm.Free (b.frame g) ∨ pm.Used (b.frame g) :=
    fun g hg => free_or_used_iff.mpr ⟨b.layout, List.mem_map_of_mem hb, hmap, g, hg, rfl⟩
  -- the first frame is aligned, the last one ends below 2^64
  have hfirst := (haddr _ (hmanaged 0 (by omega))).1
  rw [PmBlock.frame_toNat hw (by omega)] at hfirst
  have hlast := (haddr _ (hmanaged (b.framesTotal.toNat - 1) (by omega))).2
  rw [PmBlock.frame_toNat hw (by omega)] at hlast
  have hcovers : b.Covers address := by
    have htoNat : (pageBase address).toNat = b.address.toNat + f * 4096 := by
      rw [hframe]
      exact PmBlock.frame_toNat hw hlt
    rw [pageBase_toNat] at htoNat
    unfold PmBlock.Covers
    omega
  rcases frameFree_cases hinv address with ⟨_, hnone⟩ | ⟨pm', hcall, hrel⟩
  · exact absurd hcovers (hnone b hb hmap)
  · refine ⟨pm', hcall, hrel.inv hinv, hrel.layout_eq, ?_⟩
    obtain ⟨c, hc, _, hcc, hmarked⟩ := hrel.marked_iff hinv
    have hcb := covers_unique hinv hc hb hcc hcovers
    subst hcb
    rw [hcc.frame_frameIndex hw (by omega)] at hmarked
    exact hmarked

end Pmm

end EchOS
