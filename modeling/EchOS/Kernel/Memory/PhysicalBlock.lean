/-
  EchOS.Kernel.Memory.PhysicalBlock

  What the three operations do to one block.  `PmBlock.Ok` is the block's own
  invariant (exact counter, padding bits set, no free frame without a bitmap);
  each `*_spec` lemma gives the result of a loop in terms of the bits of the
  block: the first clear bit, the first run of clear bits, the bit of an address.
-/
import EchOS.Kernel.Memory.Physical

namespace EchOS

open PackedBits (Words AgreeOff zeros)

theorem frameMapSize_toNat {frameCount : Word} (h : frameCount.toNat ≤ 2 ^ 52) :
    (frameMapSize frameCount).toNat = (frameCount.toNat + 63) / 64 := by
  unfold frameMapSize
  rw [BitVec.toNat_udiv, toNat_add_of_lt (by simp; omega)]
  rfl

namespace PmBlock

/-- Words of the block's bitmap. -/
def words (b : PmBlock) : Nat := (frameMapSize b.framesTotal).toNat

/-- First word of the block's bitmap in the storage. -/
def base (b : PmBlock) : Nat := b.map.getD 0

/-- Physical address of the block's frame `f`. -/
def frame (b : PmBlock) (f : Nat) : Word := b.address + BitVec.ofNat 64 f * frameSize

/-- Whether the block's frame `f` is marked used. -/
def used (b : PmBlock) (bitmap : Words 64) (f : Nat) : Bool :=
  PackedBits.get bitmap b.base f

/-- The block's frames lie in the 64-bit address space. -/
def NonWrapping (b : PmBlock) : Prop :=
  b.address.toNat + b.framesTotal.toNat * 4096 ≤ 2 ^ 64

/-- The frames `[r, r + n)` exist and are free. -/
def RunAt (b : PmBlock) (bitmap : Words 64) (n r : Nat) : Prop :=
  b.map ≠ none ∧ r + n ≤ b.framesTotal.toNat ∧ ∀ i, i < n → b.used bitmap (r + i) = false

/-- A block's representation invariant. -/
structure Ok (b : PmBlock) (bitmap : Words 64) : Prop where
  unmanaged : b.map = none → b.framesFree = 0#64
  count : b.map ≠ none → b.framesFree.toNat = zeros bitmap b.base b.framesTotal.toNat
  padding : b.map ≠ none → ∀ f, b.framesTotal.toNat ≤ f → f < 64 * b.words →
    b.used bitmap f = true

theorem map_eq_base {b : PmBlock} (h : b.map ≠ none) : b.map = some b.base := by
  cases hm : b.map with
  | none => exact absurd hm h
  | some k =>
      unfold base
      rw [hm]
      rfl

theorem framesTotal_le {b : PmBlock} (h : b.NonWrapping) : b.framesTotal.toNat ≤ 2 ^ 52 := by
  unfold NonWrapping at h
  omega

theorem words_eq {b : PmBlock} (h : b.NonWrapping) :
    b.words = (b.framesTotal.toNat + 63) / 64 := frameMapSize_toNat (framesTotal_le h)

/-- A frame's word is one of the bitmap's. -/
theorem div_lt_words {b : PmBlock} (h : b.NonWrapping) {f : Nat} (hf : f < b.framesTotal.toNat) :
    f / 64 < b.words := by
  rw [words_eq h]
  omega

theorem frame_toNat {b : PmBlock} (h : b.NonWrapping) {f : Nat} (hf : f < b.framesTotal.toNat) :
    (b.frame f).toNat = b.address.toNat + f * 4096 := by
  have := framesTotal_le h
  unfold NonWrapping at h
  have hmul : (BitVec.ofNat 64 f * frameSize).toNat = f * 4096 := by
    rw [toNat_mul_of_lt, toNat_ofNat_of_lt (by omega), frameSize_toNat]
    rw [toNat_ofNat_of_lt (by omega), frameSize_toNat]
    omega
  unfold frame
  rw [toNat_add_of_lt (by omega), hmul]

theorem frame_eq_zero_iff {b : PmBlock} (h : b.NonWrapping) {f : Nat}
    (hf : f < b.framesTotal.toNat) : b.frame f = 0#64 ↔ b.address = 0#64 ∧ f = 0 := by
  rw [← BitVec.toNat_inj, ← BitVec.toNat_inj, frame_toNat h hf]
  simp

theorem frame_inj {b : PmBlock} (h : b.NonWrapping) {f g : Nat} (hf : f < b.framesTotal.toNat)
    (hg : g < b.framesTotal.toNat) (heq : b.frame f = b.frame g) : f = g := by
  have := congrArg BitVec.toNat heq
  rw [frame_toNat h hf, frame_toNat h hg] at this
  omega

/-- Frame addresses step by the frame size. -/
theorem frame_add (b : PmBlock) (f i : Nat) :
    b.frame (f + i) = b.frame f + BitVec.ofNat 64 i * frameSize := by
  unfold frame
  rw [BitVec.ofNat_add, BitVec.add_mul, BitVec.add_assoc]

/-- A full bitmap has no free run. -/
theorem not_runAt_of_used {b : PmBlock} {bitmap : Words 64} {n : Nat} (hn : 0 < n)
    (h : ∀ f, f < b.framesTotal.toNat → b.used bitmap f = true) (r : Nat) :
    ¬ b.RunAt bitmap n r := by
  rintro ⟨_, hle, hfree⟩
  have h0 := hfree 0 hn
  rw [h (r + 0) (by omega)] at h0
  cases h0

/-- The counter of a managed block bounds its free runs. -/
theorem RunAt.le_framesFree {b : PmBlock} {bitmap : Words 64} {n r : Nat}
    (hok : b.Ok bitmap) (h : b.RunAt bitmap n r) : n ≤ b.framesFree.toNat := by
  obtain ⟨hmap, hle, hfree⟩ := h
  rw [hok.count hmap]
  have := PackedBits.zeros_setRange (by decide : 0 < 64) bitmap b.base hle
    fun i h1 h2 => by
      have hi := hfree (i - r) (by omega)
      rwa [show r + (i - r) = i by omega] at hi
  omega

end PmBlock

/-! ## Bits of a bitmap word -/

theorem and_bit_eq_zero {word : Word} {bit : Nat} (h : bit < 64) :
    word &&& (1#64 <<< bit) = 0 ↔ word.getLsbD bit = false := by
  constructor
  · intro h0
    have hb := congrArg (fun x : Word => x.getLsbD bit) h0
    simpa [PackedBits.getLsbD_one_shift h] using hb
  · intro hb
    apply BitVec.eq_of_getLsbD_eq
    intro i hi
    rw [BitVec.getLsbD_and, PackedBits.getLsbD_one_shift hi]
    by_cases hib : i = bit
    · subst hib
      simp [hb]
    · simp [hib]

theorem shift_and_one {word : Word} {bit : Nat} :
    decide ((word >>> bit) &&& 1#64 ≠ 0) = word.getLsbD bit := by
  have h : ∀ i, ((word >>> bit) &&& 1#64).getLsbD i = (decide (i = 0) && word.getLsbD bit) := by
    intro i
    rw [BitVec.getLsbD_and, BitVec.getLsbD_ushiftRight, BitVec.getLsbD_one]
    by_cases hi : i = 0
    · subst hi
      simp
    · simp [hi]
  cases hb : word.getLsbD bit with
  | false =>
      have h0 : (word >>> bit) &&& 1#64 = 0 := by
        apply BitVec.eq_of_getLsbD_eq
        intro i _
        rw [h, hb]
        simp
      rw [decide_eq_false (not_not_intro h0)]
  | true =>
      have hne : (word >>> bit) &&& 1#64 ≠ 0 := by
        intro h0
        have := h 0
        rw [h0, hb] at this
        simp at this
      rw [decide_eq_true hne]

theorem firstClearBit_eq_none {word : Word} :
    firstClearBit word = none ↔ ∀ i, i < 64 → word.getLsbD i = true := by
  unfold firstClearBit
  rw [List.find?_range_eq_none]
  constructor
  · intro h i hi
    have hbit := h i hi
    simp only [Bool.not_eq_true', decide_eq_false_iff_not] at hbit
    rw [and_bit_eq_zero hi] at hbit
    simpa using hbit
  · intro h i hi
    simp only [Bool.not_eq_true', decide_eq_false_iff_not]
    rw [and_bit_eq_zero hi, h i hi]
    simp

theorem firstClearBit_eq_some {word : Word} {bit : Nat} (h : firstClearBit word = some bit) :
    bit < 64 ∧ word.getLsbD bit = false ∧ ∀ i, i < bit → word.getLsbD i = true := by
  unfold firstClearBit at h
  rw [List.find?_range_eq_some] at h
  obtain ⟨hclear, hmem, hbefore⟩ := h
  have hlt : bit < 64 := List.mem_range.mp hmem
  refine ⟨hlt, (and_bit_eq_zero hlt).mp (by simpa using hclear), ?_⟩
  intro i hi
  have hset := hbefore i hi
  simp only [Bool.not_eq_true', decide_eq_false_iff_not] at hset
  rw [and_bit_eq_zero (by omega)] at hset
  simpa using hset

theorem firstClearBit_isSome_of_ne {word : Word} (h : word ≠ 0xFFFFFFFFFFFFFFFF#64) :
    ∃ bit, firstClearBit word = some bit := by
  cases hf : firstClearBit word with
  | some bit => exact ⟨bit, rfl⟩
  | none =>
      refine absurd ?_ h
      apply BitVec.eq_of_getLsbD_eq
      intro i hi
      rw [firstClearBit_eq_none.mp hf i hi]
      rw [show (0xFFFFFFFFFFFFFFFF#64 : Word) = BitVec.allOnes 64 from rfl,
        BitVec.getLsbD_allOnes, decide_eq_true hi]

/-! ## Reading and writing a bitmap -/

section Block

variable {b : PmBlock} {bitmap : Words 64} (hmap : b.map ≠ none)

include hmap

theorem mapWord_eq {entry : Nat} (h : entry < b.words) :
    mapWord b bitmap entry = .ok (bitmap (b.base + entry)) := by
  unfold mapWord
  rw [PmBlock.map_eq_base hmap]
  exact if_pos h

theorem setMapWord_eq {entry : Nat} {x : Word} (h : entry < b.words) :
    setMapWord b bitmap entry x = .ok (Function.update bitmap (b.base + entry) x) := by
  unfold setMapWord
  rw [PmBlock.map_eq_base hmap]
  exact if_pos h

theorem frameIsUsed_eq {f : Nat} (h : f / 64 < b.words) :
    frameIsUsed b bitmap f = .ok (b.used bitmap f) := by
  unfold frameIsUsed
  rw [mapWord_eq hmap h]
  show Except.ok (decide _) = _
  rw [shift_and_one]
  rfl

end Block

/-! ## `frame_allocate_from_block` -/

section FullWords

variable {b : PmBlock} {bitmap : Words 64} {entry : Nat}
  (hbefore : ∀ f, f < entry * 64 → b.used bitmap f = true)

theorem used_of_div {f : Nat} (h : f / 64 = entry) :
    b.used bitmap f = (bitmap (b.base + entry)).getLsbD (f % 64) := by
  unfold PmBlock.used PackedBits.get
  rw [h]

include hbefore

/-- A word of ones extends the used prefix by 64 frames. -/
theorem used_of_ones (hones : bitmap (b.base + entry) = 0xFFFFFFFFFFFFFFFF#64) :
    ∀ f, f < (entry + 1) * 64 → b.used bitmap f = true := by
  intro f hf
  by_cases hlt : f < entry * 64
  · exact hbefore f hlt
  · rw [used_of_div (show f / 64 = entry by omega), hones,
      show (0xFFFFFFFFFFFFFFFF#64 : Word) = BitVec.allOnes 64 from rfl, BitVec.getLsbD_allOnes,
      decide_eq_true (Nat.mod_lt _ (by decide))]

/-- The first clear bit behind full words is the first free frame. -/
theorem firstFree_of_word (hmap : b.map ≠ none) (hok : b.Ok bitmap) (hentry : entry < b.words)
    {bit : Nat} (hbit : firstClearBit (bitmap (b.base + entry)) = some bit) :
    entry * 64 + bit < b.framesTotal.toNat ∧ b.used bitmap (entry * 64 + bit) = false ∧
    ∀ g, g < entry * 64 + bit → b.used bitmap g = true := by
  obtain ⟨hlt, hclear, hprev⟩ := firstClearBit_eq_some hbit
  have hfree : b.used bitmap (entry * 64 + bit) = false := by
    rw [used_of_div (show (entry * 64 + bit) / 64 = entry by omega),
      show (entry * 64 + bit) % 64 = bit by omega]
    exact hclear
  refine ⟨?_, hfree, fun g hg => ?_⟩
  · -- a clear bit is no padding
    by_contra hge
    have hpad := hok.padding hmap (entry * 64 + bit) (by omega) (by omega)
    rw [hfree] at hpad
    cases hpad
  · by_cases hlt' : g < entry * 64
    · exact hbefore g hlt'
    · rw [used_of_div (show g / 64 = entry by omega)]
      exact hprev _ (by omega)

end FullWords

section Allocate

variable {b : PmBlock} {bitmap : Words 64} (hmap : b.map ≠ none) (hwrap : b.NonWrapping)
  (hok : b.Ok bitmap)

include hmap hwrap hok

/-- From `entry` on, with every frame before it used: the loop claims the first
    free frame, or there is none. -/
theorem frameAllocateFromBlock_loop_spec (left entry : Nat) (hleft : left + entry = b.words)
    (hbefore : ∀ f, f < entry * 64 → b.used bitmap f = true) :
    (frameAllocateFromBlock.loop b bitmap left entry = .ok (noFrame, b, bitmap) ∧
      ∀ f, f < b.framesTotal.toNat → b.used bitmap f = true) ∨
    ∃ f, f < b.framesTotal.toNat ∧ b.used bitmap f = false ∧
      (∀ g, g < f → b.used bitmap g = true) ∧
      frameAllocateFromBlock.loop b bitmap left entry
        = .ok (b.frame f, { b with framesFree := b.framesFree - 1#64 },
            PackedBits.set bitmap b.base f) := by
  induction left generalizing entry with
  | zero =>
      left
      refine ⟨rfl, fun f hf => hbefore f ?_⟩
      have := PmBlock.words_eq hwrap
      omega
  | succ left ih =>
      have hentry : entry < b.words := by omega
      rw [frameAllocateFromBlock.loop, mapWord_eq hmap hentry]
      simp only [Except.bind, bind]
      split
      · next hones => exact ih (entry + 1) (by omega) (used_of_ones hbefore hones)
      · next hne =>
          obtain ⟨bit, hbit⟩ := firstClearBit_isSome_of_ne hne
          obtain ⟨hlt, hfree, hprev⟩ := firstFree_of_word hbefore hmap hok hentry hbit
          have hbit64 := (firstClearBit_eq_some hbit).1
          have hdiv : (entry * 64 + bit) / 64 = entry := by omega
          have hmod : (entry * 64 + bit) % 64 = bit := by omega
          refine .inr ⟨entry * 64 + bit, hlt, hfree, hprev, ?_⟩
          rw [hbit]
          simp only [setMapWord_eq hmap hentry]
          unfold PackedBits.set PmBlock.frame
          rw [hdiv, hmod]
          rfl

theorem frameAllocateFromBlock_spec :
    (frameAllocateFromBlock b bitmap = .ok (noFrame, b, bitmap) ∧
      ∀ f, f < b.framesTotal.toNat → b.used bitmap f = true) ∨
    ∃ f, f < b.framesTotal.toNat ∧ b.used bitmap f = false ∧
      (∀ g, g < f → b.used bitmap g = true) ∧
      frameAllocateFromBlock b bitmap
        = .ok (b.frame f, { b with framesFree := b.framesFree - 1#64 },
            PackedBits.set bitmap b.base f) :=
  frameAllocateFromBlock_loop_spec hmap hwrap hok b.words 0 rfl
    fun f hf => absurd hf (by omega)

end Allocate

/-! ## `frame_free_from_block` -/

/-- The block after frame `f` is released: the counter moves only if the frame
    was used. -/
def PmBlock.released (b : PmBlock) (bitmap : Words 64) (f : Nat) : PmBlock :=
  if b.used bitmap f then { b with framesFree := b.framesFree + 1#64 } else b

/-- `frame_free` only hands a block an address it covers, so `offset` names one
    of its frames. -/
theorem frameFreeFromBlock_spec {b : PmBlock} {bitmap : Words 64} {address : Word} {f : Nat}
    (hmap : b.map ≠ none) (hwrap : b.NonWrapping) (hf : f < b.framesTotal.toNat)
    (haddr : (address - b.address).toNat / 4096 = f) :
    frameFreeFromBlock b bitmap address
      = .ok (b.released bitmap f, PackedBits.reset bitmap b.base f) := by
  have hle := PmBlock.framesTotal_le hwrap
  have hoff : ((address - b.address) / frameSize).toNat = f := by
    rw [BitVec.toNat_udiv, frameSize_toNat, haddr]
  have hentry : ((address - b.address) / frameSize / 64#64).toNat = f / 64 := by
    rw [BitVec.toNat_udiv, hoff]
    rfl
  have hbit : ((address - b.address) / frameSize % 64#64).toNat = f % 64 := by
    rw [BitVec.toNat_umod, hoff]
    rfl
  have hword := PmBlock.div_lt_words hwrap hf
  have hused : (bitmap (b.base + f / 64) &&& (1#64 <<< (f % 64)) ≠ 0)
      ↔ b.used bitmap f = true := by
    rw [ne_eq, and_bit_eq_zero (Nat.mod_lt _ (by decide)), Bool.not_eq_false]
    rfl
  unfold frameFreeFromBlock
  rw [if_neg hmap]
  simp only [hentry, hbit, mapWord_eq hmap hword, setMapWord_eq hmap hword]
  unfold PmBlock.released
  simp only [bind, Except.bind, pure, Except.pure, PackedBits.reset]
  by_cases h : b.used bitmap f = true
  · rw [if_pos (hused.mpr h), if_pos h]
  · rw [if_neg (fun h' => h (hused.mp h')), if_neg h]

/-! ## `frames_allocate_from_block` -/

/-- The search at `frame`: the last `runLength` frames before it are free, the
    frame before those is used (or `runLength` is 0), and no run of `count` fits
    below `frame`. -/
structure PmBlock.Search (b : PmBlock) (bitmap : Words 64) (count frame runStart runLength : Nat) :
    Prop where
  short : runLength < count
  ends : 0 < runLength → runStart + runLength = frame
  free : ∀ i, i < runLength → b.used bitmap (runStart + i) = false
  below : ∀ r, r + count ≤ b.framesTotal.toNat →
    r < (if runLength = 0 then frame else runStart) → ¬ b.RunAt bitmap count r

namespace PmBlock.Search

variable {b : PmBlock} {bitmap : Words 64} {count frame runStart runLength : Nat}
  (h : b.Search bitmap count frame runStart runLength)

include h

/-- A used frame ends the run: a run that starts at or before it would contain it. -/
theorem used (hu : b.used bitmap frame = true) :
    b.Search bitmap count (frame + 1) runStart 0 where
  short := by
    have := h.short
    omega
  ends := by omega
  free := by omega
  below r hle hr hrunAt := by
    rw [if_pos rfl] at hr
    by_cases hold : r < (if runLength = 0 then frame else runStart)
    · exact h.below r hle hold hrunAt
    · have hshort := h.short
      have hends := h.ends
      have hge : r ≤ frame ∧ frame < r + count := by
        split at hold <;> omega
      have hin := hrunAt.2.2 (frame - r) (by omega)
      rw [show r + (frame - r) = frame by omega, hu] at hin
      cases hin

/-- With a free frame the run ends after it. -/
theorem run (hu : b.used bitmap frame = false) :
    (if runLength = 0 then frame else runStart) + (runLength + 1) = frame + 1 ∧
    ∀ i, i < runLength + 1 →
      b.used bitmap ((if runLength = 0 then frame else runStart) + i) = false := by
  have hstart : (if runLength = 0 then frame else runStart) + (runLength + 1) = frame + 1 := by
    have hends := h.ends
    split <;> omega
  refine ⟨hstart, fun i hi => ?_⟩
  by_cases hlast : i = runLength
  · rw [show (if runLength = 0 then frame else runStart) + i = frame by omega]
    exact hu
  · rw [if_neg (by omega)]
    exact h.free i (by omega)

theorem longer (hu : b.used bitmap frame = false) (hmore : runLength + 1 < count) :
    b.Search bitmap count (frame + 1) (if runLength = 0 then frame else runStart)
      (runLength + 1) where
  short := hmore
  ends _ := (h.run hu).1
  free := (h.run hu).2
  below r hle hr := by
    rw [if_neg (Nat.succ_ne_zero _)] at hr
    exact h.below r hle hr

/-- The frame that completes the first run of `count`. -/
theorem found (hmap : b.map ≠ none) (hlt : frame < b.framesTotal.toNat)
    (hu : b.used bitmap frame = false) (hdone : runLength + 1 = count) :
    b.RunAt bitmap count (if runLength = 0 then frame else runStart) ∧
    ∀ r, r < (if runLength = 0 then frame else runStart) → ¬ b.RunAt bitmap count r := by
  obtain ⟨hstart, hfree⟩ := h.run hu
  refine ⟨⟨hmap, by omega, fun i hi => hfree i (by omega)⟩, fun r hr hrunAt => ?_⟩
  exact h.below r hrunAt.2.1 hr hrunAt

/-- Past the last frame there is no run left to find. -/
theorem exhausted (hend : frame = b.framesTotal.toNat) (r : Nat) : ¬ b.RunAt bitmap count r := by
  intro hr
  have hle := hr.2.1
  have hshort := h.short
  have hends := h.ends
  refine h.below r hle ?_ hr
  split <;> omega

end PmBlock.Search

section AllocateRun

variable {b : PmBlock} (bitmap : Words 64) (hmap : b.map ≠ none) (hwrap : b.NonWrapping)

include hmap hwrap

/-- The search loop finds the first run of `count` free frames, or there is none. -/
theorem framesAllocateFromBlock_loop_spec {count : Nat}
    (left frame runStart runLength : Nat) (hleft : left + frame = b.framesTotal.toNat)
    (h : b.Search bitmap count frame runStart runLength) :
    (framesAllocateFromBlock.loop b bitmap count left frame runStart runLength = .ok none ∧
      ∀ r, ¬ b.RunAt bitmap count r) ∨
    ∃ r, b.RunAt bitmap count r ∧ (∀ r', r' < r → ¬ b.RunAt bitmap count r') ∧
      framesAllocateFromBlock.loop b bitmap count left frame runStart runLength
        = .ok (some r) := by
  induction left generalizing frame runStart runLength with
  | zero => exact .inl ⟨rfl, h.exhausted (by omega)⟩
  | succ left ih =>
      have hlt : frame < b.framesTotal.toNat := by omega
      rw [framesAllocateFromBlock.loop, frameIsUsed_eq hmap (PmBlock.div_lt_words hwrap hlt)]
      simp only [bind, Except.bind]
      cases hu : b.used bitmap frame with
      | true =>
          simp only [if_true]
          exact ih (frame + 1) runStart 0 (by omega) (h.used hu)
      | false =>
          simp only [Bool.false_eq_true, if_false]
          split
          · next hmore => exact ih (frame + 1) _ (runLength + 1) (by omega) (h.longer hu hmore)
          · next hdone =>
              have hshort := h.short
              obtain ⟨hrun, hfirst⟩ := h.found hmap hlt hu (by omega)
              exact .inr ⟨_, hrun, hfirst, rfl⟩

theorem framesAllocateFromBlock_mark_spec (count f : Nat) (bitmap : Words 64)
    (hf : f + count ≤ b.framesTotal.toNat) :
    framesAllocateFromBlock.mark b count f bitmap
      = .ok (PackedBits.setRange bitmap b.base f count) := by
  induction count generalizing f bitmap with
  | zero => rfl
  | succ count ih =>
      have hword := PmBlock.div_lt_words hwrap (show f < b.framesTotal.toNat by omega)
      rw [framesAllocateFromBlock.mark, mapWord_eq hmap hword]
      simp only [bind, Except.bind, setMapWord_eq hmap hword]
      rw [PackedBits.setRange_succ']
      exact ih (f + 1) _ (by omega)

theorem framesAllocateFromBlock_spec {count : Word} (hcount : count ≠ 0#64) :
    (framesAllocateFromBlock b bitmap count = .ok (noFrame, b, bitmap) ∧
      ∀ r, ¬ b.RunAt bitmap count.toNat r) ∨
    ∃ r, b.RunAt bitmap count.toNat r ∧ (∀ r', r' < r → ¬ b.RunAt bitmap count.toNat r') ∧
      framesAllocateFromBlock b bitmap count
        = .ok (b.frame r, { b with framesFree := b.framesFree - count },
            PackedBits.setRange bitmap b.base r count.toNat) := by
  have hpos : 0 < count.toNat := by
    rcases Nat.eq_zero_or_pos count.toNat with h0 | h0
    · exact absurd (BitVec.eq_of_toNat_eq (by simpa using h0)) hcount
    · exact h0
  unfold framesAllocateFromBlock
  -- the search starts with an empty run at frame 0
  have hstart : b.Search bitmap count.toNat 0 0 0 :=
    ⟨hpos, fun h => absurd h (by decide), fun i hi => absurd hi (Nat.not_lt_zero i),
      fun r _ hr => absurd hr (by simp)⟩
  rcases framesAllocateFromBlock_loop_spec bitmap hmap hwrap b.framesTotal.toNat 0 0 0 rfl hstart
    with ⟨hloop, hnone⟩ | ⟨r, hrun, hfirst, hloop⟩
  · left
    refine ⟨?_, hnone⟩
    rw [hloop]
    rfl
  · right
    refine ⟨r, hrun, hfirst, ?_⟩
    rw [hloop]
    simp only [bind, Except.bind,
      framesAllocateFromBlock_mark_spec hmap hwrap _ _ _ hrun.2.1]
    rfl

end AllocateRun

end EchOS
