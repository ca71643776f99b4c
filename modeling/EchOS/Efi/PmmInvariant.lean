/-
  EchOS.Efi.PmmInvariant

  `build_pmm` establishes the allocator's invariant inside the storage it was
  given, for every memory map and every storage size.

  The loop invariant `BuildInv` ties the cursor and the words left to the size of
  the storage and says of every block recorded so far what its bits are
  (`Built`).  A step writes only the words between the old and the new cursor, so
  the earlier blocks keep their bits.
-/
import EchOS.Efi.Pmm
import EchOS.Kernel.Memory.PhysicalInvariant

namespace EchOS

open PackedBits (Words AgreeOff zeros)

/-! ## The words a block's bitmap is filled with -/

theorem agreeOff_fillWords (bitmap : Words 64) (map : Nat) (x : Word) (words : Nat) :
    AgreeOff bitmap (fillWords bitmap map x words) map words := by
  induction words with
  | zero => exact PackedBits.agreeOff_refl _ _ _
  | succ words ih =>
      intro i hi
      rw [fillWords, Function.update_of_ne (by omega)]
      exact ih i (by omega)

theorem fillWords_apply (bitmap : Words 64) (map : Nat) (x : Word) {words entry : Nat}
    (h : entry < words) : fillWords bitmap map x words (map + entry) = x := by
  induction words with
  | zero => omega
  | succ words ih =>
      rw [fillWords]
      by_cases heq : entry = words
      · rw [heq, Function.update_self]
      · rw [Function.update_of_ne (by omega)]
        exact ih (by omega)

theorem get_fillWords_ones (bitmap : Words 64) (map : Nat) {words f : Nat} (h : f < 64 * words) :
    PackedBits.get (fillWords bitmap map (~~~0#64) words) map f = true := by
  have hlt : f % 64 < 64 := Nat.mod_lt _ (by decide)
  unfold PackedBits.get
  rw [fillWords_apply _ _ _ (by omega), BitVec.getLsbD_not, decide_eq_true hlt]
  simp

theorem agreeOff_usableBitmap (bitmap : Words 64) (map : Nat) (desc : EfiMemoryDescriptor)
    (h : 0 < (frameMapSize desc.numberOfPages).toNat) :
    AgreeOff bitmap (usableBitmap bitmap map desc) map
      (frameMapSize desc.numberOfPages).toNat := by
  have htail : ∀ bm : Words 64, AgreeOff bitmap bm map (frameMapSize desc.numberOfPages).toNat →
      ∀ entry x, entry < (frameMapSize desc.numberOfPages).toNat →
      AgreeOff bitmap (Function.update bm (map + entry) x) map
        (frameMapSize desc.numberOfPages).toNat :=
    fun bm hbm entry x he => hbm.trans (PackedBits.agreeOff_update x he)
  have hfill := agreeOff_fillWords bitmap map 0#64 (frameMapSize desc.numberOfPages).toNat
  unfold usableBitmap
  simp only []
  split <;> split
  · exact htail _ (htail _ hfill _ _ (by omega)) 0 _ h
  · exact htail _ hfill 0 _ h
  · exact htail _ hfill _ _ (by omega)
  · exact hfill

theorem numberOfPages_pos {desc : EfiMemoryDescriptor} (h : desc.numberOfPages ≠ 0#64) :
    0 < desc.numberOfPages.toNat := by
  rcases Nat.eq_zero_or_pos desc.numberOfPages.toNat with h0 | h0
  · exact absurd (BitVec.eq_of_toNat_eq (by simpa using h0)) h
  · exact h0

theorem get_fillWords_zero (bitmap : Words 64) (map : Nat) {words f : Nat} (h : f < 64 * words) :
    PackedBits.get (fillWords bitmap map 0#64 words) map f = false := by
  unfold PackedBits.get
  rw [fillWords_apply _ _ _ (by omega)]
  simp

/-- With its upper bits set, the last word holds the padding. -/
theorem get_padded (bitmap : Words 64) (map : Nat) {pages f : Nat}
    (hf : f < 64 * ((pages + 63) / 64)) :
    PackedBits.get (if pages % 64 ≠ 0 then
        Function.update (fillWords bitmap map 0#64 ((pages + 63) / 64))
          (map + ((pages + 63) / 64 - 1)) (~~~0#64 <<< (pages % 64))
      else fillWords bitmap map 0#64 ((pages + 63) / 64)) map f = decide (pages ≤ f) := by
  have hzero := get_fillWords_zero bitmap map hf
  have hlt : f % 64 < 64 := Nat.mod_lt _ (by decide)
  split
  · next htail =>
      by_cases hlast : f / 64 = (pages + 63) / 64 - 1
      · unfold PackedBits.get
        rw [hlast, Function.update_self, BitVec.getLsbD_shiftLeft, BitVec.getLsbD_not]
        by_cases hge : pages ≤ f
        · have h1 : ¬ f % 64 < pages % 64 := by omega
          have h2 : f % 64 - pages % 64 < 64 := by omega
          simp [h1, h2, hlt, hge]
        · have h1 : f % 64 < pages % 64 := by omega
          simp [h1, hge]
      · rw [PackedBits.get_congr (Function.update_of_ne (by omega) _ _), hzero,
          decide_eq_false (by omega)]
  · next htail =>
      -- the pages fill all words
      rw [hzero, decide_eq_false (by omega)]

/-- The bits of a fresh PM_USABLE block: padding, and frame 0 at address 0. -/
theorem get_usableBitmap (bitmap : Words 64) (map : Nat) (desc : EfiMemoryDescriptor)
    (hsmall : desc.numberOfPages.toNat ≤ 2 ^ 52) {f : Nat}
    (hf : f < 64 * (frameMapSize desc.numberOfPages).toNat) :
    PackedBits.get (usableBitmap bitmap map desc) map f
      = (decide (desc.numberOfPages.toNat ≤ f) || decide (desc.physicalStart = 0#64 ∧ f = 0)) := by
  have htail : (desc.numberOfPages % 64#64).toNat = desc.numberOfPages.toNat % 64 := by
    rw [BitVec.toNat_umod]
    rfl
  rw [frameMapSize_toNat hsmall] at hf
  have hpadded := get_padded bitmap map hf
  unfold usableBitmap
  simp only [frameMapSize_toNat hsmall, htail]
  -- the bitmap before frame 0 is looked at
  generalize (if desc.numberOfPages.toNat % 64 ≠ 0 then _ else _) = padded at hpadded ⊢
  by_cases h0 : desc.physicalStart = 0#64
  · have hset : Function.update padded map (padded map ||| 1#64) = PackedBits.set padded map 0 := rfl
    rw [if_pos h0, hset, PackedBits.get_set (by decide), hpadded, Bool.or_comm]
    simp [h0]
  · rw [if_neg h0, hpadded]
    simp [h0]

theorem usableBitmap_clear_iff (bitmap : Words 64) (map : Nat) (desc : EfiMemoryDescriptor)
    (hsmall : desc.numberOfPages.toNat ≤ 2 ^ 52) {f : Nat}
    (hf : f < 64 * (frameMapSize desc.numberOfPages).toNat) :
    PackedBits.get (usableBitmap bitmap map desc) map f = false ↔
      f < desc.numberOfPages.toNat ∧ ¬ (desc.physicalStart = 0#64 ∧ f = 0) := by
  rw [get_usableBitmap bitmap map desc hsmall hf, Bool.or_eq_false_iff,
    decide_eq_false_iff_not, decide_eq_false_iff_not, Nat.not_le]

/-- The number of clear bits is the `frames_free` that `build_pmm` stores. -/
theorem zeros_usableBitmap (bitmap : Words 64) (map : Nat) (desc : EfiMemoryDescriptor)
    (hpages : desc.numberOfPages ≠ 0#64) (hsmall : desc.numberOfPages.toNat ≤ 2 ^ 52) :
    zeros (usableBitmap bitmap map desc) map desc.numberOfPages.toNat
      = (if desc.physicalStart = 0#64 then desc.numberOfPages - 1#64
          else desc.numberOfPages).toNat := by
  have hwords := frameMapSize_toNat hsmall
  have hclear : ∀ f, f < desc.numberOfPages.toNat →
      (PackedBits.get (usableBitmap bitmap map desc) map f = false ↔
        ¬ (desc.physicalStart = 0#64 ∧ f = 0)) := by
    intro f hf
    rw [usableBitmap_clear_iff bitmap map desc hsmall (by omega)]
    exact and_iff_right hf
  have hpos := numberOfPages_pos hpages
  by_cases h0 : desc.physicalStart = 0#64
  · -- clearing bit 0 as well would leave all of them clear
    have hset : PackedBits.get (usableBitmap bitmap map desc) map 0 = true := by
      have := hclear 0 hpos
      cases hb : PackedBits.get (usableBitmap bitmap map desc) map 0 with
      | true => rfl
      | false => exact absurd ⟨h0, rfl⟩ (this.mp hb)
    have hall : zeros (PackedBits.reset (usableBitmap bitmap map desc) map 0) map
        desc.numberOfPages.toNat = desc.numberOfPages.toNat := by
      refine PackedBits.zeros_eq_self_iff.mpr fun f hf => ?_
      rw [PackedBits.get_reset (by decide)]
      by_cases hf0 : f = 0
      · simp [hf0]
      · rw [(hclear f hf).mpr fun h => hf0 h.2, Bool.and_false]
    rw [PackedBits.zeros_reset (by decide) hpos hset] at hall
    rw [if_pos h0, BitVec.toNat_sub]
    simp
    omega
  · rw [if_neg h0]
    exact PackedBits.zeros_eq_self_iff.mpr fun f hf => (hclear f hf).mpr fun h => h0 h.1

/-! ## One recorded descriptor -/

/-- The block recorded for a descriptor. -/
def EfiMemoryDescriptor.block (desc : EfiMemoryDescriptor) (framesFree : Word)
    (map : Option Nat) : PmBlock :=
  { address := desc.physicalStart, framesTotal := desc.numberOfPages, framesFree, map,
    type := pmTypeOf desc.type, attributes := desc.attr }

/-- What `build_pmm` does with a descriptor that gets a block. -/
inductive BuildState.Recorded (st : BuildState) (desc : EfiMemoryDescriptor) : BuildState → Prop
  /-- Its type needs no bitmap, or there are no words left for one. -/
  | bare (why : pmTypeOf desc.type ≠ .usable ∧ pmTypeOf desc.type ≠ .reclaimable ∨
        st.wordsLeft.toNat < (frameMapSize desc.numberOfPages).toNat) :
      Recorded st desc { st with blocks := st.blocks ++ [desc.block 0#64 none] }
  /-- PM_RECLAIMABLE: all frames used. -/
  | reclaimable (type : pmTypeOf desc.type = .reclaimable)
      (fits : (frameMapSize desc.numberOfPages).toNat ≤ st.wordsLeft.toNat) :
      Recorded st desc
        { blocks := st.blocks ++ [desc.block 0#64 (some st.nextMap)]
          bitmap := fillWords st.bitmap st.nextMap (~~~0#64)
            (frameMapSize desc.numberOfPages).toNat
          nextMap := st.nextMap + (frameMapSize desc.numberOfPages).toNat
          wordsLeft := st.wordsLeft - frameMapSize desc.numberOfPages }
  /-- PM_USABLE: all frames free but the padding, and frame 0 at address 0. -/
  | usable (type : pmTypeOf desc.type = .usable)
      (fits : (frameMapSize desc.numberOfPages).toNat ≤ st.wordsLeft.toNat) :
      Recorded st desc
        { blocks := st.blocks ++ [desc.block (if desc.physicalStart = 0#64
            then desc.numberOfPages - 1#64 else desc.numberOfPages) (some st.nextMap)]
          bitmap := usableBitmap st.bitmap st.nextMap desc
          nextMap := st.nextMap + (frameMapSize desc.numberOfPages).toNat
          wordsLeft := st.wordsLeft - frameMapSize desc.numberOfPages }

theorem addBlock_recorded (desc : EfiMemoryDescriptor) (st : BuildState) :
    st.Recorded desc (buildPmm.addBlock desc st) := by
  unfold buildPmm.addBlock
  simp only []
  split
  · next hother => exact .bare (.inl hother)
  · next hmanaged =>
      split
      · next hfull => exact .bare (.inr hfull)
      · next hroom =>
          have hfits : (frameMapSize desc.numberOfPages).toNat ≤ st.wordsLeft.toNat :=
            Nat.le_of_not_lt hroom
          split
          · next htype => exact .reclaimable htype hfits
          · next htype =>
              have husable : pmTypeOf desc.type = .usable := by
                by_contra h
                exact hmanaged ⟨h, htype⟩
              exact .usable husable hfits

/-! ## The loop invariant -/

/-- What `build_pmm` makes of one block. -/
structure PmBlock.Built (b : PmBlock) (bitmap : Words 64) : Prop where
  usable : b.map ≠ none → b.type = .usable → ∀ f, f < 64 * b.words →
    (b.used bitmap f = false ↔ f < b.framesTotal.toNat ∧ b.frame f ≠ 0#64)
  reclaimable : b.map ≠ none → b.type = .reclaimable → ∀ f, f < 64 * b.words →
    b.used bitmap f = true
  count : b.map ≠ none → b.framesFree.toNat = zeros bitmap b.base b.framesTotal.toNat
  unmanaged : b.map = none → b.framesFree = 0#64
  managedType : b.map ≠ none → b.type = .usable ∨ b.type = .reclaimable

/-- The four fields of a descriptor, and of a block, that the map determines. -/
def EfiMemoryDescriptor.fields (desc : EfiMemoryDescriptor) : Word × Word × PmType × Word :=
  (desc.physicalStart, desc.numberOfPages, pmTypeOf desc.type, desc.attr)

def PmBlock.fields (b : PmBlock) : Word × Word × PmType × Word :=
  (b.address, b.framesTotal, b.type, b.attributes)

/-- A descriptor's range is page aligned and inside the 64-bit address space. -/
structure EfiMemoryDescriptor.WellFormed (desc : EfiMemoryDescriptor) : Prop where
  aligned : 4096 ∣ desc.physicalStart.toNat
  nonWrapping : desc.physicalStart.toNat + desc.numberOfPages.toNat * 4096 ≤ 2 ^ 64

theorem EfiMemoryDescriptor.WellFormed.pages_le {desc : EfiMemoryDescriptor}
    (h : desc.WellFormed) : desc.numberOfPages.toNat ≤ 2 ^ 52 := by
  have := h.nonWrapping
  omega

/-- No frame address belongs to both descriptors. -/
def EfiMemoryDescriptor.Apart (d e : EfiMemoryDescriptor) : Prop :=
  d.physicalStart.toNat + d.numberOfPages.toNat * 4096 ≤ e.physicalStart.toNat ∨
  e.physicalStart.toNat + e.numberOfPages.toNat * 4096 ≤ d.physicalStart.toNat ∨
  d.numberOfPages = 0#64 ∨ e.numberOfPages = 0#64

/-- A memory map as the firmware reports it: page-aligned ranges that do not wrap
    and do not overlap. -/
structure MemoryMap where
  descs : List EfiMemoryDescriptor
  wellFormed : ∀ desc ∈ descs, desc.WellFormed
  apart : descs.Pairwise EfiMemoryDescriptor.Apart

/-- The invariant of `build_pmm`'s loop. -/
structure BuildInv (storage : PmmStorage) (st : BuildState) : Prop where
  cursor : st.nextMap + st.wordsLeft.toNat = storage.bitmapWords.toNat
  capacity : st.blocks.length ≤ storage.blockCapacity.toNat
  slice : ∀ b ∈ st.blocks, b.map ≠ none → b.base + b.words ≤ st.nextMap
  mapApart : st.blocks.Pairwise PmBlock.MapApart
  built : ∀ b ∈ st.blocks, b.Built st.bitmap
  nonWrapping : ∀ b ∈ st.blocks, b.NonWrapping
  untouched : ∀ i, st.nextMap ≤ i → st.bitmap i = storage.bitmap i

/-- A block's bits survive writes outside its words. -/
theorem PmBlock.Built.congr {b : PmBlock} {bitmap bitmap' : Words 64} (h : b.Built bitmap)
    (hw : b.NonWrapping)
    (hbits : b.map ≠ none → ∀ f, f < 64 * b.words → b.used bitmap' f = b.used bitmap f) :
    b.Built bitmap' := by
  refine ⟨?_, ?_, ?_, h.unmanaged, h.managedType⟩
  · intro hmap hty f hf
    rw [hbits hmap f hf]
    exact h.usable hmap hty f hf
  · intro hmap hty f hf
    rw [hbits hmap f hf]
    exact h.reclaimable hmap hty f hf
  · intro hmap
    rw [h.count hmap]
    refine (PackedBits.zeros_congr fun f hf => hbits hmap f ?_).symm
    have := PmBlock.words_eq hw
    omega

/-- The bits `build_pmm` leaves satisfy the allocator's block invariant. -/
theorem PmBlock.Built.ok {b : PmBlock} {bitmap : Words 64} (h : b.Built bitmap) :
    b.Ok bitmap := by
  refine ⟨h.unmanaged, h.count, fun hmap f hge hlt => ?_⟩
  rcases h.managedType hmap with hty | hty
  · cases hu : b.used bitmap f with
    | true => rfl
    | false =>
        have := ((h.usable hmap hty f hlt).mp hu).1
        omega
  · exact h.reclaimable hmap hty f hlt

section Step

variable {storage : PmmStorage} {st : BuildState} (hinv : BuildInv storage st)
  {desc : EfiMemoryDescriptor} (hwf : desc.WellFormed) (hpages : desc.numberOfPages ≠ 0#64)
  (hcap : BitVec.ofNat 64 st.blocks.length ≠ storage.blockCapacity)

include hinv hcap

theorem BuildInv.room : st.blocks.length < storage.blockCapacity.toNat := by
  have hlen := hinv.capacity
  have hlt := storage.blockCapacity.isLt
  rcases Nat.lt_or_ge st.blocks.length storage.blockCapacity.toNat with h | h
  · exact h
  · refine absurd (BitVec.eq_of_toNat_eq ?_) hcap
    rw [toNat_ofNat_of_lt (by omega)]
    omega

/-- Recording a block keeps the invariant when its bitmap, if any, is the slice
    between the old and the new cursor. -/
theorem BuildInv.push {b : PmBlock} {bitmap' : Words 64} {nextMap' : Nat} {wordsLeft' : Word}
    (hcursor : nextMap' + wordsLeft'.toNat = storage.bitmapWords.toNat)
    (hnext : st.nextMap ≤ nextMap')
    (hmap : b.map ≠ none → b.base = st.nextMap ∧ b.base + b.words = nextMap')
    (hagree : AgreeOff st.bitmap bitmap' st.nextMap (nextMap' - st.nextMap))
    (hb : b.Built bitmap') (hw : b.NonWrapping) :
    BuildInv storage
      { blocks := st.blocks ++ [b], bitmap := bitmap', nextMap := nextMap',
        wordsLeft := wordsLeft' } := by
  have hroom := hinv.room hcap
  -- each field of the invariant for the new block and for those before it
  refine ⟨hcursor, ?_, ?_, ?_, ?_, ?_, ?_⟩
  · simp only [List.length_append, List.length_singleton]
    omega
  · intro c hc hcmap
    rcases List.mem_append.mp hc with hc | hc
    · have := hinv.slice c hc hcmap
      show c.base + c.words ≤ nextMap'
      omega
    · rw [List.mem_singleton.mp hc] at hcmap ⊢
      exact Nat.le_of_eq (hmap hcmap).2
  · rw [List.pairwise_append]
    refine ⟨hinv.mapApart, List.pairwise_singleton _ _, ?_⟩
    intro c hc d hd hcmap hdmap
    rw [List.mem_singleton.mp hd] at hdmap ⊢
    have := hinv.slice c hc hcmap
    have := (hmap hdmap).1
    omega
  · intro c hc
    rcases List.mem_append.mp hc with hc | hc
    · -- its bitmap lies below the cursor, where nothing changed
      refine (hinv.built c hc).congr (hinv.nonWrapping c hc) fun hcmap f hf => ?_
      have := hinv.slice c hc hcmap
      exact hagree.get_eq (by omega)
    · rw [List.mem_singleton.mp hc]
      exact hb
  · intro c hc
    rcases List.mem_append.mp hc with hc | hc
    · exact hinv.nonWrapping c hc
    · rw [List.mem_singleton.mp hc]
      exact hw
  · intro i hi
    have hge : nextMap' ≤ i := hi
    exact (hagree i (by omega)).trans (hinv.untouched i (by omega))

omit hinv hcap in
include hwf hpages in
theorem frameMapSize_pos : 0 < (frameMapSize desc.numberOfPages).toNat := by
  have hpos := numberOfPages_pos hpages
  rw [frameMapSize_toNat hwf.pages_le]
  omega

omit hinv hwf hpages hcap in
/-- A block without a bitmap promises nothing. -/
theorem built_bare (bitmap : Words 64) : (desc.block 0#64 none).Built bitmap where
  usable h := absurd rfl h
  reclaimable h := absurd rfl h
  count h := absurd rfl h
  unmanaged _ := rfl
  managedType h := absurd rfl h

omit hinv hpages hcap in
include hwf in
theorem built_reclaimable (bitmap : Words 64) (map : Nat)
    (htype : pmTypeOf desc.type = .reclaimable) :
    (desc.block 0#64 (some map)).Built
      (fillWords bitmap map (~~~0#64) (frameMapSize desc.numberOfPages).toNat) where
  usable _ hu := by
    rw [show pmTypeOf desc.type = .usable from hu] at htype
    cases htype
  reclaimable _ _ _ hf := get_fillWords_ones _ _ hf
  count _ := by
    symm
    refine PackedBits.zeros_eq_zero_iff.mpr fun f hf => get_fillWords_ones _ _ ?_
    have hlt : f < desc.numberOfPages.toNat := hf
    have := frameMapSize_toNat hwf.pages_le
    omega
  unmanaged h := by cases h
  managedType _ := .inr htype

omit hinv hcap in
include hwf hpages in
theorem built_usable (bitmap : Words 64) (map : Nat) (htype : pmTypeOf desc.type = .usable) :
    (desc.block (if desc.physicalStart = 0#64 then desc.numberOfPages - 1#64
      else desc.numberOfPages) (some map)).Built (usableBitmap bitmap map desc) where
  usable _ _ f hf := by
    refine (usableBitmap_clear_iff _ _ _ hwf.pages_le hf).trans ?_
    refine and_congr_right fun hlt => not_congr ?_
    exact (PmBlock.frame_eq_zero_iff (b := desc.block _ (some map)) hwf.nonWrapping hlt).symm
  reclaimable _ hr := by
    rw [show pmTypeOf desc.type = .reclaimable from hr] at htype
    cases htype
  count _ := (zeros_usableBitmap _ _ _ hpages hwf.pages_le).symm
  unmanaged h := by cases h
  managedType _ := .inl htype

omit hcap in
/-- The words taken and the words left are all there were. -/
theorem BuildInv.cursor_next
    (fits : (frameMapSize desc.numberOfPages).toNat ≤ st.wordsLeft.toNat) :
    st.nextMap + (frameMapSize desc.numberOfPages).toNat
      + (st.wordsLeft - frameMapSize desc.numberOfPages).toNat = storage.bitmapWords.toNat := by
  have := hinv.cursor
  rw [BitVec.toNat_sub_of_le fits]
  omega

include hwf hpages

/-- One step of `build_pmm`'s loop. -/
theorem BuildInv.addBlock : BuildInv storage (buildPmm.addBlock desc st) := by
  have hrecorded := addBlock_recorded desc st
  generalize buildPmm.addBlock desc st = st' at hrecorded ⊢
  cases hrecorded with
  | bare why =>
      exact hinv.push hcap hinv.cursor (Nat.le_refl _) (fun h => absurd rfl h)
        (PackedBits.agreeOff_refl _ _ _) (built_bare _) hwf.nonWrapping
  | reclaimable type fits =>
      refine hinv.push hcap (hinv.cursor_next fits) (Nat.le_add_right _ _) (fun _ => ⟨rfl, rfl⟩) ?_
        (built_reclaimable hwf _ _ type) hwf.nonWrapping
      rw [Nat.add_sub_cancel_left]
      exact agreeOff_fillWords _ _ _ _
  | usable type fits =>
      refine hinv.push hcap (hinv.cursor_next fits) (Nat.le_add_right _ _) (fun _ => ⟨rfl, rfl⟩) ?_
        (built_usable hwf hpages _ _ type) hwf.nonWrapping
      rw [Nat.add_sub_cancel_left]
      exact agreeOff_usableBitmap _ _ _ (frameMapSize_pos hwf hpages)

end Step

theorem addBlock_fields (desc : EfiMemoryDescriptor) (st : BuildState) :
    (buildPmm.addBlock desc st).blocks.map PmBlock.fields
      = st.blocks.map PmBlock.fields ++ [desc.fields] := by
  have hrecorded := addBlock_recorded desc st
  generalize buildPmm.addBlock desc st = st' at hrecorded ⊢
  cases hrecorded <;> exact List.map_append

theorem BuildInv.loop {storage : PmmStorage} {mmap : List EfiMemoryDescriptor}
    (hwf : ∀ desc ∈ mmap, desc.WellFormed) {st : BuildState} (hinv : BuildInv storage st) :
    BuildInv storage (buildPmm.loop storage.blockCapacity mmap st) := by
  induction mmap generalizing st with
  | nil => exact hinv
  | cons desc mmap ih =>
      have hrest : ∀ d ∈ mmap, d.WellFormed := fun d hd => hwf d (List.mem_cons_of_mem _ hd)
      rw [buildPmm.loop]
      split
      · -- a descriptor without pages is skipped
        exact ih hrest hinv
      · next hpages =>
          split
          · -- the block array is full
            exact hinv
          · next hcap =>
              exact ih hrest (hinv.addBlock (hwf desc List.mem_cons_self) hpages hcap)

/-- The blocks the loop adds are, in order, the first descriptors with pages. -/
theorem loop_fields (capacity : Word) (mmap : List EfiMemoryDescriptor) (st : BuildState) :
    ∃ added, added <+: mmap.filter (fun desc => desc.numberOfPages ≠ 0#64) ∧
      (buildPmm.loop capacity mmap st).blocks.map PmBlock.fields
        = st.blocks.map PmBlock.fields ++ added.map EfiMemoryDescriptor.fields := by
  induction mmap generalizing st with
  | nil => exact ⟨[], List.prefix_refl _, by simp [buildPmm.loop]⟩
  | cons desc mmap ih =>
      rw [buildPmm.loop]
      split
      · next hzero =>
          obtain ⟨added, hpre, hfields⟩ := ih st
          refine ⟨added, ?_, hfields⟩
          rw [List.filter_cons_of_neg (by simpa using hzero)]
          exact hpre
      · next hpages =>
          rw [List.filter_cons_of_pos (by simpa using hpages)]
          split
          · exact ⟨[], List.nil_prefix, by simp⟩
          · obtain ⟨added, hpre, hfields⟩ := ih (buildPmm.addBlock desc st)
            refine ⟨desc :: added, List.cons_prefix_cons.mpr ⟨rfl, hpre⟩, ?_⟩
            rw [hfields, addBlock_fields]
            simp

/-! ## The built pmm -/

section Built

variable (storage : PmmStorage) (mmap : List EfiMemoryDescriptor)
  (hwf : ∀ desc ∈ mmap, desc.WellFormed)

include hwf

theorem buildPmm_buildInv :
    BuildInv storage (buildPmm.loop storage.blockCapacity mmap
      { blocks := [], bitmap := storage.bitmap, nextMap := 0,
        wordsLeft := storage.bitmapWords }) := by
  refine BuildInv.loop hwf
    ⟨Nat.zero_add _, Nat.zero_le _, ?_, List.Pairwise.nil, ?_, ?_, fun _ _ => rfl⟩
  · intro b hb
    cases hb
  · intro b hb
    cases hb
  · intro b hb
    cases hb

omit hwf in
theorem buildPmm_fields : ∃ recorded,
    recorded <+: mmap.filter (fun desc => desc.numberOfPages ≠ 0#64) ∧
    (buildPmm storage mmap).blocks.map PmBlock.fields
      = recorded.map EfiMemoryDescriptor.fields := by
  obtain ⟨added, hpre, hfields⟩ := loop_fields storage.blockCapacity mmap
    { blocks := [], bitmap := storage.bitmap, nextMap := 0, wordsLeft := storage.bitmapWords }
  exact ⟨added, hpre, hfields⟩

omit hwf in
/-- Every block comes from a descriptor of the map. -/
theorem exists_desc_of_mem_buildPmm {b : PmBlock} (hb : b ∈ (buildPmm storage mmap).blocks) :
    ∃ desc ∈ mmap, b.fields = desc.fields := by
  obtain ⟨recorded, hpre, hfields⟩ := buildPmm_fields storage mmap
  have hmem : b.fields ∈ recorded.map EfiMemoryDescriptor.fields := by
    rw [← hfields]
    exact List.mem_map_of_mem hb
  obtain ⟨desc, hdesc, heq⟩ := List.mem_map.mp hmem
  exact ⟨desc, (List.mem_filter.mp (hpre.subset hdesc)).1, heq.symm⟩

theorem buildPmm_built {b : PmBlock} (hb : b ∈ (buildPmm storage mmap).blocks) :
    b.Built (buildPmm storage mmap).bitmap ∧ b.NonWrapping :=
  ⟨(buildPmm_buildInv storage _ hwf).built b hb, (buildPmm_buildInv storage _ hwf).nonWrapping b hb⟩

end Built

/-- The pmm built from a firmware map satisfies the allocator's invariant. -/
theorem buildPmm_inv (storage : PmmStorage) (mmap : MemoryMap) :
    (buildPmm storage mmap.descs).Inv := by
  have hinv := buildPmm_buildInv storage _ mmap.wellFormed
  refine ⟨hinv.nonWrapping, ?_, hinv.mapApart, fun b hb => (hinv.built b hb).ok⟩
  obtain ⟨recorded, hpre, hfields⟩ := buildPmm_fields storage mmap.descs
  -- apartness only reads the fields the two sides share
  let R : Word × Word × PmType × Word → Word × Word × PmType × Word → Prop := fun x y =>
    x.1.toNat + x.2.1.toNat * 4096 ≤ y.1.toNat ∨
    y.1.toNat + y.2.1.toNat * 4096 ≤ x.1.toNat ∨ x.2.1 = 0#64 ∨ y.2.1 = 0#64
  have hrec : recorded.Pairwise EfiMemoryDescriptor.Apart :=
    mmap.apart.sublist (hpre.sublist.trans List.filter_sublist)
  have h : (recorded.map EfiMemoryDescriptor.fields).Pairwise R :=
    List.pairwise_map.mpr hrec
  rw [← hfields] at h
  have happart : (buildPmm storage mmap.descs).blocks.Pairwise
      (fun b c => R b.fields c.fields) := List.pairwise_map.mp h
  exact happart

/-- `build_pmm` on any map and any storage: at most `block_capacity` blocks, the
    bitmaps inside the storage and disjoint and nothing written past it, the bits
    and counters of each kind of block, and the blocks a prefix of the descriptors
    with pages. -/
theorem buildPmm_establishes_invariant (storage : PmmStorage)
    {mmap : List EfiMemoryDescriptor} (hwf : ∀ desc ∈ mmap, desc.WellFormed) :
    let pm := buildPmm storage mmap
    pm.blocks.length ≤ storage.blockCapacity.toNat ∧
    (∀ b ∈ pm.blocks, b.map ≠ none → b.base + b.words ≤ storage.bitmapWords.toNat) ∧
    pm.blocks.Pairwise PmBlock.MapApart ∧
    (∀ i, storage.bitmapWords.toNat ≤ i → pm.bitmap i = storage.bitmap i) ∧
    (∀ b ∈ pm.blocks, b.map ≠ none → b.type = .usable →
      (∀ f, f < 64 * b.words →
        (b.used pm.bitmap f = false ↔ f < b.framesTotal.toNat ∧ b.frame f ≠ 0#64)) ∧
      b.framesFree.toNat = zeros pm.bitmap b.base b.framesTotal.toNat) ∧
    (∀ b ∈ pm.blocks, b.map ≠ none → b.type = .reclaimable →
      (∀ f, f < 64 * b.words → b.used pm.bitmap f = true) ∧ b.framesFree = 0#64) ∧
    (∀ b ∈ pm.blocks, b.map = none → b.framesFree = 0#64) ∧
    (∀ b ∈ pm.blocks, b.type ≠ .usable → b.type ≠ .reclaimable → b.map = none) ∧
    ∃ recorded, recorded <+: mmap.filter (fun desc => desc.numberOfPages ≠ 0#64) ∧
      pm.blocks.map PmBlock.fields = recorded.map EfiMemoryDescriptor.fields := by
  have hinv := buildPmm_buildInv storage _ hwf
  refine ⟨hinv.capacity, ?_, hinv.mapApart, ?_, ?_, ?_, ?_, ?_, ?_⟩
  · intro b hb hmap
    have := hinv.slice b hb hmap
    have := hinv.cursor
    omega
  · intro i hi
    have := hinv.cursor
    exact hinv.untouched i (by omega)
  · intro b hb hmap hty
    exact ⟨(hinv.built b hb).usable hmap hty, (hinv.built b hb).count hmap⟩
  -- all bits of a reclaimable block are set, so it counts no free frame
  · intro b hb hmap hty
    have hones := (hinv.built b hb).reclaimable hmap hty
    refine ⟨hones, BitVec.eq_of_toNat_eq ?_⟩
    rw [(hinv.built b hb).count hmap]
    refine PackedBits.zeros_eq_zero_iff.mpr fun f hf => hones f ?_
    have := PmBlock.words_eq (hinv.nonWrapping b hb)
    omega
  · intro b hb hmap
    exact (hinv.built b hb).unmanaged hmap
  · intro b hb hu hr
    by_contra hmap
    rcases (hinv.built b hb).managedType hmap with h | h
    · exact hu h
    · exact hr h
  · exact buildPmm_fields storage mmap

/-- Three pages of conventional memory at 0x1000. -/
def threePages : EfiMemoryDescriptor :=
  { type := .conventionalMemory, physicalStart := 0x1000#64, numberOfPages := 3#64, attr := 0#64 }

theorem threePages_wellFormed : ∀ desc ∈ [threePages], desc.WellFormed := by
  intro desc hdesc
  rw [List.mem_singleton.mp hdesc]
  exact ⟨by decide, by decide⟩

/-- Three usable pages, two of the boot services, a page of devices, no page at all, 130
    usable pages and one more. -/
def mixedPages : List EfiMemoryDescriptor :=
  [threePages,
    { type := .bootServicesData, physicalStart := 0x8000#64, numberOfPages := 2#64, attr := 0#64 },
    { type := .memoryMappedIo, physicalStart := 0xFEC00000#64, numberOfPages := 1#64, attr := 0#64 },
    { type := .conventionalMemory, physicalStart := 0xA000#64, numberOfPages := 0#64, attr := 0#64 },
    { type := .conventionalMemory, physicalStart := 0x100000#64, numberOfPages := 130#64,
      attr := 0#64 },
    { type := .conventionalMemory, physicalStart := 0x200000#64, numberOfPages := 1#64,
      attr := 0#64 }]

theorem mixedPages_wellFormed : ∀ desc ∈ mixedPages, desc.WellFormed := by
  have hall : ∀ desc ∈ mixedPages, 4096 ∣ desc.physicalStart.toNat ∧
      desc.physicalStart.toNat + desc.numberOfPages.toNat * 4096 ≤ 2 ^ 64 := by
    decide
  exact fun desc hdesc => ⟨(hall desc hdesc).1, (hall desc hdesc).2⟩

/-- The pmm of these pages in a storage of four blocks and three bitmap words. -/
def mixedPmm : Pmm := buildPmm ⟨4#64, 3#64, fun _ => 0#64⟩ mixedPages

/-- The words run out at the 130 pages, which are recorded but not managed, and the blocks
    at the last page.  Three frames are free, and all other bits of the two bitmaps are
    set. -/
theorem buildPmm_establishes_invariant_mixed :
    mixedPmm.blocks.map PmBlock.map = [some 0, some 1, none, none] ∧
    (∀ b ∈ mixedPmm.blocks, b.map ≠ none → b.base + b.words ≤ 3) ∧
    (∀ b ∈ mixedPmm.blocks, b.map ≠ none → b.type = .usable →
      ∀ f, f < 64 * b.words →
        (b.used mixedPmm.bitmap f = false ↔ f < b.framesTotal.toNat ∧ b.frame f ≠ 0#64)) ∧
    (∀ b ∈ mixedPmm.blocks, b.map ≠ none → b.type = .reclaimable →
      ∀ f, f < 64 * b.words → b.used mixedPmm.bitmap f = true) ∧
    mixedPmm.blocks.map PmBlock.framesFree = [3#64, 0#64, 0#64, 0#64] ∧
    ∃ recorded, recorded <+: mixedPages.filter (fun desc => desc.numberOfPages ≠ 0#64) ∧
      mixedPmm.blocks.map PmBlock.fields = recorded.map EfiMemoryDescriptor.fields := by
  obtain ⟨_, hslice, _, _, husable, hreclaimable, _, _, hrecorded⟩ :=
    buildPmm_establishes_invariant ⟨4#64, 3#64, fun _ => 0#64⟩ mixedPages_wellFormed
  exact ⟨by decide, hslice, fun b hb hmap hty => (husable b hb hmap hty).1,
    fun b hb hmap hty => (hreclaimable b hb hmap hty).1, by decide, hrecorded⟩

end EchOS
