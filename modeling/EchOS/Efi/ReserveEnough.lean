/-
  EchOS.Efi.ReserveEnough

  The storage `reserve_pmm` sizes from the provisional memory map is enough for
  the final one.

  The block slots are counted with a slack, and the bitmap words rest on a
  rounding bound: the words of all blocks together are at most one floor division
  of their frames plus one word a block.  `build_pmm` then always finds room, so
  its loop records every descriptor with pages (`RoomInv`).  Descriptors are
  arbitrary here: they need not be aligned, and they may overlap.
-/
import EchOS.Efi.ReservePmm
import EchOS.Efi.PmmInvariant
import EchOS.Lib.Regions

namespace EchOS

open PackedBits (Words AgreeOff)
open Regions (Region carve)

/-! ## What a memory map adds up to -/

/-- The descriptors with pages. -/
def withPages (mmap : List EfiMemoryDescriptor) : List EfiMemoryDescriptor :=
  mmap.filter fun desc => desc.numberOfPages ≠ 0#64

/-- The pages of all descriptors. -/
def totalPages (mmap : List EfiMemoryDescriptor) : Nat :=
  (mmap.map fun desc => desc.numberOfPages.toNat).sum

/-- The pages of the five RAM types. -/
def ramPages (mmap : List EfiMemoryDescriptor) : Nat :=
  totalPages (mmap.filter fun desc => isRamType desc.type)

/-- The bitmap words that the blocks of a map need. -/
def ramWords (mmap : List EfiMemoryDescriptor) : Nat :=
  ((mmap.filter fun desc => isRamType desc.type).map
    fun desc => (desc.numberOfPages.toNat + 63) / 64).sum

/-- `is_ram_type` and the switch of `build_pmm` agree on which types get a bitmap. -/
theorem isRamType_iff (type : EfiMemoryType) :
    isRamType type = true ↔ pmTypeOf type = .usable ∨ pmTypeOf type = .reclaimable := by
  cases type <;> simp [isRamType, pmTypeOf]

theorem totalPages_cons (desc : EfiMemoryDescriptor) (mmap : List EfiMemoryDescriptor) :
    totalPages (desc :: mmap) = desc.numberOfPages.toNat + totalPages mmap := by
  simp [totalPages]

theorem ramPages_cons (desc : EfiMemoryDescriptor) (mmap : List EfiMemoryDescriptor) :
    ramPages (desc :: mmap)
      = (if isRamType desc.type then desc.numberOfPages.toNat else 0) + ramPages mmap := by
  unfold ramPages
  by_cases h : isRamType desc.type <;> simp [h, totalPages_cons]

theorem ramWords_cons (desc : EfiMemoryDescriptor) (mmap : List EfiMemoryDescriptor) :
    ramWords (desc :: mmap)
      = (if isRamType desc.type then (desc.numberOfPages.toNat + 63) / 64 else 0)
        + ramWords mmap := by
  unfold ramWords
  by_cases h : isRamType desc.type <;> simp [h]

theorem withPages_length_cons (desc : EfiMemoryDescriptor) (mmap : List EfiMemoryDescriptor) :
    (withPages (desc :: mmap)).length
      = (if desc.numberOfPages ≠ 0#64 then 1 else 0) + (withPages mmap).length := by
  unfold withPages
  by_cases h : desc.numberOfPages = 0#64
  · simp [h]
  · simp [h, Nat.add_comm]

theorem ramPages_le_totalPages (mmap : List EfiMemoryDescriptor) :
    ramPages mmap ≤ totalPages mmap := by
  induction mmap with
  | nil => exact Nat.le_refl _
  | cons desc mmap ih =>
      rw [ramPages_cons, totalPages_cons]
      split <;> omega

/-- A descriptor with pages has at least one. -/
theorem withPages_length_le (mmap : List EfiMemoryDescriptor) :
    (withPages mmap).length ≤ totalPages mmap := by
  induction mmap with
  | nil => exact Nat.le_refl _
  | cons desc mmap ih =>
      rw [withPages_length_cons, totalPages_cons]
      split
      · next h =>
          have := numberOfPages_pos h
          omega
      · omega

theorem pages_le_ramPages {mmap : List EfiMemoryDescriptor} {desc : EfiMemoryDescriptor}
    (h : desc ∈ mmap) (hram : isRamType desc.type = true) :
    desc.numberOfPages.toNat ≤ ramPages mmap := by
  induction mmap with
  | nil => cases h
  | cons d mmap ih =>
      rw [ramPages_cons]
      rcases List.mem_cons.mp h with rfl | h
      · rw [if_pos hram]
        exact Nat.le_add_right _ _
      · exact Nat.le_trans (ih h) (Nat.le_add_left _ _)

/-- The rounding bound: each block wastes at most one partial word. -/
theorem ramWords_le (mmap : List EfiMemoryDescriptor) :
    ramWords mmap ≤ ramPages mmap / 64 + (withPages mmap).length := by
  induction mmap with
  | nil => exact Nat.le_refl _
  | cons desc mmap ih =>
      rw [ramWords_cons, ramPages_cons, withPages_length_cons]
      by_cases hram : isRamType desc.type = true
      · rw [if_pos hram, if_pos hram]
        split
        · omega
        · next h =>
            have h0 : desc.numberOfPages = 0#64 := not_not.mp h
            rw [h0]
            simpa using ih
      · rw [if_neg hram, if_neg hram, Nat.zero_add, Nat.zero_add]
        omega

/-- The scan of the provisional map, as long as its totals are words. -/
theorem scan_eq (mmap : List EfiMemoryDescriptor) (blockCount ramFrames : Word) :
    reservePmm.scan mmap blockCount ramFrames
      = (blockCount + BitVec.ofNat 64 (withPages mmap).length,
         ramFrames + BitVec.ofNat 64 (ramPages mmap)) := by
  induction mmap generalizing blockCount ramFrames with
  | nil => simp [reservePmm.scan, withPages, ramPages, totalPages]
  | cons desc mmap ih =>
      rw [reservePmm.scan, ih, withPages_length_cons, ramPages_cons]
      refine Prod.ext ?_ ?_
      · by_cases h : desc.numberOfPages = 0#64
        · simp [h]
        · simp [h, BitVec.ofNat_add, BitVec.add_assoc]
      · by_cases h : isRamType desc.type
        · simp [h, BitVec.ofNat_add, BitVec.add_assoc]
        · simp [h]

/-! ## `build_pmm` with room for every descriptor -/

/-- What one recorded descriptor does to the state: it gets no bitmap because of
    its type or for want of words, or it gets the next words. -/
theorem addBlock_cases {desc : EfiMemoryDescriptor} (st : BuildState)
    (hpages : desc.numberOfPages ≠ 0#64)
    (hsmall : isRamType desc.type = true → desc.numberOfPages.toNat < 2 ^ 52) :
    ∃ b : PmBlock, b.fields = desc.fields ∧
    ((b.map = none ∧ buildPmm.addBlock desc st = { st with blocks := st.blocks ++ [b] } ∧
        (isRamType desc.type = true →
          st.wordsLeft.toNat < (desc.numberOfPages.toNat + 63) / 64)) ∨
     (isRamType desc.type = true ∧ b.map = some st.nextMap ∧
        b.words = (desc.numberOfPages.toNat + 63) / 64 ∧ b.words ≤ st.wordsLeft.toNat ∧
        ∃ bitmap' wordsLeft', AgreeOff st.bitmap bitmap' st.nextMap b.words ∧
          wordsLeft'.toNat + b.words = st.wordsLeft.toNat ∧
          buildPmm.addBlock desc st
            = ⟨st.blocks ++ [b], bitmap', st.nextMap + b.words, wordsLeft'⟩)) := by
  have hpos := numberOfPages_pos hpages
  have hwords : isRamType desc.type = true →
      (frameMapSize desc.numberOfPages).toNat = (desc.numberOfPages.toNat + 63) / 64 :=
    fun hram => frameMapSize_toNat (Nat.le_of_lt (hsmall hram))
  have hrecorded := addBlock_recorded desc st
  generalize buildPmm.addBlock desc st = st' at hrecorded ⊢
  cases hrecorded with
  | bare why =>
      refine ⟨desc.block 0#64 none, rfl, .inl ⟨rfl, rfl, fun hram => ?_⟩⟩
      rcases why with hother | hfull
      · exact absurd ((isRamType_iff _).mp hram) fun h => h.elim hother.1 hother.2
      · rw [← hwords hram]
        exact hfull
  | reclaimable type fits =>
      have hram := (isRamType_iff _).mpr (.inr type)
      refine ⟨desc.block 0#64 (some st.nextMap), rfl,
        .inr ⟨hram, rfl, hwords hram, fits, _, _, agreeOff_fillWords _ _ _ _, ?_, rfl⟩⟩
      rw [BitVec.toNat_sub_of_le fits]
      exact Nat.sub_add_cancel fits
  | usable type fits =>
      have hram := (isRamType_iff _).mpr (.inl type)
      have hpositive : 0 < (frameMapSize desc.numberOfPages).toNat := by
        rw [hwords hram]
        omega
      refine ⟨desc.block _ (some st.nextMap), rfl,
        .inr ⟨hram, rfl, hwords hram, fits, _, _, agreeOff_usableBitmap _ _ _ hpositive, ?_, rfl⟩⟩
      rw [BitVec.toNat_sub_of_le fits]
      exact Nat.sub_add_cancel fits

/-- The bitmap of `b` ends before that of `c`. -/
def PmBlock.MapBefore (b c : PmBlock) : Prop :=
  b.map ≠ none → c.map ≠ none → b.base + b.words ≤ c.base

/-- The invariant of the loop when there is room for everything: the bitmaps
    recorded so far follow each other and end before the cursor, no RAM block went without
    one, and no other word was written. -/
structure RoomInv (storage : PmmStorage) (st : BuildState) : Prop where
  cursor : st.nextMap + st.wordsLeft.toNat = storage.bitmapWords.toNat
  slice : ∀ b ∈ st.blocks, b.map ≠ none → b.base + b.words ≤ st.nextMap
  mapOrder : st.blocks.Pairwise PmBlock.MapBefore
  managed : ∀ b ∈ st.blocks, b.type = .usable ∨ b.type = .reclaimable → b.map ≠ none
  untouched : ∀ i, (∀ b ∈ st.blocks, b.map ≠ none → i < b.base ∨ b.base + b.words ≤ i) →
    st.bitmap i = storage.bitmap i

section Room

variable {storage : PmmStorage} {st : BuildState}

/-- A block without a bitmap, of a type that needs none. -/
theorem RoomInv.push_bare (hinv : RoomInv storage st) {b : PmBlock} (hnone : b.map = none)
    (htype : ¬ (b.type = .usable ∨ b.type = .reclaimable)) :
    RoomInv storage { st with blocks := st.blocks ++ [b] } := by
  refine ⟨hinv.cursor, ?_, ?_, ?_, ?_⟩
  · intro c hc hcmap
    rcases List.mem_append.mp hc with hc | hc
    · exact hinv.slice c hc hcmap
    · exact absurd (List.mem_singleton.mp hc ▸ hnone) hcmap
  · refine List.pairwise_append.mpr ⟨hinv.mapOrder, List.pairwise_singleton _ _, ?_⟩
    intro c _ d hd _ hdmap
    exact absurd (List.mem_singleton.mp hd ▸ hnone) hdmap
  · intro c hc hctype
    rcases List.mem_append.mp hc with hc | hc
    · exact hinv.managed c hc hctype
    · rw [List.mem_singleton.mp hc] at hctype
      exact absurd hctype htype
  · intro i hi
    exact hinv.untouched i fun c hc => hi c (List.mem_append_left _ hc)

/-- A block whose bitmap is the next words. -/
theorem RoomInv.push_next (hinv : RoomInv storage st) {b : PmBlock} {bitmap' : Words 64}
    {wordsLeft' : Word} (hsome : b.map = some st.nextMap)
    (hagree : AgreeOff st.bitmap bitmap' st.nextMap b.words)
    (hleft : wordsLeft'.toNat + b.words = st.wordsLeft.toNat) :
    RoomInv storage ⟨st.blocks ++ [b], bitmap', st.nextMap + b.words, wordsLeft'⟩ := by
  have hbase : b.base = st.nextMap := by rw [PmBlock.base, hsome]; rfl
  have hmap : b.map ≠ none := by rw [hsome]; exact Option.some_ne_none _
  refine ⟨?_, ?_, ?_, ?_, ?_⟩
  · have := hinv.cursor
    simp only []
    omega
  · intro c hc hcmap
    simp only []
    rcases List.mem_append.mp hc with hc | hc
    · have := hinv.slice c hc hcmap
      omega
    · rw [List.mem_singleton.mp hc, hbase]
  · refine List.pairwise_append.mpr ⟨hinv.mapOrder, List.pairwise_singleton _ _, ?_⟩
    intro c hc d hd hcmap _
    have := hinv.slice c hc hcmap
    rw [List.mem_singleton.mp hd, hbase]
    exact this
  · intro c hc htype
    rcases List.mem_append.mp hc with hc | hc
    · exact hinv.managed c hc htype
    · rw [List.mem_singleton.mp hc]
      exact hmap
  · -- a word outside all bitmaps is outside the new one too
    intro i hi
    have hnew := hi b (List.mem_append_right _ (List.mem_singleton.mpr rfl)) hmap
    rw [hbase] at hnew
    exact (hagree i (by omega)).trans
      (hinv.untouched i fun c hc => hi c (List.mem_append_left _ hc))

theorem RoomInv.addBlock (hinv : RoomInv storage st) {desc : EfiMemoryDescriptor}
    (hpages : desc.numberOfPages ≠ 0#64)
    (hsmall : isRamType desc.type = true → desc.numberOfPages.toNat < 2 ^ 52)
    (hroom : isRamType desc.type = true →
      (desc.numberOfPages.toNat + 63) / 64 ≤ st.wordsLeft.toNat) :
    RoomInv storage (buildPmm.addBlock desc st) ∧
    ∃ b : PmBlock, b.fields = desc.fields ∧
      (buildPmm.addBlock desc st).blocks = st.blocks ++ [b] ∧
      (buildPmm.addBlock desc st).wordsLeft.toNat
        + (if isRamType desc.type then (desc.numberOfPages.toNat + 63) / 64 else 0)
        = st.wordsLeft.toNat := by
  obtain ⟨b, hfields, ⟨hnone, heq, hfull⟩ |
    ⟨hram, hsome, hwords, hle, bitmap', wordsLeft', hagree, hleft, heq⟩⟩ :=
    addBlock_cases st hpages hsmall
  · -- there is room for every RAM block, so this one is of another type
    have hram : ¬ isRamType desc.type = true := fun h => by
      have := hroom h
      have := hfull h
      omega
    have hty : b.type = pmTypeOf desc.type := congrArg (fun x => x.2.2.1) hfields
    have htype : ¬ (b.type = .usable ∨ b.type = .reclaimable) := by
      rw [hty]
      exact mt (isRamType_iff _).mpr hram
    rw [heq, if_neg hram]
    exact ⟨hinv.push_bare hnone htype, b, hfields, rfl, rfl⟩
  · rw [heq, if_pos hram, ← hwords]
    exact ⟨hinv.push_next hsome hagree hleft, b, hfields, rfl, hleft⟩

/-- With room for every descriptor left, the loop records them all. -/
theorem RoomInv.loop (hinv : RoomInv storage st) (mmap : List EfiMemoryDescriptor)
    (hsmall : ∀ desc ∈ mmap, isRamType desc.type = true → desc.numberOfPages.toNat < 2 ^ 52)
    (hblocks : st.blocks.length + (withPages mmap).length ≤ storage.blockCapacity.toNat)
    (hwords : ramWords mmap ≤ st.wordsLeft.toNat) :
    RoomInv storage (buildPmm.loop storage.blockCapacity mmap st) ∧
    (buildPmm.loop storage.blockCapacity mmap st).blocks.map PmBlock.fields
      = st.blocks.map PmBlock.fields ++ (withPages mmap).map EfiMemoryDescriptor.fields := by
  induction mmap generalizing st with
  | nil => exact ⟨hinv, by simp [buildPmm.loop, withPages]⟩
  | cons desc mmap ih =>
      have hrest : ∀ d ∈ mmap, isRamType d.type = true → d.numberOfPages.toNat < 2 ^ 52 :=
        fun d hd => hsmall d (List.mem_cons_of_mem _ hd)
      rw [withPages_length_cons] at hblocks
      rw [ramWords_cons] at hwords
      rw [buildPmm.loop]
      by_cases hpages : desc.numberOfPages = 0#64
      · rw [if_pos hpages]
        obtain ⟨hinv', hfields⟩ := ih hinv hrest (by omega) (by omega)
        refine ⟨hinv', hfields.trans ?_⟩
        simp [withPages, hpages]
      · rw [if_pos hpages] at hblocks
        -- this descriptor needs a block too, so the blocks are not used up yet
        have hcap : BitVec.ofNat 64 st.blocks.length ≠ storage.blockCapacity := by
          intro heq
          have hlt := storage.blockCapacity.isLt
          have := congrArg BitVec.toNat heq
          rw [toNat_ofNat_of_lt (by omega)] at this
          omega
        rw [if_neg hpages, if_neg hcap]
        obtain ⟨hinv', b, hb, hbs, hleft⟩ := hinv.addBlock hpages (hsmall desc List.mem_cons_self)
          fun hram => by rw [if_pos hram] at hwords; omega
        obtain ⟨hinv'', hfields⟩ := ih hinv' hrest
          (by rw [hbs, List.length_append, List.length_singleton]; omega) (by omega)
        refine ⟨hinv'', hfields.trans ?_⟩
        rw [hbs]
        simp [withPages, hpages, hb]

theorem RoomInv.start (storage : PmmStorage) :
    RoomInv storage
      { blocks := [], bitmap := storage.bitmap, nextMap := 0,
        wordsLeft := storage.bitmapWords } where
  cursor := Nat.zero_add _
  slice _ hb := absurd hb List.not_mem_nil
  mapOrder := List.Pairwise.nil
  managed _ hb := absurd hb List.not_mem_nil
  untouched _ _ := rfl

end Room

/-! ## The layout of the allocation -/

/-- The parts of the allocation that are written: the header, the pointer table,
    the blocks recorded in `pm`, and the bitmaps of those that have one. -/
def PmmReserved.parts (r : PmmReserved) (pm : Pmm) : List Region :=
  [[⟨r.physicalMemory.toNat, sizeofPmm.toNat⟩],
   [⟨r.blocks.toNat, (r.blockCapacity * sizeofPointer).toNat⟩],
   (r.blockPtrs.take pm.blocks.length).map fun p => ⟨p.toNat, sizeofPmBlock.toNat⟩,
   (pm.blocks.filter fun b => b.map ≠ none).map fun b =>
     ⟨r.bitmap.toNat + sizeofWord.toNat * b.base, sizeofWord.toNat * b.words⟩].flatten

theorem fillTable_eq (left : Nat) (p : Word) :
    reservePmm.fillTable left p
      = ((List.range left).map fun i => p + BitVec.ofNat 64 (48 * i),
         p + BitVec.ofNat 64 (48 * left)) := by
  induction left generalizing p with
  | zero => simp [reservePmm.fillTable]
  | succ left ih =>
      have hstep : ∀ i, p + sizeofPmBlock + BitVec.ofNat 64 (48 * i)
          = p + BitVec.ofNat 64 (48 * (i + 1)) := by
        intro i
        rw [BitVec.add_assoc, Nat.mul_succ, Nat.add_comm, BitVec.ofNat_add]
        rfl
      rw [reservePmm.fillTable, ih, List.range_succ_eq_map]
      simp [hstep]

/-- What a successful `reserve_pmm` leaves, in numbers. -/
structure PmmReserved.Laid (r : PmmReserved) (blockCount ramFrames : Nat) : Prop where
  capacity : r.blockCapacity.toNat = blockCount + 16
  words : r.bitmapWords.toNat = ramFrames / 64 + r.blockCapacity.toNat
  bytes : (reservePmm.bytes r.blockCapacity r.bitmapWords).toNat
    = 16 + 8 * r.blockCapacity.toNat + 48 * r.blockCapacity.toNat + 8 * r.bitmapWords.toNat
  fits : r.physicalMemory.toNat + (reservePmm.bytes r.blockCapacity r.bitmapWords).toNat ≤ 2 ^ 64
  blocks : r.blocks.toNat = r.physicalMemory.toNat + 16
  blockPtrs : r.blockPtrs.map BitVec.toNat
    = (List.range r.blockCapacity.toNat).map fun i =>
        r.physicalMemory.toNat + 16 + 8 * r.blockCapacity.toNat + 48 * i
  bitmap : r.bitmap.toNat
    = r.physicalMemory.toNat + 16 + 8 * r.blockCapacity.toNat + 48 * r.blockCapacity.toNat

section Layout

variable {efiMalloc : Word → Word} {result : EfiStatus}
  {provisional : List EfiMemoryDescriptor} {r : PmmReserved}

theorem reservePmm_ok (hres : reservePmm (result, provisional) efiMalloc = .ok r) :
    r.blockCapacity = BitVec.ofNat 64 (withPages provisional).length + pmmBlockSlack ∧
    r.bitmapWords = BitVec.ofNat 64 (ramPages provisional) / 64#64 + r.blockCapacity ∧
    r.physicalMemory = efiMalloc (reservePmm.bytes r.blockCapacity r.bitmapWords) ∧
    r.physicalMemory ≠ 0#64 ∧
    r.blocks = r.physicalMemory + sizeofPmm ∧
    (r.blockPtrs, r.bitmap) = reservePmm.fillTable r.blockCapacity.toNat
      (r.blocks + r.blockCapacity * sizeofPointer) := by
  unfold reservePmm at hres
  simp only [scan_eq, BitVec.zero_add] at hres
  split at hres
  · cases hres
  · split at hres
    · cases hres
    · next hp =>
        cases hres
        exact ⟨rfl, rfl, rfl, hp, rfl, rfl⟩

theorem toNat_sized {count size : Word} {n : Nat} (hsize : size.toNat = n)
    (h : n * count.toNat < 2 ^ 64) : (count * size).toNat = n * count.toNat := by
  rw [toNat_mul_of_lt, hsize, Nat.mul_comm]
  rw [hsize, Nat.mul_comm]
  exact h

/-- The size of the allocation, as long as it is a word. -/
theorem reservePmm_bytes_toNat {capacity words : Word}
    (h : 16 + 8 * capacity.toNat + 48 * capacity.toNat + 8 * words.toNat < 2 ^ 64) :
    (reservePmm.bytes capacity words).toNat
      = 16 + 8 * capacity.toNat + 48 * capacity.toNat + 8 * words.toNat := by
  have htable : (capacity * sizeofPointer).toNat = 8 * capacity.toNat := toNat_sized rfl (by omega)
  have hrecords : (capacity * sizeofPmBlock).toNat = 48 * capacity.toNat :=
    toNat_sized rfl (by omega)
  have hbitmap : (words * sizeofWord).toNat = 8 * words.toNat := toNat_sized rfl (by omega)
  unfold reservePmm.bytes
  rw [BitVec.toNat_add, BitVec.toNat_add, BitVec.toNat_add, htable, hrecords, hbitmap,
    show sizeofPmm.toNat = 16 from rfl]
  omega

/-- The two counts `reserve_pmm` sizes its storage with; neither wraps. -/
theorem reservePmm_sizes (hpages : totalPages provisional < 2 ^ 52)
    (hres : reservePmm (result, provisional) efiMalloc = .ok r) :
    r.blockCapacity.toNat = (withPages provisional).length + 16 ∧
    r.bitmapWords.toNat = ramPages provisional / 64 + r.blockCapacity.toNat := by
  have hcount := withPages_length_le provisional
  have hram := ramPages_le_totalPages provisional
  obtain ⟨hcapacity, hbitmapWords, _⟩ := reservePmm_ok hres
  have hlen : (BitVec.ofNat 64 (withPages provisional).length).toNat
      = (withPages provisional).length := toNat_ofNat_of_lt (by omega)
  have hslack : pmmBlockSlack.toNat = 16 := rfl
  have hcap : r.blockCapacity.toNat = (withPages provisional).length + 16 := by
    rw [hcapacity, toNat_add_of_lt (by omega), hlen, hslack]
  have hdiv : (BitVec.ofNat 64 (ramPages provisional) / 64#64).toNat
      = ramPages provisional / 64 := by
    rw [BitVec.toNat_udiv, toNat_ofNat_of_lt (by omega)]
    rfl
  refine ⟨hcap, ?_⟩
  rw [hbitmapWords, toNat_add_of_lt (by omega), hdiv]

theorem reservePmm_laid
    (hmalloc : ∀ size, efiMalloc size ≠ 0#64 → EndsBy (efiMalloc size) size (2 ^ 64))
    (hpages : totalPages provisional < 2 ^ 52)
    (hres : reservePmm (result, provisional) efiMalloc = .ok r) :
    r.Laid (withPages provisional).length (ramPages provisional) := by
  have hcount := withPages_length_le provisional
  have hram := ramPages_le_totalPages provisional
  obtain ⟨hcap, hwords⟩ := reservePmm_sizes hpages hres
  obtain ⟨_, _, hphys, hp, hblocks, htables⟩ := reservePmm_ok hres
  have hbytes := reservePmm_bytes_toNat (show 16 + 8 * r.blockCapacity.toNat
    + 48 * r.blockCapacity.toNat + 8 * r.bitmapWords.toNat < 2 ^ 64 by omega)
  have hfits : r.physicalMemory.toNat
      + (reservePmm.bytes r.blockCapacity r.bitmapWords).toNat ≤ 2 ^ 64 := by
    have := hmalloc (reservePmm.bytes r.blockCapacity r.bitmapWords) (hphys ▸ hp)
    rwa [← hphys] at this
  -- the addresses, all inside the allocation
  have hblocksNat : r.blocks.toNat = r.physicalMemory.toNat + 16 := by
    rw [hblocks, toNat_add_of_lt] <;> rw [show sizeofPmm.toNat = 16 from rfl]
    omega
  have htable : (r.blockCapacity * sizeofPointer).toNat = 8 * r.blockCapacity.toNat :=
    toNat_sized rfl (by omega)
  have hstart : (r.blocks + r.blockCapacity * sizeofPointer).toNat
      = r.physicalMemory.toNat + 16 + 8 * r.blockCapacity.toNat := by
    rw [toNat_add_of_lt, hblocksNat, htable]
    omega
  have hentry : ∀ i, i ≤ r.blockCapacity.toNat →
      (r.blocks + r.blockCapacity * sizeofPointer + BitVec.ofNat 64 (48 * i)).toNat
        = r.physicalMemory.toNat + 16 + 8 * r.blockCapacity.toNat + 48 * i := by
    intro i hi
    have hoff : (BitVec.ofNat 64 (48 * i)).toNat = 48 * i := toNat_ofNat_of_lt (by omega)
    rw [toNat_add_of_lt, hstart, hoff]
    omega
  rw [fillTable_eq, Prod.mk.injEq] at htables
  refine ⟨hcap, hwords, hbytes, hfits, hblocksNat, ?_, ?_⟩
  · rw [htables.1, List.map_map]
    exact List.map_congr_left fun i hi => hentry i (Nat.le_of_lt (List.mem_range.mp hi))
  · rw [htables.2]
    exact hentry _ (Nat.le_refl _)

/-- The records are as far apart as they are large. -/
theorem PmmReserved.Laid.records {blockCount ramFrames : Nat} (h : r.Laid blockCount ramFrames)
    {count : Nat} (hcount : count ≤ r.blockCapacity.toNat) :
    (r.blockPtrs.take count).map (fun p => (⟨p.toNat, sizeofPmBlock.toNat⟩ : Region))
      = (List.range count).map fun i =>
          ⟨r.physicalMemory.toNat + 16 + 8 * r.blockCapacity.toNat + 48 * i, 48⟩ := by
  calc (r.blockPtrs.take count).map (fun p => (⟨p.toNat, sizeofPmBlock.toNat⟩ : Region))
      = ((r.blockPtrs.map BitVec.toNat).take count).map fun a => ⟨a, 48⟩ := by
        rw [← List.map_take, List.map_map]
        rfl
    _ = _ := by
        rw [h.blockPtrs, ← List.map_take, List.map_map, List.take_range, Nat.min_eq_left hcount]
        rfl

theorem PmmReserved.Laid.records_apart {blockCount ramFrames : Nat}
    (h : r.Laid blockCount ramFrames) {count : Nat} (hcount : count ≤ r.blockCapacity.toNat) :
    (∀ x ∈ (r.blockPtrs.take count).map fun p => (⟨p.toNat, sizeofPmBlock.toNat⟩ : Region),
      x.Within ⟨r.physicalMemory.toNat + 16 + 8 * r.blockCapacity.toNat,
        48 * r.blockCapacity.toNat⟩) ∧
    ((r.blockPtrs.take count).map fun p => (⟨p.toNat, sizeofPmBlock.toNat⟩ : Region)).Pairwise
      Region.Apart := by
  rw [h.records hcount]
  refine ⟨fun x hx => ?_, ?_⟩
  · obtain ⟨i, hi, rfl⟩ := List.mem_map.mp hx
    have := List.mem_range.mp hi
    exact ⟨by simp only []; omega, by simp only []; omega⟩
  · rw [List.pairwise_map]
    refine List.pairwise_lt_range.imp fun {i j} hij => ?_
    exact .inl (by simp only []; omega)

/-- The bitmaps were handed out in the order of the blocks. -/
theorem PmmReserved.bitmaps_apart {pm : Pmm} {size : Nat}
    (hslice : ∀ b ∈ pm.blocks, b.map ≠ none → b.base + b.words ≤ size)
    (horder : pm.blocks.Pairwise PmBlock.MapBefore) (start : Nat) :
    (∀ x ∈ (pm.blocks.filter fun b => b.map ≠ none).map fun b =>
      (⟨start + sizeofWord.toNat * b.base, sizeofWord.toNat * b.words⟩ : Region),
        x.Within ⟨start, 8 * size⟩) ∧
    ((pm.blocks.filter fun b => b.map ≠ none).map fun b =>
      (⟨start + sizeofWord.toNat * b.base, sizeofWord.toNat * b.words⟩ : Region)).Pairwise
        Region.Apart := by
  rw [show sizeofWord.toNat = 8 from rfl]
  refine ⟨fun x hx => ?_, ?_⟩
  · obtain ⟨b, hb, rfl⟩ := List.mem_map.mp hx
    obtain ⟨hb, hmap⟩ := List.mem_filter.mp hb
    have := hslice b hb (of_decide_eq_true hmap)
    exact ⟨by simp only []; omega, by simp only []; omega⟩
  · rw [List.pairwise_map, List.pairwise_filter]
    refine horder.imp fun {b c} hbc hb hc => ?_
    have := hbc (of_decide_eq_true hb) (of_decide_eq_true hc)
    exact .inl (by simp only []; omega)

/-- The parts of the allocation, whatever was recorded in at most `blockCapacity`
    blocks with their bitmaps in order and inside the bitmap words. -/
theorem PmmReserved.Laid.parts {blockCount ramFrames : Nat} (h : r.Laid blockCount ramFrames)
    {pm : Pmm} (hlen : pm.blocks.length ≤ r.blockCapacity.toNat)
    (hslice : ∀ b ∈ pm.blocks, b.map ≠ none → b.base + b.words ≤ r.bitmapWords.toNat)
    (horder : pm.blocks.Pairwise PmBlock.MapBefore) :
    (r.parts pm).Pairwise Region.Apart ∧
    ∀ part ∈ r.parts pm, part.Within ⟨r.physicalMemory.toNat,
      (reservePmm.bytes r.blockCapacity r.bitmapWords).toNat⟩ := by
  have hbytes := h.bytes
  have hfits := h.fits
  have htable : (r.blockCapacity * sizeofPointer).toNat = 8 * r.blockCapacity.toNat :=
    toNat_sized rfl (by omega)
  let sizes := [16, 8 * r.blockCapacity.toNat, 48 * r.blockCapacity.toNat,
    8 * r.bitmapWords.toNat]
  -- one group of parts in each carved region: header, table, blocks, bitmaps
  have hgroups : List.Forall₂ (fun region group => (∀ x ∈ group, x.Within region) ∧
      group.Pairwise Region.Apart) (carve r.physicalMemory.toNat sizes)
      [[⟨r.physicalMemory.toNat, sizeofPmm.toNat⟩],
       [⟨r.blocks.toNat, (r.blockCapacity * sizeofPointer).toNat⟩],
       (r.blockPtrs.take pm.blocks.length).map fun p => ⟨p.toNat, sizeofPmBlock.toNat⟩,
       (pm.blocks.filter fun b => b.map ≠ none).map fun b =>
         ⟨r.bitmap.toNat + sizeofWord.toNat * b.base, sizeofWord.toNat * b.words⟩] := by
    refine .cons ⟨?_, List.pairwise_singleton _ _⟩ (.cons ⟨?_, List.pairwise_singleton _ _⟩
      (.cons (h.records_apart hlen) (.cons ?_ .nil)))
    · intro x hx
      rw [List.mem_singleton.mp hx]
      exact ⟨Nat.le_refl _, Nat.le_refl _⟩
    · intro x hx
      rw [List.mem_singleton.mp hx, h.blocks, htable]
      exact ⟨Nat.le_refl _, Nat.le_refl _⟩
    · rw [h.bitmap]
      exact PmmReserved.bitmaps_apart hslice horder _
  refine ⟨Regions.flatten_apart (Regions.carve_apart _ _) hgroups,
    Regions.flatten_within (fun region hregion => ?_) hgroups⟩
  have hwithin := Regions.within_of_mem_carve hregion
  rw [show sizes.sum = (reservePmm.bytes r.blockCapacity r.bitmapWords).toNat by
    simp only [sizes, List.sum_cons, List.sum_nil]; omega] at hwithin
  exact hwithin

/-- **The reserved storage is enough.**  If `reserve_pmm` succeeded on a provisional
    map, and the final map has at most 16 more descriptors with pages and no more
    RAM, then `build_pmm` records every descriptor with pages and gives every
    usable and reclaimable block a bitmap.  The header, the pointer table, the
    blocks and the bitmaps lie in disjoint parts of the one allocation, and no
    other bitmap word is written. -/
theorem reserve_enough {final : List EfiMemoryDescriptor} (words : Words 64)
    (hmalloc : ∀ size, efiMalloc size ≠ 0#64 → EndsBy (efiMalloc size) size (2 ^ 64))
    (hpages : totalPages provisional < 2 ^ 52)
    (hcount : (withPages final).length ≤ (withPages provisional).length + 16)
    (hram : ramPages final ≤ ramPages provisional)
    (hres : reservePmm (result, provisional) efiMalloc = .ok r) :
    let pm := buildPmm (r.storage words) final
    let bytes := reservePmm.bytes r.blockCapacity r.bitmapWords
    r.physicalMemory = efiMalloc bytes ∧
    pm.blocks.map PmBlock.fields = (withPages final).map EfiMemoryDescriptor.fields ∧
    (∀ b ∈ pm.blocks, b.type = .usable ∨ b.type = .reclaimable → b.map ≠ none) ∧
    pm.blocks.length ≤ r.blockPtrs.length ∧
    (r.parts pm).Pairwise Region.Apart ∧
    (∀ part ∈ r.parts pm, part.Within ⟨r.physicalMemory.toNat, bytes.toNat⟩) ∧
    ∀ i, (∀ b ∈ pm.blocks, b.map ≠ none → i < b.base ∨ b.base + b.words ≤ i) →
      pm.bitmap i = words i := by
  have hlaid := reservePmm_laid hmalloc hpages hres
  have hcap := hlaid.capacity
  have hwords := hlaid.words
  -- a block wastes less than one word, and there are 16 blocks to spare
  have hround := ramWords_le final
  have hprov := ramPages_le_totalPages provisional
  obtain ⟨hinv, hfields⟩ := (RoomInv.start (r.storage words)).loop final
    (fun desc hdesc hty => Nat.lt_of_le_of_lt (pages_le_ramPages hdesc hty) (by omega))
    (by simp only [List.length_nil, PmmReserved.storage]; omega)
    (by simp only [PmmReserved.storage]; omega)
  have hrecorded : (buildPmm (r.storage words) final).blocks.length
      = (withPages final).length := by
    have := congrArg List.length hfields
    rwa [List.length_append, List.length_map, List.length_map, List.length_map,
      List.length_nil, Nat.zero_add] at this
  have hcursor := hinv.cursor
  have hslice : ∀ b ∈ (buildPmm (r.storage words) final).blocks, b.map ≠ none →
      b.base + b.words ≤ r.bitmapWords.toNat := fun b hb hmap => by
    have := hinv.slice b hb hmap
    simp only [PmmReserved.storage] at hcursor this
    omega
  obtain ⟨happart, hwithin⟩ := hlaid.parts (by omega) hslice hinv.mapOrder
  have hptrs : r.blockPtrs.length = r.blockCapacity.toNat := by
    have := congrArg List.length hlaid.blockPtrs
    rwa [List.length_map, List.length_map, List.length_range] at this
  obtain ⟨_, _, hphys, _⟩ := reservePmm_ok hres
  exact ⟨hphys, hfields, hinv.managed, by omega, happart, hwithin, hinv.untouched⟩

end Layout

/-- An allocator with one region of 1 MiB at 0x100000. -/
def oneMegabyte (size : Word) : Word :=
  if size.toNat ≤ 0x100000 then 0x100000#64 else 0#64

theorem oneMegabyte_endsBy (size : Word) (h : oneMegabyte size ≠ 0#64) :
    EndsBy (oneMegabyte size) size (2 ^ 64) := by
  unfold oneMegabyte at h ⊢
  split at h
  · next hle =>
      rw [if_pos hle]
      unfold EndsBy
      simp only [BitVec.reduceToNat]
      omega
  · exact absurd rfl h

/-- The final map has the three pages of the provisional one in two blocks. -/
theorem reserve_enough_split : ∃ r,
    reservePmm (efiSuccess, [threePages]) oneMegabyte = .ok r ∧
    ∀ words, ∀ b ∈ (buildPmm (r.storage words)
      [{ threePages with numberOfPages := 1#64 },
       { threePages with physicalStart := 0x2000#64, numberOfPages := 2#64 }]).blocks,
      b.type = .usable ∨ b.type = .reclaimable → b.map ≠ none := by
  obtain ⟨r, hres⟩ : ∃ r, reservePmm (efiSuccess, [threePages]) oneMegabyte = .ok r :=
    ⟨_, rfl⟩
  refine ⟨r, hres, fun words => ?_⟩
  exact (reserve_enough words oneMegabyte_endsBy (by decide) (by decide) (by decide) hres).2.2.1

end EchOS
