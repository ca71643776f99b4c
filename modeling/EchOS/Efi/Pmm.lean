/-
  EchOS.Efi.Pmm

  `build_pmm` of `efi-stage/efi_pmm.c`: the final memory map becomes the blocks of
  the physical memory manager, with bitmaps carved from the reserved storage.

  The memory map is the list of its descriptors in order.  `BuildState` holds the
  locals of the loop: the blocks recorded so far, the bitmap storage, the cursor
  `next_map` (as a word index into the storage) and `words_left`.
-/
import EchOS.Kernel.Memory.Physical

namespace EchOS

open PackedBits (Words)

/-- `EFI_MEMORY_TYPE`; `other` stands for every value that the switch of
    `build_pmm` leaves to its default. -/
inductive EfiMemoryType where
  | loaderCode
  | loaderData
  | bootServicesCode
  | bootServicesData
  | runtimeServicesCode
  | runtimeServicesData
  | conventionalMemory
  | acpiReclaimMemory
  | acpiMemoryNVS
  | memoryMappedIo
  | memoryMappedIoPortSpace
  | other
  deriving Repr, DecidableEq

/-- `EFI_MEMORY_DESCRIPTOR`, the fields `build_pmm` reads. -/
structure EfiMemoryDescriptor where
  type : EfiMemoryType
  physicalStart : Word
  numberOfPages : Word
  attr : Word
  deriving Repr, DecidableEq

/-- `pmm_storage`: room for `block_capacity` blocks, and `bitmap_words` words of
    bitmap with whatever they contained. -/
structure PmmStorage where
  blockCapacity : Word
  bitmapWords : Word
  bitmap : Words 64

/-- The switch over `desc->Type`. -/
def pmTypeOf : EfiMemoryType → PmType
  | .conventionalMemory => .usable
  | .loaderCode | .loaderData | .bootServicesCode | .bootServicesData => .reclaimable
  | .acpiReclaimMemory => .acpiReclaim
  | .acpiMemoryNVS => .acpiNvs
  | .runtimeServicesCode | .runtimeServicesData => .firmware
  | .memoryMappedIo | .memoryMappedIoPortSpace => .mmio
  | .other => .reserved

/-- The locals of `build_pmm`'s loop. -/
structure BuildState where
  blocks : List PmBlock
  bitmap : Words 64
  nextMap : Nat
  wordsLeft : Word

/-- `for(j = 0; j < words; j++) map[j] = x` -/
def fillWords (bitmap : Words 64) (map : Nat) (x : Word) : Nat → Words 64
  | 0 => bitmap
  | words + 1 => Function.update (fillWords bitmap map x words) (map + words) x

/-- The bitmap of a fresh PM_USABLE block: all frames free, the padding of the
    last word used, and frame 0 used when the block starts at address 0.

    For 2^64 - 63 pages or more the word count wraps to 0, and `map[words - 1]` is the
    word before the bitmap; here it is the first one. -/
def usableBitmap (bitmap : Words 64) (map : Nat) (desc : EfiMemoryDescriptor) : Words 64 :=
  let words := (frameMapSize desc.numberOfPages).toNat
  let bitmap := fillWords bitmap map 0#64 words
  let tail := (desc.numberOfPages % 64#64).toNat
  let bitmap := if tail ≠ 0 then
      Function.update bitmap (map + (words - 1)) (~~~0#64 <<< tail) else bitmap
  if desc.physicalStart = 0#64 then Function.update bitmap map (bitmap map ||| 1#64) else bitmap

/-- The body of `build_pmm`'s loop for a descriptor that gets a block. -/
def buildPmm.addBlock (desc : EfiMemoryDescriptor) (st : BuildState) : BuildState :=
  let block : PmBlock :=
    { address := desc.physicalStart
      framesTotal := desc.numberOfPages
      framesFree := 0#64
      map := none
      type := pmTypeOf desc.type
      attributes := desc.attr }
  if block.type ≠ .usable ∧ block.type ≠ .reclaimable then
    -- the default case: recorded, but never managed
    { st with blocks := st.blocks ++ [block] }
  else
    let words := frameMapSize desc.numberOfPages
    -- out of storage: the block stays unmanaged
    if words > st.wordsLeft then { st with blocks := st.blocks ++ [block] }
    else
      let block := { block with map := some st.nextMap }
      let nextMap := st.nextMap + words.toNat
      let wordsLeft := st.wordsLeft - words
      if block.type = .reclaimable then
        -- PM_RECLAIMABLE: every frame in use until it is reclaimed
        { blocks := st.blocks ++ [block]
          bitmap := fillWords st.bitmap st.nextMap (~~~0#64) words.toNat
          nextMap, wordsLeft }
      else
        -- PM_USABLE: frame 0 is kept back, so that NULL is no frame
        let framesFree := if desc.physicalStart = 0#64 then desc.numberOfPages - 1#64
          else desc.numberOfPages
        { blocks := st.blocks ++ [{ block with framesFree }]
          bitmap := usableBitmap st.bitmap st.nextMap desc
          nextMap, wordsLeft }

/-- The loop of `build_pmm`. -/
def buildPmm.loop (blockCapacity : Word) : List EfiMemoryDescriptor → BuildState → BuildState
  | [], st => st
  | desc :: mmap, st =>
      if desc.numberOfPages = 0#64 then buildPmm.loop blockCapacity mmap st
      else if BitVec.ofNat 64 st.blocks.length = blockCapacity then st
      else buildPmm.loop blockCapacity mmap (buildPmm.addBlock desc st)

/-- `build_pmm` -/
def buildPmm (storage : PmmStorage) (mmap : List EfiMemoryDescriptor) : Pmm :=
  let st := buildPmm.loop storage.blockCapacity mmap
    { blocks := [], bitmap := storage.bitmap, nextMap := 0, wordsLeft := storage.bitmapWords }
  { blocks := st.blocks, bitmap := st.bitmap }

end EchOS
