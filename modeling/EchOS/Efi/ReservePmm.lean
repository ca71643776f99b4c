/-
  EchOS.Efi.ReservePmm

  `reserve_pmm` of `efi-stage/efi_pmm.c`: the storage of the physical memory
  manager is sized from a provisional memory map and allocated in one piece: the
  `pmm` header, the table of block pointers, the blocks, and the bitmap words.

  `getEFIMemoryMap` is given by its result, the status and the descriptors, and
  `efi_malloc` by the address it returns for a size.  The provisional map is freed
  before the allocation; nothing of it is used afterwards.
-/
import EchOS.Efi.Firmware
import EchOS.Efi.Pmm

namespace EchOS

open PackedBits (Words)

/-- `PMM_BLOCK_SLACK` -/
def pmmBlockSlack : Word := 16#64

/-- `sizeof(pmm)`, `sizeof(pm_block *)`, `sizeof(pm_block)`, `sizeof(uint64_t)`. -/
def sizeofPmm : Word := 16#64
def sizeofPointer : Word := 8#64
def sizeofPmBlock : Word := 48#64
def sizeofWord : Word := 8#64

/-- `is_ram_type` -/
def isRamType : EfiMemoryType → Bool
  | .loaderCode | .loaderData | .bootServicesCode | .bootServicesData
  | .conventionalMemory => true
  | _ => false

/-- The loop of `reserve_pmm` over the provisional map. -/
def reservePmm.scan : List EfiMemoryDescriptor → (blockCount ramFrames : Word) → Word × Word
  | [], blockCount, ramFrames => (blockCount, ramFrames)
  | desc :: mmap, blockCount, ramFrames =>
      reservePmm.scan mmap
        (if desc.numberOfPages ≠ 0#64 then blockCount + 1#64 else blockCount)
        (if isRamType desc.type then ramFrames + desc.numberOfPages else ramFrames)

/-- `bytes`, the size of the allocation. -/
def reservePmm.bytes (blockCapacity bitmapWords : Word) : Word :=
  sizeofPmm + blockCapacity * sizeofPointer + blockCapacity * sizeofPmBlock
    + bitmapWords * sizeofWord

/-- The loop that points `blocks[i]` at the blocks, from `p` on: the pointers, and
    where `p` ends up. -/
def reservePmm.fillTable : (left : Nat) → (p : Word) → List Word × Word
  | 0, p => ([], p)
  | left + 1, p =>
      let rest := reservePmm.fillTable left (p + sizeofPmBlock)
      (p :: rest.1, rest.2)

/-- `pmm_storage` as `reserve_pmm` fills it: the addresses of the header, of the
    pointer table, of every block and of the bitmap. -/
structure PmmReserved where
  physicalMemory : Word
  blocks : Word
  blockPtrs : List Word
  blockCapacity : Word
  bitmap : Word
  bitmapWords : Word
  deriving Repr, DecidableEq

/-- `reserve_pmm`, or the status it returns and what it prints. -/
def reservePmm (getEFIMemoryMap : EfiStatus × List EfiMemoryDescriptor)
    (efiMalloc : Word → Word) : Except (EfiStatus × PrintCall) PmmReserved :=
  if getEFIMemoryMap.1 ≠ efiSuccess then
    .error (getEFIMemoryMap.1, ⟨"Error getting EFI memory map.\n", []⟩)
  else
    let counts := reservePmm.scan getEFIMemoryMap.2 0#64 0#64
    let blockCapacity := counts.1 + pmmBlockSlack
    -- each block wastes at most one partial word
    let bitmapWords := counts.2 / 64#64 + blockCapacity
    let bytes := reservePmm.bytes blockCapacity bitmapWords
    let p := efiMalloc bytes
    if p = 0#64 then
      .error (efiOutOfResources, ⟨"Could not allocate %d bytes for the PMM.\n", [bytes]⟩)
    else
      let blocks := p + sizeofPmm
      let table := reservePmm.fillTable blockCapacity.toNat
        (blocks + blockCapacity * sizeofPointer)
      .ok { physicalMemory := p, blocks, blockPtrs := table.1, blockCapacity,
            bitmap := table.2, bitmapWords }

/-- The storage `build_pmm` works in, with what the bitmap words contain. -/
def PmmReserved.storage (r : PmmReserved) (bitmap : Words 64) : PmmStorage :=
  { blockCapacity := r.blockCapacity, bitmapWords := r.bitmapWords, bitmap }

end EchOS
