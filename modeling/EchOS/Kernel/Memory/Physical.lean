/-
  EchOS.Kernel.Memory.Physical

  The physical memory manager of `kernel/memory/physical.{h,c}`: blocks of frames
  with a counter of free frames and, for managed blocks, a bitmap with one bit a
  frame (set means used).

  All bitmaps live in one storage, the words `build_pmm` carves them from, so a
  block's `map` is the index of its first word there and NULL is `none`.  Every
  access goes through `mapWord`/`setMapWord`, which abort on a NULL map and on an
  index outside the block's `frame_map_size(frames_total)` words.

  Frame and word indices are `Nat`: they stay below `frames_total`, a 64-bit
  word, so none of the loop counters of the source can wrap.
-/
import EchOS.Basic
import EchOS.Lib.PackedBits

namespace EchOS

open PackedBits (Words)

/-- `pm_type` -/
inductive PmType where
  | usable
  | reclaimable
  | acpiReclaim
  | acpiNvs
  | firmware
  | mmio
  | reserved
  deriving Repr, DecidableEq

/-- `pm_block` -/
structure PmBlock where
  address : Word
  framesTotal : Word
  framesFree : Word
  map : Option Nat
  type : PmType
  attributes : Word
  deriving Repr, DecidableEq

/-- `pmm`: the blocks, in the order of the pointer table, and the bitmap storage. -/
structure Pmm where
  blocks : List PmBlock
  bitmap : Words 64

/-- `frame_map_size(frame_count)`, in 64-bit arithmetic. -/
def frameMapSize (frameCount : Word) : Word := (frameCount + 63#64) / 64#64

/-- `block->map[entry]` as a value. -/
def mapWord (block : PmBlock) (bitmap : Words 64) (entry : Nat) : Except Abort Word :=
  match block.map with
  | none => .error .nullMap
  | some base =>
      if entry < (frameMapSize block.framesTotal).toNat then .ok (bitmap (base + entry))
      else .error .mapBounds

/-- `block->map[entry] = x`. -/
def setMapWord (block : PmBlock) (bitmap : Words 64) (entry : Nat) (x : Word) :
    Except Abort (Words 64) :=
  match block.map with
  | none => .error .nullMap
  | some base =>
      if entry < (frameMapSize block.framesTotal).toNat then
        .ok (Function.update bitmap (base + entry) x)
      else .error .mapBounds

/-- The inner loop of `frame_allocate_from_block`: the first `bit` of 0..63 that
    is clear in the word. -/
def firstClearBit (word : Word) : Option Nat :=
  (List.range 64).find? fun bit => word &&& (1#64 <<< bit) = 0

/-- The outer loop of `frame_allocate_from_block`, with `left` entries to go. -/
def frameAllocateFromBlock.loop (block : PmBlock) (bitmap : Words 64) :
    (left entry : Nat) → Except Abort (Word × PmBlock × Words 64)
  | 0, _ => .ok (noFrame, block, bitmap)
  | left + 1, entry => do
      let word ← mapWord block bitmap entry
      -- `continue`: all 64 frames are in use
      if word = 0xFFFFFFFFFFFFFFFF#64 then
        frameAllocateFromBlock.loop block bitmap left (entry + 1)
      else
        match firstClearBit word with
        | none => frameAllocateFromBlock.loop block bitmap left (entry + 1)
        | some bit => do
            let bitmap ← setMapWord block bitmap entry (word ||| (1#64 <<< bit))
            let frameOffset := BitVec.ofNat 64 (entry * 64 + bit)
            let address := block.address + frameOffset * frameSize
            return (address, { block with framesFree := block.framesFree - 1#64 }, bitmap)

/-- `frame_allocate_from_block` -/
def frameAllocateFromBlock (block : PmBlock) (bitmap : Words 64) :
    Except Abort (Word × PmBlock × Words 64) :=
  frameAllocateFromBlock.loop block bitmap (frameMapSize block.framesTotal).toNat 0

/-- `frame_free_from_block` -/
def frameFreeFromBlock (block : PmBlock) (bitmap : Words 64) (address : Word) :
    Except Abort (PmBlock × Words 64) :=
  if block.map = none then .ok (block, bitmap)   -- unmanaged region
  else do
    let offset := address - block.address
    let frameOffset := offset / frameSize
    let entry := (frameOffset / 64#64).toNat
    let bit := (frameOffset % 64#64).toNat
    let word ← mapWord block bitmap entry
    let block' := if word &&& (1#64 <<< bit) ≠ 0 then
        { block with framesFree := block.framesFree + 1#64 } else block
    let bitmap ← setMapWord block bitmap entry (word &&& ~~~(1#64 <<< bit))
    return (block', bitmap)

/-- The loop over the pointer table that the three operations share.  `body`
    handles one block; `some r` leaves the function with `r`, `none` goes on with
    the next block, and `dflt` is what the function returns after the last one. -/
def overBlocks {α : Type} (dflt : α)
    (body : PmBlock → Words 64 → Except Abort (Option α × PmBlock × Words 64)) :
    List PmBlock → Words 64 → Except Abort (α × List PmBlock × Words 64)
  | [], bitmap => .ok (dflt, [], bitmap)
  | block :: rest, bitmap => do
      let (r, block, bitmap) ← body block bitmap
      match r with
      | some a => return (a, block :: rest, bitmap)
      | none => do
          let (a, rest, bitmap) ← overBlocks dflt body rest bitmap
          return (a, block :: rest, bitmap)

/-- An address the caller returns unless it is the failure value. -/
def foundFrame (address : Word) : Option Word :=
  if address ≠ noFrame then some address else none

/-- The body of `frame_allocate`'s loop. -/
def frameAllocate.body (block : PmBlock) (bitmap : Words 64) :
    Except Abort (Option Word × PmBlock × Words 64) :=
  if block.framesFree = 0#64 then .ok (none, block, bitmap)
  else do
    let (address, block, bitmap) ← frameAllocateFromBlock block bitmap
    return (foundFrame address, block, bitmap)

/-- `frame_allocate` -/
def frameAllocate (pm : Pmm) : Except Abort (Word × Pmm) := do
  let (address, blocks, bitmap) ← overBlocks noFrame frameAllocate.body pm.blocks pm.bitmap
  return (address, ⟨blocks, bitmap⟩)

/-- The body of `frame_free`'s loop. -/
def frameFree.body (address : Word) (block : PmBlock) (bitmap : Words 64) :
    Except Abort (Option Unit × PmBlock × Words 64) :=
  let «end» := block.address + block.framesTotal * frameSize
  if block.address ≤ address ∧ address < «end» then do
    let (block, bitmap) ← frameFreeFromBlock block bitmap address
    return (some (), block, bitmap)
  else .ok (none, block, bitmap)

/-- `frame_free` -/
def frameFree (pm : Pmm) (address : Word) : Except Abort Pmm := do
  let (_, blocks, bitmap) ← overBlocks () (frameFree.body address) pm.blocks pm.bitmap
  return ⟨blocks, bitmap⟩

/-- `frame_is_used` -/
def frameIsUsed (block : PmBlock) (bitmap : Words 64) (frame : Nat) : Except Abort Bool := do
  let word ← mapWord block bitmap (frame / 64)
  return (word >>> (frame % 64)) &&& 1#64 ≠ 0

/-- The search loop of `frames_allocate_from_block`, with `left` frames to go:
    the start of the run when one of `count` free frames has been seen. -/
def framesAllocateFromBlock.loop (block : PmBlock) (bitmap : Words 64) (count : Nat) :
    (left frame runStart runLength : Nat) → Except Abort (Option Nat)
  | 0, _, _, _ => .ok none
  | left + 1, frame, runStart, runLength => do
      if ← frameIsUsed block bitmap frame then
        framesAllocateFromBlock.loop block bitmap count left (frame + 1) runStart 0
      else
        let runStart := if runLength = 0 then frame else runStart
        if runLength + 1 < count then
          framesAllocateFromBlock.loop block bitmap count left (frame + 1) runStart
            (runLength + 1)
        else return some runStart

/-- The marking loop of `frames_allocate_from_block`: `count` frames from `f`. -/
def framesAllocateFromBlock.mark (block : PmBlock) :
    (count f : Nat) → Words 64 → Except Abort (Words 64)
  | 0, _, bitmap => .ok bitmap
  | count + 1, f, bitmap => do
      let word ← mapWord block bitmap (f / 64)
      let bitmap ← setMapWord block bitmap (f / 64) (word ||| (1#64 <<< (f % 64)))
      framesAllocateFromBlock.mark block count (f + 1) bitmap

/-- `frames_allocate_from_block` -/
def framesAllocateFromBlock (block : PmBlock) (bitmap : Words 64) (count : Word) :
    Except Abort (Word × PmBlock × Words 64) := do
  match ← framesAllocateFromBlock.loop block bitmap count.toNat block.framesTotal.toNat 0 0 0 with
  | none => return (noFrame, block, bitmap)
  | some runStart => do
      let bitmap ← framesAllocateFromBlock.mark block count.toNat runStart bitmap
      return (block.address + BitVec.ofNat 64 runStart * frameSize,
        { block with framesFree := block.framesFree - count }, bitmap)

/-- The body of `frames_allocate`'s loop. -/
def framesAllocate.body (count : Word) (block : PmBlock) (bitmap : Words 64) :
    Except Abort (Option Word × PmBlock × Words 64) :=
  if block.map = none ∨ block.framesFree < count then .ok (none, block, bitmap)
  else do
    let (address, block, bitmap) ← framesAllocateFromBlock block bitmap count
    return (foundFrame address, block, bitmap)

/-- `frames_allocate` -/
def framesAllocate (pm : Pmm) (count : Word) : Except Abort (Word × Pmm) :=
  if count = 0#64 then .ok (noFrame, pm)
  else do
    let (address, blocks, bitmap) ←
      overBlocks noFrame (framesAllocate.body count) pm.blocks pm.bitmap
    return (address, ⟨blocks, bitmap⟩)

end EchOS
