/-
  EchOS.Kernel.InitPaging

  `init_paging` of `kernel/kernel.c`: the identity map of the memory that the
  firmware reported, and of the framebuffer.
-/
import EchOS.Kernel.Memory.Paging

namespace EchOS

/-- `framebuffer_t`, the fields `init_paging` reads. -/
structure Framebuffer where
  buffer : Word
  pixelsPerScanline : Word
  height : Word
  deriving Repr, DecidableEq

/-- `fb_length` -/
def Framebuffer.length (fb : Framebuffer) : Word := fb.pixelsPerScanline * fb.height * 4#64

/-- The body of `init_paging`'s loop: 0 for a block that is skipped. -/
def initPaging.mapBlock (fuel : Nat) (s : Machine) (pml4 : Word) (block : PmBlock) :
    Except Abort (Int × Machine) :=
  -- `continue`
  if block.type = .mmio ∨ block.type = .reserved then .ok (0, s)
  else
    let start := block.address
    let «end» := start + block.framesTotal * frameSize
    -- page 0 is left unmapped
    let start := if start < frameSize then frameSize else start
    if «end» ≤ start then .ok (0, s)
    else mapRange fuel s pml4 start start («end» - start) readWriteBit

/-- The loop of `init_paging`, with `left` blocks to go. -/
def initPaging.loop (fuel : Nat) (pml4 : Word) : (left i : Nat) → Machine →
    Except Abort (Int × Machine)
  | 0, _, s => .ok (0, s)
  | left + 1, i, s =>
      match s.pmm.blocks[i]? with
      | none => .ok (0, s)
      | some block => do
          let (mapped, s) ← initPaging.mapBlock fuel s pml4 block
          if mapped ≠ 0 then return (-1, s)
          else initPaging.loop fuel pml4 left (i + 1) s

/-- `init_paging`: its result, the PML4 that it loads into CR3 at the end, and the
    machine. -/
def initPaging (fuel : Nat) (s : Machine) (fb : Framebuffer) :
    Except Abort (Int × Word × Machine) := do
  let (pml4, s) ← initPml4 s
  if pml4 = null then return (-1, pml4, s)
  else do
    let (mapped, s) ← initPaging.loop fuel pml4 s.pmm.blocks.length 0 s
    if mapped ≠ 0 then return (-1, pml4, s)
    else do
      let (mapped, s) ← mapRange fuel s pml4 fb.buffer fb.buffer fb.length readWriteBit
      if mapped ≠ 0 then return (-1, pml4, s) else return (0, pml4, s)

end EchOS
