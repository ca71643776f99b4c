/-
  EchOS.Kernel.Memory.Heap

  The heap reservation of `kernel/memory/heap.c`.
-/
import EchOS.Kernel.Memory.Paging

namespace EchOS

/-- The rounded-up page count of `get_heap`. -/
def heapPages (length : Word) : Word :=
  let pages := length / frameSize
  if pages * frameSize < length then pages + 1#64 else pages

/-- `get_heap`'s release loop, with `left` frames to go from frame `i`. -/
def getHeap.release (paddr : Word) : (left i : Nat) → Pmm → Except Abort Pmm
  | 0, _, pm => .ok pm
  | left + 1, i, pm => do
      let pm ← frameFree pm (paddr + BitVec.ofNat 64 i * frameSize)
      getHeap.release paddr left (i + 1) pm

/-- `get_heap` -/
def getHeap (fuel : Nat) (s : Machine) (pml4 vaddr length : Word) :
    Except Abort (Int × Machine) := do
  let pages := heapPages length
  let length := pages * frameSize
  let (paddr, pmm) ← framesAllocate s.pmm pages
  if paddr = noFrame then return (-1, { s with pmm })
  else do
    let (mapped, s) ← mapRange fuel { s with pmm } pml4 vaddr paddr length readWriteBit
    -- the mapping failed: the frames go back, what was mapped stays
    if mapped ≠ 0 then do
      let pmm ← getHeap.release paddr pages.toNat 0 s.pmm
      return (-1, { s with pmm })
    else return (0, s)

end EchOS
