/-
  EchOS.Kernel.Start

  `kernel_start` of `kernel/kernel.c`, from the hand-over to the loop that it ends
  in, on memory as bytes: the GDT in two fresh frames, the registers loaded from it,
  and `init_paging`.

  What it prints is a list of formats with their arguments; the framebuffer that
  the console draws them in is not part of the memory here.
-/
import EchOS.Kernel.Console
import EchOS.Kernel.Gdt
import EchOS.Kernel.Memory.FlatPaging

namespace EchOS

open FlatMemory

namespace Flat

/-- The body of `init_paging`'s loop: 0 for a block that is skipped. -/
def initPaging.mapBlock (fuel : Nat) (s : ByteMachine) (pml4 : Word) (block : PmBlock) :
    Except Abort (Int × ByteMachine) :=
  -- `continue`
  if block.type = .mmio ∨ block.type = .reserved then .ok (0, s)
  else
    let start := block.address
    let «end» := start + block.framesTotal * frameSize
    -- page 0 is left unmapped
    let start := if start < frameSize then frameSize else start
    if «end» ≤ start then .ok (0, s)
    else mapRange fuel s pml4 start start («end» - start) readWriteBit

/-- The loop of `init_paging`, with `left` blocks to go. -/
def initPaging.loop (fuel : Nat) (pml4 : Word) : (left i : Nat) → ByteMachine →
    Except Abort (Int × ByteMachine)
  | 0, _, s => .ok (0, s)
  | left + 1, i, s =>
      match s.pmm.blocks[i]? with
      | none => .ok (0, s)
      | some block => do
          let (mapped, s) ← initPaging.mapBlock fuel s pml4 block
          if mapped ≠ 0 then return (-1, s)
          else initPaging.loop fuel pml4 left (i + 1) s

/-- `init_paging`: its result, `system->pml4`, and the machine. -/
def initPaging (fuel : Nat) (s : ByteMachine) (fb : Framebuffer) :
    Except Abort (Int × Word × ByteMachine) := do
  let (pml4, s) ← initPml4 s
  if pml4 = null then return (-1, pml4, s)
  else do
    let (mapped, s) ← initPaging.loop fuel pml4 s.pmm.blocks.length 0 s
    if mapped ≠ 0 then return (-1, pml4, s)
    else do
      let (mapped, s) ← mapRange fuel s pml4 fb.buffer fb.buffer fb.length readWriteBit
      if mapped ≠ 0 then return (-1, pml4, s) else return (0, pml4, s)

end Flat

/-- `gdt_entry_count` -/
def gdtEntryCount : Nat := 5

/-- `colonel_t`, the fields that `kernel_start` uses; the pmm that `physical_memory` points
    to is the machine's. -/
structure Colonel where
  physicalMemory : Word
  pml4 : Word
  gdt : Word
  fb : Framebuffer
  deriving Repr, DecidableEq

/-- Which of its endless loops `kernel_start` ends in. -/
inductive KernelHalt where
  | noGdtDescriptor
  | noGdtBase
  | noPageTables
  | started
  deriving Repr, DecidableEq

/-- The kernel in that loop. -/
structure KernelEnd where
  halt : KernelHalt
  machine : ByteMachine
  system : Colonel
  cpu : Cpu
  console : List Message

def nullSegment : Word := gdtEntryCreate 0#32 0#32 0#8 0#8

def kernelCodeSegment : Word := gdtEntryCreate 0#32 0xFFFFF#32 0x9A#8 0xA#8

def kernelDataSegment : Word := gdtEntryCreate 0#32 0xFFFFF#32 0x92#8 0xC#8

def userCodeSegment : Word := gdtEntryCreate 0#32 0xFFFFF#32 0xFA#8 0xA#8

def userDataSegment : Word := gdtEntryCreate 0#32 0xFFFFF#32 0xF2#8 0xC#8

/-- The five entries, in their order. -/
def kernelSegments : List Word :=
  [nullSegment, kernelCodeSegment, kernelDataSegment, userCodeSegment, userDataSegment]

/-- The five calls of `gdt_entry_add`. -/
def addKernelSegments (mem : Memory 64) (gdt : Word) : Memory 64 :=
  let mem := gdtEntryAdd mem gdt 0#8 nullSegment
  let mem := gdtEntryAdd mem gdt 1#8 kernelCodeSegment
  let mem := gdtEntryAdd mem gdt 2#8 kernelDataSegment
  let mem := gdtEntryAdd mem gdt 3#8 userCodeSegment
  gdtEntryAdd mem gdt 4#8 userDataSegment

/-- The messages before the GDT.  `kernelStart` is the address of the function itself. -/
def kernelGreeting (packageString : CString) (kernelStart : Word) (sys : Colonel) : List Message :=
  [(format "%s\n\n", [.string packageString]),
   (format "Copied physical memory map to 0x%x.\n", [.uint64 sys.physicalMemory]),
   (format "kernel_start() is at 0x%llx.\n", [.uint64 kernelStart]),
   (format "Starting kernel...\n", [])]

/-- `kernel_start`, with a bound on the turns of each `map_range`. -/
def kernelStart (fuel : Nat) (packageString : CString) (address : Word) (sys : Colonel) (cpu : Cpu)
    (s : ByteMachine) : Except Abort KernelEnd := do
  let console := kernelGreeting packageString address sys
  let (gdt, pmm) ← frameAllocate s.pmm
  let s := { s with pmm }
  if gdt = noFrame then
    return ⟨.noGdtDescriptor, s, sys, cpu,
      console ++ [(format "Failed to allocate GDT descriptor.\n", [])]⟩
  else do
    let sys := { sys with gdt }
    let console := console ++ [(format "Created GDT descriptor at 0x%x.\n", [.uint64 gdt])]
    let s := { s with bytes := setGdtLimit s.bytes gdt (BitVec.ofNat 16 (gdtEntryCount * 8 - 1)) }
    let (base, pmm) ← frameAllocate s.pmm
    let s := { s with pmm }
    if base = noFrame then
      return ⟨.noGdtBase, s, sys, cpu, console ++ [(format "Failed to allocate GDT base.\n", [])]⟩
    else do
      let s := { s with bytes := addKernelSegments (setGdtBase s.bytes gdt base) gdt }
      let cpu := gdtFlush cpu s.bytes gdt
      let console := console ++ [(format "Setup GDT at 0x%x, limit: 0x%x.\n",
        [.uint64 (gdtBase s.bytes gdt), .int ((gdtLimit s.bytes gdt).setWidth 32)])]
      let (mapped, pml4, s) ← Flat.initPaging fuel s sys.fb
      let sys := { sys with pml4 }
      if mapped ≠ 0 then
        return ⟨.noPageTables, s, sys, cpu,
          console ++ [(format "Failed to build kernel page tables.\n", [])]⟩
      else
        -- `set_cr3`
        return ⟨.started, s, sys, { cpu with cr3 := pml4 },
          console ++ [(format "Loaded kernel PML4 at 0x%llx.\n", [.uint64 pml4])]⟩

end EchOS
