/-
  EchOS.Kernel.Memory.Paging

  The page tables of `kernel/memory/paging.{h,c}`.

  Tables are reached by their physical address, so the memory is a map from
  addresses to tables of 512 entries, and a table pointer is a word with NULL as
  0.  A function gets the machine (pmm and memory) and returns it with its
  result; `int` results are `Int`.

  `map_range`'s loop has no bound of its own: with an end in the last page of the
  address space it never sees `vaddr >= end`.  The model gives it a step bound
  and aborts with `outOfFuel` when the bound is used up.

  `walk` is not code of the repository: it is what the processor does with the
  tables, four levels with 2 MiB leaves in the page directory.
-/
import EchOS.Kernel.Memory.Physical
import EchOS.Lib.PointerTree

namespace EchOS

/-! ## Constants of `paging.h` -/

/-- `PHYS_ADDR_MASK` -/
def physAddrMask : Word := 0x000FFFFFFFFFF000#64

/-- `PRESENT_BIT` -/
def presentBit : Word := 0x1#64

/-- `READ_WRITE_BIT` -/
def readWriteBit : Word := 0x2#64

/-- `USER_SUPERVISOR_BIT` -/
def userSupervisorBit : Word := 0x4#64

/-- `PAGE_SIZE_BIT` -/
def pageSizeBit : Word := 0x80#64

/-- `large_page_size` -/
def largePageSize : Word := 0x200000#64

/-! ## Tables in memory -/

/-- An index into a table. -/
abbrev Index := BitVec 9

/-- `(vaddr >> 12) & 0x1FF` -/
def index1 (vaddr : Word) : Index := (vaddr >>> 12).setWidth 9

/-- `(vaddr >> 21) & 0x1FF` -/
def index2 (vaddr : Word) : Index := (vaddr >>> 21).setWidth 9

/-- `(vaddr >> 30) & 0x1FF` -/
def index3 (vaddr : Word) : Index := (vaddr >>> 30).setWidth 9

/-- `(vaddr >> 39) & 0x1FF` -/
def index4 (vaddr : Word) : Index := (vaddr >>> 39).setWidth 9

/-- Physical memory, as the tables in it. -/
abbrev Mem := PointerTree.Store Word Index Word

/-- What the paging functions work on. -/
structure Machine where
  pmm : Pmm
  mem : Mem

/-- `NULL`, as a table pointer. -/
def null : Word := 0#64

/-- `table[index] = entry` -/
def Machine.store (s : Machine) (table : Word) (index : Index) (entry : Word) : Machine :=
  { s with mem := PointerTree.write s.mem table index entry }

/-- `init_pt_entry` -/
def initPtEntry (paddr flags : Word) : Word := (paddr &&& physAddrMask) ||| flags

/-- `alloc_table` -/
def allocTable (s : Machine) : Except Abort (Word × Machine) := do
  let (frame, pmm) ← frameAllocate s.pmm
  if frame = noFrame then return (null, { s with pmm })
  else return (frame, { pmm, mem := PointerTree.fill s.mem frame 0#64 })

/-- `next_table` -/
def nextTable (s : Machine) (table : Word) (index : Index) (flags : Word) :
    Except Abort (Word × Machine) :=
  if s.mem table index &&& presentBit = 0 then do
    let (next, s) ← allocTable s
    -- no frame left
    if next = null then return (null, s)
    else
      return (next, s.store table index
        (next ||| presentBit ||| readWriteBit ||| (flags &&& userSupervisorBit)))
  -- a 2 MiB page, which has no table below it
  else if s.mem table index &&& pageSizeBit ≠ 0 then .ok (null, s)
  else
    -- an old table: user pages below need the bit above
    let s := s.store table index (s.mem table index ||| (flags &&& userSupervisorBit))
    .ok (s.mem table index &&& physAddrMask, s)

/-- `init_pml4` -/
def initPml4 (s : Machine) : Except Abort (Word × Machine) := allocTable s

/-- Where a 2 MiB entry of a page directory maps `vaddr`'s byte:
    `(entry & PHYS_ADDR_MASK & ~(large_page_size - 1)) + (vaddr & (large_page_size - 1))`. -/
def largeTarget (entry vaddr : Word) : Word :=
  (entry &&& physAddrMask &&& ~~~(largePageSize - 1#64)) + (vaddr &&& (largePageSize - 1#64))

/-- `map_page` -/
def mapPage (s : Machine) (pml4 vaddr paddr flags : Word) : Except Abort (Int × Machine) := do
  let (pdp, s) ← nextTable s pml4 (index4 vaddr) flags
  if pdp = null then return (-1, s)
  else do
    let (pd, s) ← nextTable s pdp (index3 vaddr) flags
    if pd = null then return (-1, s)
    -- already covered by a 2 MiB page: fine if it maps to the same frame
    else if s.mem pd (index2 vaddr) &&& presentBit ≠ 0 ∧
        s.mem pd (index2 vaddr) &&& pageSizeBit ≠ 0 then
      let mapped := largeTarget (s.mem pd (index2 vaddr)) vaddr
      return (if mapped = paddr &&& physAddrMask then 0 else -1, s)
    else do
      let (pt, s) ← nextTable s pd (index2 vaddr) flags
      if pt = null then return (-1, s)
      else return (0, s.store pt (index1 vaddr) (initPtEntry paddr (flags ||| presentBit)))

/-- `map_large_page` -/
def mapLargePage (s : Machine) (pml4 vaddr paddr flags : Word) :
    Except Abort (Int × Machine) := do
  let (pdp, s) ← nextTable s pml4 (index4 vaddr) flags
  if pdp = null then return (-1, s)
  else do
    let (pd, s) ← nextTable s pdp (index3 vaddr) flags
    if pd = null then return (-1, s)
    -- don't replace a page table: its 4 KiB mappings may differ
    else if s.mem pd (index2 vaddr) &&& presentBit ≠ 0 ∧
        s.mem pd (index2 vaddr) &&& pageSizeBit = 0 then return (-1, s)
    else
      return (0, s.store pd (index2 vaddr)
        ((paddr &&& physAddrMask) ||| flags ||| presentBit ||| pageSizeBit))

/-- The test that guards the 2 MiB step of `map_range`: both addresses aligned,
    and the range covers the page. -/
def LargeFits (vaddr paddr «end» : Word) : Prop :=
  vaddr &&& (largePageSize - 1#64) = 0 ∧ paddr &&& (largePageSize - 1#64) = 0 ∧
    largePageSize ≤ «end» - vaddr

instance (vaddr paddr «end» : Word) : Decidable (LargeFits vaddr paddr «end») :=
  inferInstanceAs (Decidable (_ ∧ _ ∧ _))

/-- The condition of `map_range`'s 2 MiB step: the result of the call, which `&&`
    leaves out when the test fails. -/
def mapRange.tryLarge (s : Machine) (pml4 vaddr paddr «end» flags : Word) :
    Except Abort (Int × Machine) :=
  if LargeFits vaddr paddr «end» then mapLargePage s pml4 vaddr paddr flags else .ok (-1, s)

/-- The loop of `map_range`. -/
def mapRange.loop (pml4 «end» flags : Word) :
    (fuel : Nat) → Machine → (vaddr paddr : Word) → Except Abort (Int × Machine)
  | 0, _, _, _ => .error .outOfFuel
  | fuel + 1, s, vaddr, paddr =>
      if vaddr < «end» then do
        let (large, s) ← mapRange.tryLarge s pml4 vaddr paddr «end» flags
        if large = 0 then
          mapRange.loop pml4 «end» flags fuel s (vaddr + largePageSize) (paddr + largePageSize)
        else do
          let (small, s) ← mapPage s pml4 vaddr paddr flags
          if small ≠ 0 then return (-1, s)
          else mapRange.loop pml4 «end» flags fuel s (vaddr + frameSize) (paddr + frameSize)
      else .ok (0, s)

/-- `map_range` -/
def mapRange (fuel : Nat) (s : Machine) (pml4 vaddr paddr length flags : Word) :
    Except Abort (Int × Machine) :=
  mapRange.loop pml4 (vaddr + length) flags fuel s (pageBase vaddr) (pageBase paddr)

/-! ## The processor's walk -/

/-- What a virtual address translates to, with the rights its entries give. -/
structure Translation where
  paddr : Word
  writable : Bool
  user : Bool
  deriving Repr, DecidableEq

/-- A translation through the given entries: every level has to allow writes, and
    every level has to allow user accesses. -/
def Translation.through (paddr : Word) (entries : List Word) : Translation :=
  { paddr
    writable := entries.all fun e => e &&& readWriteBit ≠ 0
    user := entries.all fun e => e &&& userSupervisorBit ≠ 0 }

/-- The four-level translation of a 48-bit virtual address. -/
def walk (mem : Mem) (pml4 vaddr : Word) : Option Translation :=
  let e4 := mem pml4 (index4 vaddr)
  if e4 &&& presentBit = 0 then none
  else
    let e3 := mem (e4 &&& physAddrMask) (index3 vaddr)
    if e3 &&& presentBit = 0 then none
    else
      let e2 := mem (e3 &&& physAddrMask) (index2 vaddr)
      if e2 &&& presentBit = 0 then none
      else if e2 &&& pageSizeBit ≠ 0 then
        some (.through (largeTarget e2 vaddr) [e4, e3, e2])
      else
        let e1 := mem (e2 &&& physAddrMask) (index1 vaddr)
        if e1 &&& presentBit = 0 then none
        else some (.through ((e1 &&& physAddrMask) + (vaddr &&& 0xFFF#64)) [e4, e3, e2, e1])

/-- The physical address a virtual address translates to. -/
def translate (mem : Mem) (pml4 vaddr : Word) : Option Word :=
  (walk mem pml4 vaddr).map Translation.paddr

end EchOS
