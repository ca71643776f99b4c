/-
  EchOS

  The memory subsystem of the kernel: the physical memory manager, the page
  tables, the heap reservation and the identity map that the kernel starts with, on
  tables and on memory as bytes; `kernel_start`, with the GDT, and the system that
  runs after it; the IDT, the console and the dumps of paging entries; its walk over
  the ACPI table of processors and its search of the XSDT; the EFI stage, from the
  files it reads to the hand-over of the manager it builds; and the C library's
  `vsprintf`, `itoa`, `reverse_string`, `strcmp`, `memcmp`, `memset` and `memcpy`, and
  its stack.
-/
import EchOS.CLib.Compare
import EchOS.CLib.ReverseString
import EchOS.CLib.Stack
import EchOS.CLib.VsprintfReads
import EchOS.CLib.VsprintfTexts
import EchOS.Efi.FileRead
import EchOS.Efi.HandOver
import EchOS.Efi.PmmCompare
import EchOS.Efi.ReserveEnough
import EchOS.Kernel.Acpi.Madt
import EchOS.Kernel.Acpi.Xsdt
import EchOS.Kernel.IdentityMap
import EchOS.Kernel.Idt
import EchOS.Kernel.IdtTable
import EchOS.Kernel.Memory.AddressSpace
import EchOS.Kernel.Memory.GrantedRights
import EchOS.Kernel.Memory.NullFrame
import EchOS.Kernel.Memory.PageOffsets
import EchOS.Kernel.Memory.PhysicalFrees
import EchOS.Kernel.Memory.PmmSize
import EchOS.Kernel.Memory.RangeEnd
import EchOS.Kernel.Memory.RefRange
import EchOS.Kernel.PagingDebug
import EchOS.Kernel.Running
