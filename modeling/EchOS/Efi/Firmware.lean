/-
  EchOS.Efi.Firmware

  What the EFI stage sees of the firmware: status codes, the calls it makes and
  the answers they can get.  The firmware is an environment in the sense of
  `Oracle`: it may answer with any status and change its memory map at any time.
  Of GetMemoryMap it keeps one promise, that it writes at most as many bytes as the
  size passed in, and reports that number when it succeeds.

  The two calls by which `efi_main` leaves the firmware behind, `build_pmm` and
  `kernel_start`, are recorded in the same history, with what they are given.
-/
import EchOS.Efi.Pmm
import EchOS.Lib.Oracle

namespace EchOS

/-- `EFI_STATUS`: any 64-bit value, with the top bit set for errors. -/
abbrev EfiStatus := Word

/-- `EFI_SUCCESS` -/
def efiSuccess : EfiStatus := 0#64

/-- `EFI_INVALID_PARAMETER` -/
def efiInvalidParameter : EfiStatus := 0x8000000000000002#64

/-- `EFI_OUT_OF_RESOURCES` -/
def efiOutOfResources : EfiStatus := 0x8000000000000009#64

/-- `EFI_ERROR` -/
def efiError (status : EfiStatus) : Bool := status.msb

/-- A call of `Print`: the format and the arguments. -/
structure PrintCall where
  format : String
  args : List Word
  deriving Repr, DecidableEq

/-- The bytes at every address, as far as the EFI stage reads and writes them. -/
abbrev ByteMemory := Word → Byte

/-- `data` is stored from `p` on. -/
def writeBytes (memory : ByteMemory) (p : Word) (data : List Byte) : ByteMemory :=
  fun a => (data[(a - p).toNat]?).getD (memory a)

/-- `efi_mmap_t` -/
structure EfiMmap where
  start : Word
  stop : Word
  size : Word
  key : Word
  descriptorSize : Word
  deriving Repr, DecidableEq

/-- The answer of GetMemoryMap to a call with a buffer of `capacity` bytes: the
    status, the bytes written, and what the in/out parameters hold afterwards. -/
structure MapReply (capacity : Word) where
  status : EfiStatus
  data : List Byte
  size : Word
  key : Word
  descriptorSize : Word
  fits : data.length ≤ capacity.toNat
  size_eq : status = efiSuccess → size.toNat = data.length

/-- The calls of the EFI stage. -/
inductive EfiCall where
  | allocatePool (poolSize : Word)
  | print (message : PrintCall)
  | getMemoryMap (size : Word) (memoryMap : Word)
  | exitBootServices (key : Word)
  | buildPmm (mmap : EfiMmap) (memory : ByteMemory)
  | kernelStart (mmapKey : Word) (physicalMemory : Pmm)

/-- The calls that need boot services. -/
def EfiCall.BootService : EfiCall → Prop
  | .buildPmm _ _ | .kernelStart _ _ => False
  | _ => True

/-- The answers: AllocatePool returns a status and the buffer. -/
def efiInterface : Oracle.Interface where
  Call := EfiCall
  Answer
    | .allocatePool _ => EfiStatus × Word
    | .getMemoryMap size _ => MapReply size
    | .exitBootServices _ => EfiStatus
    | .print _ | .buildPmm _ _ | .kernelStart _ _ => Unit

/-- A program of the EFI stage. -/
abbrev Efi := Oracle.Prog efiInterface

abbrev EfiEvent := Oracle.Event efiInterface
abbrev EfiHistory := Oracle.History efiInterface
abbrev EfiFirmware := Oracle.Environment efiInterface

end EchOS
