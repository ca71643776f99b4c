/-
  EchOS.Efi.Main

  `efi_main` of `efi-stage/main.c` from the allocation of `map_buffer` on: the
  loop that gets the final memory map and exits boot services, and what follows
  once it succeeds.

  `pmm_store` and the capacity of the buffer are what the code before left.  How a
  descriptor is read from memory, `descriptorAt`, is given by the firmware's headers.
  The retry loop and the walk over the descriptors get a step bound.
-/
import EchOS.Efi.Firmware

namespace EchOS

open Oracle (call)

def print (format : String) (args : List Word) : Efi Unit :=
  call (I := efiInterface) (.print ⟨format, args⟩)

def allocatePool (poolSize : Word) : Efi (EfiStatus × Word) :=
  call (I := efiInterface) (.allocatePool poolSize)

def getMemoryMap (size memoryMap : Word) : Efi (MapReply size) :=
  call (I := efiInterface) (.getMemoryMap size memoryMap)

def exitBootServices (key : Word) : Efi EfiStatus :=
  call (I := efiInterface) (.exitBootServices key)

/-- `efi_malloc` -/
def efiMalloc (poolSize : Word) : Efi Word := do
  let reply ← allocatePool poolSize
  if reply.1 = efiOutOfResources then do
    print "out of resources for pool\n" []
    pure 0#64
  else if reply.1 = efiInvalidParameter then do
    print "invalid pool type\n" []
    pure 0#64
  else if efiError reply.1 then do
    print "AllocatePool failed: 0x%lx\n" [reply.1]
    pure 0#64
  else pure reply.2

/-- `build_pmm`'s loop over the descriptors in memory. -/
def buildPmmAt.loop (descriptorAt : Word → EfiMemoryDescriptor) (blockCapacity : Word)
    (mmap : EfiMmap) : (fuel : Nat) → (offset : Word) → BuildState → Except Abort BuildState
  | 0, _, _ => .error .outOfFuel
  | fuel + 1, offset, st =>
      if offset < mmap.stop then
        let desc := descriptorAt offset
        let next := offset + mmap.descriptorSize
        -- `continue`: an empty descriptor gets no block
        if desc.numberOfPages = 0#64 then
          buildPmmAt.loop descriptorAt blockCapacity mmap fuel next st
        -- `break`: the pointer table is full
        else if BitVec.ofNat 64 st.blocks.length = blockCapacity then .ok st
        else
          buildPmmAt.loop descriptorAt blockCapacity mmap fuel next (buildPmm.addBlock desc st)
      else .ok st

/-- `build_pmm` on a map in memory. -/
def buildPmmAt (descriptorAt : Word → EfiMemoryDescriptor) (storage : PmmStorage)
    (mmap : EfiMmap) (fuel : Nat) : Except Abort Pmm := do
  let st ← buildPmmAt.loop descriptorAt storage.blockCapacity mmap fuel mmap.start
    { blocks := [], bitmap := storage.bitmap, nextMap := 0, wordsLeft := storage.bitmapWords }
  pure { blocks := st.blocks, bitmap := st.bitmap }

/-- What `efi_main` starts this part with. -/
structure EfiMain where
  pmmStore : PmmStorage
  mapCapacity : Word
  descriptorAt : ByteMemory → Word → EfiMemoryDescriptor

namespace EfiMain

variable (efi : EfiMain)

/-- `hang:`, and `halt:` after it. -/
def hang : Efi (Except Abort Unit) := do
  print "Hanging now.\n" []
  pure (.ok ())

/-- After the retry loop: interrupts are off, and the kernel is started. -/
def start (mmap : EfiMmap) (memory : ByteMemory) (fuel : Nat) : Efi (Except Abort Unit) := do
  call (I := efiInterface) (.buildPmm mmap memory)
  match buildPmmAt (efi.descriptorAt memory) efi.pmmStore mmap fuel with
  | .error abort => pure (.error abort)
  | .ok physicalMemory => do
      call (I := efiInterface) (.kernelStart mmap.key physicalMemory)
      pure (.ok ())

/-- The retry loop. -/
def retry (mapBuffer : Word) (walk : Nat) :
    (fuel : Nat) → EfiMmap → ByteMemory → Efi (Except Abort Unit)
  | 0, _, _ => pure (.error .outOfFuel)
  | fuel + 1, mmap, memory => do
      -- GetMemoryMap overwrites the size, so each turn sets it anew
      let mmap := { mmap with size := efi.mapCapacity }
      let reply ← getMemoryMap mmap.size mapBuffer
      let memory := writeBytes memory mapBuffer reply.data
      let mmap := { mmap with
        size := reply.size, key := reply.key, descriptorSize := reply.descriptorSize }
      if reply.status ≠ efiSuccess then do
        print "GetMemoryMap failed: 0x%lx\n" [reply.status]
        hang
      else do
        let result ← exitBootServices mmap.key
        if result = efiSuccess then
          efi.start { mmap with start := mapBuffer, stop := mapBuffer + mmap.size } memory walk
        -- `goto halt`: anything else is no stale key
        else if result ≠ efiInvalidParameter then pure (.ok ())
        else retry mapBuffer walk fuel mmap memory

/-- `efi_main` from the allocation of `map_buffer` on; `.ok` means that it halted,
    or that the kernel returned. -/
def run (mmap : EfiMmap) (memory : ByteMemory) (walk fuel : Nat) :
    Efi (Except Abort Unit) := do
  let mapBuffer ← efiMalloc efi.mapCapacity
  if mapBuffer = 0#64 then hang else efi.retry mapBuffer walk fuel mmap memory

end EfiMain

end EchOS
