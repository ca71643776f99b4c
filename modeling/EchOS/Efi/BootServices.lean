/-
  EchOS.Efi.BootServices

  The boot services and file protocols that hand out resources: pool buffers, and
  open volumes and files.

  A call may be answered with any status.  An answer below `EFI_ERROR` stores what it
  returns in the caller's variable and hands out its resource; any other leaves the
  variable and the resources as they were (`Reply.out`).  AllocatePool allocates with
  EFI_SUCCESS only.  FreePool and Close give their resource back when they are
  called: nobody looks at their status.

  The GUIDs, the pool type and the size of the buffer for the file info are constants
  of the headers and not part of the calls.
-/
import EchOS.Efi.Firmware
import EchOS.Lib.Ledger

namespace EchOS

/-- `EFI_BUFFER_TOO_SMALL` -/
def efiBufferTooSmall : EfiStatus := 0x8000000000000005#64

/-- `EFI_NOT_FOUND` -/
def efiNotFound : EfiStatus := 0x800000000000000E#64

/-- `EFI_END_OF_FILE` -/
def efiEndOfFile : EfiStatus := 0x800000000000001F#64

/-- What a successful call returns a pointer to. -/
abbrev Pointer := { p : Word // p ≠ 0#64 }

/-- A status, and what a call stores in its out-parameter if it succeeds. -/
structure Reply (α : Type) where
  status : EfiStatus
  value : α

namespace Reply

/-- The call failed. -/
def Failed {α : Type} (r : Reply α) : Prop := efiError r.status = true

instance {α : Type} (r : Reply α) : Decidable r.Failed := inferInstanceAs (Decidable (_ = _))

/-- The variable behind an out-parameter, after the call. -/
def out (r : Reply Word) (old : Word) : Word := if r.Failed then old else r.value

/-- The same for a pointer. -/
def outPointer (r : Reply Pointer) (old : Word) : Word := if r.Failed then old else r.value

end Reply

/-- The handles that LocateHandleBuffer found: how many, and the buffer they are in. -/
structure Located where
  handleCount : Word
  handles : Pointer

/-- A GetMemoryMap that succeeds reports at least one byte. -/
structure MapFilled (capacity : Word) extends MapReply capacity where
  nonempty : status = efiSuccess → size ≠ 0#64

/-- The calls.  `handleProtocol handles index` is about `handles[index]`. -/
inductive BootCall where
  | locateHandleBuffer
  | handleProtocol (handles index : Word)
  | openVolume (fs : Word)
  | open (root filename mode attributes : Word)
  | close (file : Word)
  | getInfo (file : Word)
  | read (file length data : Word)
  | allocatePool (poolSize : Word)
  | freePool (buffer : Word)
  | getMemoryMap (size memoryMap : Word)
  | print (message : PrintCall)
  deriving Repr, DecidableEq

/-- GetInfo returns the file's size, and Read the number of bytes it has read. -/
def bootServices : Oracle.Interface where
  Call := BootCall
  Answer
    | .locateHandleBuffer => Reply Located
    | .handleProtocol _ _ | .openVolume _ | .open _ _ _ _ => Reply Pointer
    | .getInfo _ | .read _ _ _ => Reply Word
    | .allocatePool _ => Reply Pointer
    | .getMemoryMap size _ => MapFilled size
    | .close _ | .freePool _ => EfiStatus
    | .print _ => Unit

/-- A program that uses them. -/
abbrev Boot := Oracle.Prog bootServices

abbrev BootEvent := Oracle.Event bootServices
abbrev BootHistory := Oracle.History bootServices
abbrev BootFirmware := Oracle.Environment bootServices

/-! ## Resources -/

/-- A pool buffer, or an open file or volume root. -/
inductive BootResource where
  | pool (buffer : Word)
  | file (file : Word)
  deriving Repr, DecidableEq

/-- What an answer that succeeded handed out. -/
def Reply.taken {α : Type} (r : Reply α) (resource : α → BootResource) : Option BootResource :=
  if r.Failed then none else some (resource r.value)

/-- Which resources the calls need, give back and hand out. -/
def bootAccounting : Oracle.Accounting bootServices BootResource where
  needs
    | .handleProtocol handles _ => [.pool handles]
    | .open root _ _ _ => [.file root]
    | .getInfo file => [.file file]
    | .read file _ data => [.file file, .pool data]
    | .getMemoryMap _ memoryMap => if memoryMap = 0#64 then [] else [.pool memoryMap]
    | _ => []
  gives
    | .close file => some (.file file)
    | .freePool buffer => some (.pool buffer)
    | _ => none
  takes
    | .locateHandleBuffer, reply => reply.taken fun located => .pool located.handles
    | .openVolume _, reply => reply.taken fun root => .file root
    | .open _ _ _ _, reply => reply.taken fun file => .file file
    | .allocatePool _, reply =>
        if reply.status = efiSuccess then some (.pool reply.value) else none
    | _, _ => none

section Steps

open Oracle.Accounting (step_needs step_takes step_gives)

variable {held left : Multiset BootResource}

theorem locateHandleBuffer_step_failed {reply : Reply Located} (h : reply.Failed) :
    bootAccounting.step held ⟨.locateHandleBuffer, reply⟩ = some held :=
  step_needs (List.forall_mem_nil _) rfl (if_pos h)

theorem locateHandleBuffer_step {reply : Reply Located} (h : ¬ reply.Failed) :
    bootAccounting.step held ⟨.locateHandleBuffer, reply⟩
      = some (.pool reply.value.handles ::ₘ held) :=
  step_takes (List.forall_mem_nil _) rfl (if_neg h)

theorem handleProtocol_step {handles : Word} (hheld : BootResource.pool handles ∈ held) (index : Word)
    (reply : Reply Pointer) :
    bootAccounting.step held ⟨.handleProtocol handles index, reply⟩ = some held :=
  step_needs (List.forall_mem_singleton.mpr hheld) rfl rfl

theorem openVolume_step_failed (fs : Word) {reply : Reply Pointer} (h : reply.Failed) :
    bootAccounting.step held ⟨.openVolume fs, reply⟩ = some held :=
  step_needs (List.forall_mem_nil _) rfl (if_pos h)

theorem openVolume_step (fs : Word) {reply : Reply Pointer} (h : ¬ reply.Failed) :
    bootAccounting.step held ⟨.openVolume fs, reply⟩ = some (.file reply.value ::ₘ held) :=
  step_takes (List.forall_mem_nil _) rfl (if_neg h)

section Open

variable {root : Word} (hroot : BootResource.file root ∈ held) (filename mode attributes : Word)
  {reply : Reply Pointer}

include hroot

theorem open_step_failed (h : reply.Failed) :
    bootAccounting.step held ⟨.open root filename mode attributes, reply⟩ = some held :=
  step_needs (List.forall_mem_singleton.mpr hroot) rfl (if_pos h)

theorem open_step (h : ¬ reply.Failed) :
    bootAccounting.step held ⟨.open root filename mode attributes, reply⟩
      = some (.file reply.value ::ₘ held) :=
  step_takes (List.forall_mem_singleton.mpr hroot) rfl (if_neg h)

end Open

theorem close_step {file : Word} (hheld : held = .file file ::ₘ left) (status : EfiStatus) :
    bootAccounting.step held ⟨.close file, status⟩ = some left :=
  step_gives (List.forall_mem_nil _) rfl rfl hheld

theorem freePool_step {buffer : Word} (hheld : held = .pool buffer ::ₘ left) (status : EfiStatus) :
    bootAccounting.step held ⟨.freePool buffer, status⟩ = some left :=
  step_gives (List.forall_mem_nil _) rfl rfl hheld

theorem getInfo_step {file : Word} (hheld : BootResource.file file ∈ held) (reply : Reply Word) :
    bootAccounting.step held ⟨.getInfo file, reply⟩ = some held :=
  step_needs (List.forall_mem_singleton.mpr hheld) rfl rfl

theorem read_step {file data : Word} (hfile : BootResource.file file ∈ held)
    (hdata : BootResource.pool data ∈ held) (length : Word) (reply : Reply Word) :
    bootAccounting.step held ⟨.read file length data, reply⟩ = some held :=
  step_needs (List.forall_mem_cons.mpr ⟨hfile, List.forall_mem_singleton.mpr hdata⟩) rfl rfl

theorem allocatePool_step_failed (poolSize : Word) {reply : Reply Pointer}
    (h : reply.status ≠ efiSuccess) :
    bootAccounting.step held ⟨.allocatePool poolSize, reply⟩ = some held :=
  step_needs (List.forall_mem_nil _) rfl (if_neg h)

theorem allocatePool_step (poolSize : Word) {reply : Reply Pointer} (h : reply.status = efiSuccess) :
    bootAccounting.step held ⟨.allocatePool poolSize, reply⟩ = some (.pool reply.value ::ₘ held) :=
  step_takes (List.forall_mem_nil _) rfl (if_pos h)

theorem getMemoryMap_step {size memoryMap : Word}
    (hheld : memoryMap ≠ 0#64 → BootResource.pool memoryMap ∈ held) (reply : MapFilled size) :
    bootAccounting.step held ⟨.getMemoryMap size memoryMap, reply⟩ = some held := by
  refine step_needs (fun r hr => ?_) rfl rfl
  have hr : r ∈ if memoryMap = 0#64 then [] else [BootResource.pool memoryMap] := hr
  by_cases hnull : memoryMap = 0#64
  · rw [if_pos hnull] at hr
    cases hr
  · rw [if_neg hnull, List.mem_singleton] at hr
    rw [hr]
    exact hheld hnull

theorem print_step (message : PrintCall) (answer : bootServices.Answer (.print message)) :
    bootAccounting.step held ⟨.print message, answer⟩ = some held :=
  step_needs (List.forall_mem_nil _) rfl rfl

end Steps

/-! ## Programs -/

namespace Boot

open Oracle (call)

def locateHandleBuffer : Boot (Reply Located) :=
  call (I := bootServices) .locateHandleBuffer

def handleProtocol (handles index : Word) : Boot (Reply Pointer) :=
  call (I := bootServices) (.handleProtocol handles index)

def openVolume (fs : Word) : Boot (Reply Pointer) :=
  call (I := bootServices) (.openVolume fs)

def openFile (root filename mode attributes : Word) : Boot (Reply Pointer) :=
  call (I := bootServices) (.open root filename mode attributes)

def close (file : Word) : Boot EfiStatus :=
  call (I := bootServices) (.close file)

def getInfo (file : Word) : Boot (Reply Word) :=
  call (I := bootServices) (.getInfo file)

def read (file length data : Word) : Boot (Reply Word) :=
  call (I := bootServices) (.read file length data)

def allocatePool (poolSize : Word) : Boot (Reply Pointer) :=
  call (I := bootServices) (.allocatePool poolSize)

def freePool (buffer : Word) : Boot EfiStatus :=
  call (I := bootServices) (.freePool buffer)

def getMemoryMap (size memoryMap : Word) : Boot (MapFilled size) :=
  call (I := bootServices) (.getMemoryMap size memoryMap)

def print (format : String) (args : List Word) : Boot Unit :=
  call (I := bootServices) (.print ⟨format, args⟩)

/-- The variable that AllocatePool is given, after the call. -/
def pooled (reply : Reply Pointer) (old : Word) : Word :=
  if reply.status = efiSuccess then reply.value else old

/-- `efi_malloc` -/
def efiMalloc (poolSize : Word) : Boot Word := do
  let reply ← allocatePool poolSize
  let handle := pooled reply 0#64
  if reply.status = efiOutOfResources then do
    print "out of resources for pool\n" []
    pure 0#64
  else if reply.status = efiInvalidParameter then do
    print "invalid pool type\n" []
    pure 0#64
  else if efiError reply.status then do
    print "AllocatePool failed: 0x%lx\n" [reply.status]
    pure 0#64
  else pure handle

/-- `efi_free` -/
def efiFree (handle : Word) : Boot Unit := do
  let _ ← freePool handle
  pure ()

open Oracle (Emits)

/-- `efi_malloc` returns a buffer that it has just been given, or NULL and has none. -/
theorem efiMalloc_emits (poolSize : Word) : Emits (efiMalloc poolSize) fun p events =>
    (p = 0#64 ∧ ∀ held, bootAccounting.ledger held events = some held) ∨
    ∃ reply : Reply Pointer, reply.status = efiSuccess ∧ reply.value = p ∧
      events = [⟨.allocatePool poolSize, reply⟩] := by
  refine Emits.call_bind fun reply => ?_
  -- the three messages
  have hfailed : ∀ format args, reply.status ≠ efiSuccess →
      Emits (print format args >>= fun _ => (pure 0#64 : Boot Word)) fun p later =>
        p = 0#64 ∧ ∀ held, bootAccounting.ledger held
          ((⟨.allocatePool poolSize, reply⟩ : BootEvent) :: later) = some held := by
    intro format args hstatus
    refine Emits.call_bind fun _ => Emits.pure ⟨rfl, fun held => ?_⟩
    simp [allocatePool_step_failed poolSize hstatus, print_step]
  refine Emits.ite (fun h => ?_) fun _ => Emits.ite (fun h => ?_) fun _ =>
    Emits.ite (fun h => ?_) fun h => ?_
  · exact (hfailed _ _ (by rw [h]; decide)).conseq fun _ _ h => .inl h
  · exact (hfailed _ _ (by rw [h]; decide)).conseq fun _ _ h => .inl h
  -- success is no error
  · refine (hfailed _ _ fun hsuccess => ?_).conseq fun _ _ h => .inl h
    rw [hsuccess] at h
    exact absurd h (by decide)
  · apply Emits.pure
    by_cases hstatus : reply.status = efiSuccess
    · exact .inr ⟨reply, hstatus, (if_pos hstatus).symm, rfl⟩
    · refine .inl ⟨if_neg hstatus, fun held => ?_⟩
      simp [allocatePool_step_failed poolSize hstatus]

theorem efiFree_emits (handle : Word) : Emits (efiFree handle) fun _ events =>
    ∃ status : EfiStatus, events = [⟨.freePool handle, status⟩] :=
  Emits.call_bind fun status => Emits.pure ⟨status, rfl⟩

end Boot

end EchOS
