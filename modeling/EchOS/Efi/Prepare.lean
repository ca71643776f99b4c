/-
  EchOS.Efi.Prepare

  `efi_main` of `efi-stage/main.c` up to the allocation of `map_buffer`: the files are
  read, `system` is filled in and the storage of the memory manager is reserved.  What
  comes after is in `EchOS.Efi.Main`.

  InitializeLib, ClearScreen and SetWatchdogTimer are left out.  What `get_rsdp2` and
  `framebuffer_init` read, the firmware's configuration tables and its graphics mode,
  is given (`EfiTables`).
-/
import EchOS.Efi.FileRead
import EchOS.Efi.MemoryMap
import EchOS.Efi.Rsdp
import EchOS.Kernel.Console

namespace EchOS

open Oracle (Emits)
open Oracle.Accounting (ledger_of_step ledger_of_events ledger_of_empty balanced_of_ledger)

/-! ## The function -/

/-- The mode of the graphics output protocol: its `Info`, and `FrameBufferBase`. -/
structure GraphicsMode where
  horizontalResolution : BitVec 32
  verticalResolution : BitVec 32
  pixelsPerScanLine : BitVec 32
  frameBufferBase : Word
  deriving Repr, DecidableEq

/-- `framebuffer_init`, once `get_gop` has found the protocol -/
def framebufferInit (mode : GraphicsMode) (margin : Word) : Screen where
  width := mode.horizontalResolution.setWidth 64
  height := mode.verticalResolution.setWidth 64
  pixelsPerScanline := mode.pixelsPerScanLine.setWidth 64
  buffer := mode.frameBufferBase
  margin := margin

/-- `sizeof(colonel_t)` -/
def sizeofColonel : Word := 128#64

/-- What `efi_main` finds: where its two file names are, the configuration tables, and
    the graphics mode if LocateProtocol finds the protocol.  `stack` is what is in its
    variables before they are set, those of the font and those of the kernel. -/
structure EfiTables where
  fontName : Word
  kernelName : Word
  same : EfiGuid → Bool
  systemTable : EfiSystemTable
  gop : Option GraphicsMode
  descriptorAt : ByteMemory → Word → EfiMemoryDescriptor
  stack : (Word × Word) × Word × Word

/-- What `efi_main` has by then: the files, and `system` with what is stored in it. -/
structure Prepared where
  font : Word
  fontSize : Word
  kernel : Word
  kernelSize : Word
  system : Word
  rsdp2 : Word
  fb : Screen
  pmmStore : PmmReserved
  mmap : EfiMmap
  mapCapacity : Word
  deriving Repr, DecidableEq

/-- It hangs, it reads the mode of a protocol that was not found, or it goes on. -/
inductive PrepareEnd where
  | hung
  | nullGop
  | ready (p : Prepared)
  deriving Repr, DecidableEq

namespace Boot

/-- `hang:`, and `halt:` after it -/
def hang : Boot (Except Abort PrepareEnd) := do
  print "Hanging now.\n" []
  pure (.ok .hung)

variable (tables : EfiTables)

/-- `efi_main` from `reserve_pmm` on -/
def prepare.storage (walk fuel : Nat) (memory : ByteMemory)
    (ready : PmmReserved → EfiMmap → Prepared) : Boot (Except Abort PrepareEnd) := do
  match ← reservePmm tables.descriptorAt walk fuel memory with
  | .error abort => pure (.error abort)
  | .ok (.error _) => do
      print "Could not reserve physical memory manager.\n" []
      hang
  | .ok (.ok pmmStore) => do
      let reply ← getMemoryMap 0#64 0#64
      pure (.ok (.ready (ready pmmStore ⟨0#64, 0#64, reply.size, reply.key, reply.descriptorSize⟩)))

/-- `efi_main` up to the allocation of `map_buffer` -/
def prepare (walk fuel : Nat) (memory : ByteMemory) : Boot (Except Abort PrepareEnd) := do
  let (result, fontSize, font) ← efiFread tables.fontName tables.stack.1.1 tables.stack.1.2
  if result ≠ efiSuccess then do
    print "Couldn't open \\EFI\\boot\\unifont.sfn\n" []
    hang
  else do
    let (result, kernelSize, kernel) ← efiFread tables.kernelName tables.stack.2.1 tables.stack.2.2
    if result ≠ efiSuccess then do
      print "Couldn't open \\EFI\\boot\\libkernel.so\n" []
      hang
    else do
      let system ← efiMalloc sizeofColonel
      if system = 0#64 then hang
      else
        match getRsdp2 tables.same tables.systemTable fuel with
        | .error abort => pure (.error abort)
        | .ok rsdp2 =>
            if rsdp2 = 0#64 then do
              print "Could not get pointer to RSDP2.\n" []
              hang
            else
              match tables.gop with
              | none => do
                  print "Unable to locate Graphics Output Protocol\n" []
                  pure (.ok .nullGop)
              | some mode =>
                  prepare.storage tables walk fuel memory fun pmmStore mmap =>
                    { font, fontSize, kernel, kernelSize, system, rsdp2,
                      fb := framebufferInit mode 10#64, pmmStore, mmap,
                      -- room for this allocation and for retries
                      mapCapacity := mmap.size + 8#64 * mmap.descriptorSize }

end Boot

/-! ## The buffers it holds -/

/-- Pool buffers, as resources. -/
def pools (buffers : List Word) : Multiset BootResource := (buffers.map .pool : List BootResource)

/-- The events use only what they hold, and leave the buffers. -/
def Keeps (buffers : List Word) (events : BootHistory) : Prop :=
  bootAccounting.ledger 0 events = some (pools buffers)

theorem Keeps.append {buffers more : List Word} {events later : BootHistory}
    (h : Keeps buffers events) (hlater : Keeps more later) :
    Keeps (buffers ++ more) (events ++ later) := by
  have hpools : pools (buffers ++ more) = pools buffers + pools more := by
    rw [pools, pools, pools, List.map_append, Multiset.coe_add]
  unfold Keeps at h hlater ⊢
  rw [ledger_of_events h, ledger_of_empty hlater, hpools]

theorem Keeps.print (format : String) (args : List Word) :
    Emits (Boot.print format args) fun _ events => Keeps [] events :=
  (print_emits format args).conseq fun _ _ h => h 0

theorem Keeps.efiFread (filename length buffer : Word) :
    Emits (Boot.efiFread filename length buffer) fun out events =>
      (∃ buffers, buffers.length ≤ 1 ∧ Keeps buffers events) ∧
      (out.1 = efiSuccess →
        Keeps [out.2.2] events ∧ FirstFile filename out.2.1 out.2.2 events) := by
  refine (efiFread_emits filename length buffer).conseq fun out events h => ?_
  cases herror : efiError out.1 with
  | true =>
      refine ⟨⟨[], Nat.zero_le 1, (h.1 herror).1⟩, fun hsuccess => ?_⟩
      rw [hsuccess] at herror
      exact absurd herror (by decide)
  -- a warning is no error
  | false => exact ⟨⟨[out.2.2], Nat.le_refl 1, (h.2 herror).1⟩, fun _ => h.2 herror⟩

theorem Keeps.efiMalloc (poolSize : Word) :
    Emits (Boot.efiMalloc poolSize) fun p events =>
      (p = 0#64 → Keeps [] events) ∧ (p ≠ 0#64 → Keeps [p] events) := by
  refine (Boot.efiMalloc_emits poolSize).conseq fun p events h => ?_
  rcases h with ⟨hnull, hledger⟩ | ⟨reply, hstatus, rfl, rfl⟩
  · exact ⟨fun _ => hledger 0, fun hne => absurd hnull hne⟩
  · exact ⟨fun hnull => absurd hnull reply.value.2,
      fun _ => ledger_of_step (allocatePool_step poolSize hstatus)⟩

/-! ## How it ends -/

/-- The last thing that happens is the message of `hang:`. -/
def SaysHanging (events : BootHistory) : Prop :=
  ∃ earlier answer, events = earlier ++ [⟨.print ⟨"Hanging now.\n", []⟩, answer⟩]

/-- What `efi_main` goes on with: the two files, in the order in which they are read,
    the first ACPI table, the graphics mode, and the size of the map that the last call
    reported, with room.  The buffers of the files, `system` and the storage are all that
    it holds. -/
structure Prepared.From (tables : EfiTables) (p : Prepared) (events : BootHistory) : Prop where
  balanced : bootAccounting.Balanced events
    (pools [p.font, p.kernel, p.system, p.pmmStore.physicalMemory])
  files : ∃ font kernel later, events = font ++ (kernel ++ later) ∧
    FirstFile tables.fontName p.fontSize p.font font ∧
    FirstFile tables.kernelName p.kernelSize p.kernel kernel
  rsdp2 : ∃ i, i < tables.systemTable.numberOfTableEntries.toNat ∧
    NoneBefore tables.same tables.systemTable i ∧
    tables.same (tables.systemTable.configurationTable i).vendorGuid = true ∧
    p.rsdp2 = (tables.systemTable.configurationTable i).vendorTable
  rsdp2_ne : p.rsdp2 ≠ 0#64
  fb : ∃ mode, tables.gop = some mode ∧ p.fb = framebufferInit mode 10#64
  map : ∃ earlier, ∃ reply : MapFilled 0#64,
    events = earlier ++ [⟨.getMemoryMap 0#64 0#64, reply⟩] ∧
    p.mapCapacity = reply.size + 8#64 * reply.descriptorSize

/-- What the events are like for each end. -/
def PrepareEvents (tables : EfiTables) : Except Abort PrepareEnd → BootHistory → Prop
  | .error _, events => ∃ left, bootAccounting.ledger 0 events = some left
  | .ok .hung, events =>
      (∃ buffers, buffers.length ≤ 3 ∧ bootAccounting.Balanced events (pools buffers)) ∧
      SaysHanging events
  | .ok .nullGop, events =>
      tables.gop = none ∧
      ∃ buffers, buffers.length ≤ 3 ∧ bootAccounting.Balanced events (pools buffers)
  | .ok (.ready p), events => p.From tables events

section Ends

variable (tables : EfiTables) {buffers : List Word} {events : BootHistory}

theorem hang_emits : Emits Boot.hang fun out later =>
    out = .ok .hung ∧ Keeps [] later ∧ SaysHanging later :=
  Emits.call_bind fun answer => Emits.pure ⟨rfl, ledger_of_step (print_step _ _), [], answer, rfl⟩

/-- From a message and `goto hang` on. -/
theorem print_hang_emits (format : String) :
    Emits (Boot.print format [] >>= fun _ => Boot.hang) fun out later =>
      out = .ok .hung ∧ Keeps [] later ∧ SaysHanging later := by
  refine (Keeps.print format []).bind fun _ printed hprinted => ?_
  refine hang_emits.conseq fun out later h => ?_
  obtain ⟨hout, hkeeps, earlier, answer, rfl⟩ := h
  exact ⟨hout, hprinted.append hkeeps, printed ++ earlier, answer, (List.append_assoc ..).symm⟩

variable {tables} in
/-- It hangs with the buffers that it has by then. -/
theorem PrepareEvents.hung {out : Except Abort PrepareEnd} {later : BootHistory}
    (hkeeps : Keeps buffers events) (hlength : buffers.length ≤ 3)
    (h : out = .ok .hung ∧ Keeps [] later ∧ SaysHanging later) :
    PrepareEvents tables out (events ++ later) := by
  obtain ⟨rfl, hlater, earlier, answer, rfl⟩ := h
  have hall := hkeeps.append hlater
  rw [List.append_nil] at hall
  exact ⟨⟨buffers, hlength, balanced_of_ledger hall⟩, events ++ earlier, answer,
    (List.append_assoc ..).symm⟩

/-- What `prepare.storage` adds for each end. -/
def StorageEvents (ready : PmmReserved → EfiMmap → Prepared) :
    Except Abort PrepareEnd → BootHistory → Prop
  | .error _, later => ∃ left, bootAccounting.ledger 0 later = some left
  | .ok .hung, later => Keeps [] later ∧ SaysHanging later
  | .ok .nullGop, _ => False
  | .ok (.ready p), later =>
      ∃ pmmStore earlier, ∃ reply : MapFilled 0#64,
        p = ready pmmStore ⟨0#64, 0#64, reply.size, reply.key, reply.descriptorSize⟩ ∧
        Keeps [pmmStore.physicalMemory] later ∧
        later = earlier ++ [⟨.getMemoryMap 0#64 0#64, reply⟩]

theorem storage_emits (walk fuel : Nat) (memory : ByteMemory)
    (ready : PmmReserved → EfiMmap → Prepared) :
    Emits (Boot.prepare.storage tables walk fuel memory ready) (StorageEvents ready) := by
  refine (reservePmm_emits tables.descriptorAt walk fuel memory).bind fun out reserved h => ?_
  match out with
  | .error abort =>
      refine Emits.pure ?_
      rw [List.append_nil]
      exact h
  | .ok (.error status) =>
      refine (print_hang_emits _).conseq fun out later hhang => ?_
      obtain ⟨rfl, hlater, earlier, answer, rfl⟩ := hhang
      have hreserved : Keeps [] reserved := h.held
      exact ⟨hreserved.append hlater, reserved ++ earlier, answer, (List.append_assoc ..).symm⟩
  | .ok (.ok pmmStore) =>
      refine Emits.call_bind fun (reply : MapFilled 0#64) => Emits.pure ?_
      have hreserved : Keeps [pmmStore.physicalMemory] reserved := h.held
      -- without a buffer the call needs none
      have hmap : Keeps [] [⟨.getMemoryMap 0#64 0#64, reply⟩] :=
        ledger_of_step (getMemoryMap_step (fun hne => absurd rfl hne) reply)
      exact ⟨pmmStore, reserved, reply, rfl, hreserved.append hmap, rfl⟩

theorem prepare_emits (walk fuel : Nat) (memory : ByteMemory) :
    Emits (Boot.prepare tables walk fuel memory) (PrepareEvents tables) := by
  refine (Keeps.efiFread tables.fontName _ _).bind ?_
  rintro ⟨status, fontSize, font⟩ fontEvents ⟨⟨buffers, hlength, hbuffers⟩, hfont⟩
  refine Emits.ite (fun _ => ?_) fun hstatus => ?_
  · exact (print_hang_emits _).conseq fun _ _ h => .hung hbuffers (by omega) h
  obtain ⟨hfont, hfontFile⟩ := hfont (not_not.mp hstatus)
  refine (Keeps.efiFread tables.kernelName _ _).bind ?_
  rintro ⟨status, kernelSize, kernel⟩ kernelEvents ⟨⟨buffers, hlength, hbuffers⟩, hkernel⟩
  refine Emits.ite (fun _ => ?_) fun hstatus => ?_
  · refine (print_hang_emits _).conseq fun _ _ h => ?_
    rw [← List.append_assoc]
    refine .hung (hfont.append hbuffers) ?_ h
    simp only [List.length_append, List.length_singleton]
    omega
  obtain ⟨hkernel, hkernelFile⟩ := hkernel (not_not.mp hstatus)
  refine (Keeps.efiMalloc sizeofColonel).bind fun system allocated hsystem => ?_
  refine Emits.ite (fun hnull => ?_) fun hne => ?_
  · refine hang_emits.conseq fun _ _ h => ?_
    rw [← List.append_assoc, ← List.append_assoc]
    exact .hung ((hfont.append hkernel).append (hsystem.1 hnull)) (by decide : 2 ≤ 3) h
  have hthree : Keeps [font, kernel, system] (fontEvents ++ kernelEvents ++ allocated) :=
    (hfont.append hkernel).append (hsystem.2 hne)
  cases hrsdp2 : getRsdp2 tables.same tables.systemTable fuel with
  | error abort =>
      refine Emits.pure ⟨pools [font, kernel, system], ?_⟩
      rw [List.append_nil, ← List.append_assoc]
      exact hthree
  | ok rsdp2 =>
      refine Emits.ite (fun _ => ?_) fun hrsdp2_ne => ?_
      · refine (print_hang_emits _).conseq fun _ _ h => ?_
        rw [← List.append_assoc, ← List.append_assoc]
        exact .hung hthree (Nat.le_refl 3) h
      cases hgop : tables.gop with
      | none =>
          refine (Keeps.print _ _).bind fun _ printed hprinted => Emits.pure ?_
          refine ⟨hgop, [font, kernel, system], Nat.le_refl 3, ?_⟩
          rw [List.append_nil, ← List.append_assoc, ← List.append_assoc]
          exact balanced_of_ledger (hthree.append hprinted)
      | some mode =>
          refine (storage_emits tables walk fuel memory _).conseq fun out later h => ?_
          rw [← List.append_assoc, ← List.append_assoc]
          match out with
          | .error abort =>
              obtain ⟨left, hleft⟩ := h
              refine ⟨pools [font, kernel, system] + left, ?_⟩
              rw [ledger_of_events hthree]
              exact ledger_of_empty hleft _
          | .ok .hung => exact .hung hthree (Nat.le_refl 3) ⟨rfl, h⟩
          | .ok (.ready p) =>
              obtain ⟨pmmStore, earlier, reply, rfl, hkeeps, rfl⟩ := h
              -- a search that does not return NULL has found the table
              rcases getRsdp2.loop_result (by decide) (fun i hi => absurd hi (Nat.not_lt_zero i))
                hrsdp2 with ⟨_, hnull⟩ | hfound
              · exact absurd hnull hrsdp2_ne
              exact {
                balanced := balanced_of_ledger (hthree.append hkeeps)
                files := ⟨fontEvents, kernelEvents,
                  allocated ++ (earlier ++ [⟨.getMemoryMap 0#64 0#64, reply⟩]),
                  by simp only [List.append_assoc], hfontFile, hkernelFile⟩
                rsdp2 := hfound
                rsdp2_ne := hrsdp2_ne
                fb := ⟨mode, hgop, rfl⟩
                map := ⟨fontEvents ++ kernelEvents ++ allocated ++ earlier, reply,
                  (List.append_assoc ..).symm, rfl⟩ }

end Ends

/-- **What `efi_main` has before it gets the final memory map.**  Against every firmware,
    whatever happened before: it reads the font and then the kernel, searches the
    configuration tables and reserves the storage, and if it gets to the end it holds
    those two files, `system` and the storage and nothing else.  If it hangs, it says so
    last, and at most three buffers are not given back, no open file among them. -/
theorem efi_main_prepares (firmware : BootFirmware) (before : BootHistory) (tables : EfiTables)
    (walk fuel : Nat) (memory : ByteMemory) :
    ∃ out events, Boot.prepare tables walk fuel memory firmware before = (out, before ++ events) ∧
      PrepareEvents tables out events := by
  obtain ⟨events, hrun, h⟩ := prepare_emits tables walk fuel memory firmware before
  exact ⟨_, events, Prod.ext rfl hrun, h⟩

end EchOS
