/-
  EchOS.Efi.HandOver

  From the firmware to the kernel: what the first part of `efi_main` prepares goes into
  its second part, and what that hands over into `kernel_start`.

  The two parts of `efi_main` use different services and are run one after the other,
  each against its own firmware.
-/
import EchOS.Efi.MainSafety
import EchOS.Efi.Prepare
import EchOS.Kernel.StartReady

namespace EchOS

open Oracle (Respects Triple)
open PackedBits (Words)

/-! ## What is handed over -/

/-- The second part of `efi_main`; `bitmap` is what the storage contains. -/
def Prepared.main (p : Prepared) (tables : EfiTables) (bitmap : Words 64) : EfiMain where
  pmmStore := p.pmmStore.storage bitmap
  mapCapacity := p.mapCapacity
  descriptorAt := tables.descriptorAt

/-- `system` as the kernel gets it; `pml4` and `gdt` are not set by then. -/
def Prepared.colonel (p : Prepared) (pml4 gdt : Word) : Colonel where
  physicalMemory := p.pmmStore.physicalMemory
  pml4 := pml4
  gdt := gdt
  fb := p.fb.toFramebuffer

/-- The bytes of the framebuffer. -/
def GraphicsMode.bytes (mode : GraphicsMode) : Nat :=
  mode.pixelsPerScanLine.toNat * mode.verticalResolution.toNat * 4

theorem framebufferInit_length {mode : GraphicsMode} (margin : Word) (h : mode.bytes < 2 ^ 64) :
    (framebufferInit mode margin).length.toNat = mode.bytes := by
  have hwidth : (mode.pixelsPerScanLine.setWidth 64).toNat = mode.pixelsPerScanLine.toNat :=
    BitVec.toNat_setWidth_of_le (by decide)
  have hheight : (mode.verticalResolution.setWidth 64).toNat = mode.verticalResolution.toNat :=
    BitVec.toNat_setWidth_of_le (by decide)
  unfold GraphicsMode.bytes at h ⊢
  have hpixels : mode.pixelsPerScanLine.toNat * mode.verticalResolution.toNat % 2 ^ 64
      = mode.pixelsPerScanLine.toNat * mode.verticalResolution.toNat := Nat.mod_eq_of_lt (by omega)
  rw [Framebuffer.length, framebufferInit, BitVec.toNat_mul, BitVec.toNat_mul, hwidth, hheight,
    hpixels]
  exact Nat.mod_eq_of_lt h

/-! ## What the firmware reported -/

/-- The byte at `x` lies in the range of the descriptor. -/
def EfiMemoryDescriptor.Contains (desc : EfiMemoryDescriptor) (x : Word) : Prop :=
  desc.physicalStart.toNat ≤ x.toNat ∧
  x.toNat < desc.physicalStart.toNat + desc.numberOfPages.toNat * 4096

theorem EfiMemoryDescriptor.Apart.symm {d e : EfiMemoryDescriptor} (h : d.Apart e) : e.Apart d := by
  unfold EfiMemoryDescriptor.Apart at h ⊢
  tauto

instance : Std.Symm EfiMemoryDescriptor.Apart := ⟨fun _ _ h => h.symm⟩

/-- A frame that starts out free has no byte of memory that is not conventional. -/
theorem not_free_of_contains (storage : PmmStorage) (mmap : MemoryMap) {desc : EfiMemoryDescriptor}
    (hdesc : desc ∈ mmap.descs) (htype : desc.type ≠ .conventionalMemory) {x : Word}
    (hx : desc.Contains x) : ¬ (buildPmm storage mmap.descs).Free (pageBase x) := by
  intro hfree
  obtain ⟨b, hb, hty, _, f, hf, heq⟩ := buildPmm_free_usable storage mmap hfree
  obtain ⟨_, other, hother, hconventional, hstart, hstop⟩ :=
    conventional_of_usable storage mmap hb hty (show f + 1 ≤ _ from hf) Nat.one_pos
  have hne : desc ≠ other := fun h => htype (h ▸ hconventional)
  have hapart : desc.Apart other := mmap.apart.forall hdesc hother hne
  -- the byte lies in the other descriptor's range too
  have hpage := pageBase_toNat x
  rw [heq] at hpage
  obtain ⟨hlow, hhigh⟩ := hx
  rcases hapart with h | h | h | h
  · omega
  · omega
  · rw [h, BitVec.toNat_ofNat] at hhigh
    omega
  · rw [h, BitVec.toNat_ofNat] at hstop
    omega

/-! ## From the firmware to the kernel -/

/-- The calls of the second part are allowed by those before them. -/
theorem EfiMain.run_respects (efi : EfiMain) (firmware : EfiFirmware) (mmap : EfiMmap)
    (memory : ByteMemory) (walk fuel : Nat) :
    Respects efi.Allowed (efi.run mmap memory walk fuel firmware []).2 := by
  have hrun : Triple efi.Waiting (efi.run mmap memory walk fuel)
      fun _ => Respects efi.Allowed := by
    refine (efiMalloc_waiting efi.mapCapacity).bind fun mapBuffer => ?_
    apply Triple.ite
    · intro _
      exact EfiMain.hang_respects.conseq (fun _ h => h.1) fun _ _ h => h
    · intro hne
      exact (EfiMain.retry_respects walk fuel mmap memory).conseq
        (fun _ h => ⟨h.1, h.2 hne⟩) fun _ _ h => h
  exact hrun firmware [] ⟨Respects.nil, fun ⟨_, h⟩ => List.not_mem_nil h⟩

section Boot

variable {bootFirmware : BootFirmware} {earlier : BootHistory} {tables : EfiTables}
  {walk fuel : Nat} {memory : ByteMemory} {p : Prepared}

/-- What `efi_main` goes on with comes from the firmware's tables. -/
theorem prepared_from
    (h : (Boot.prepare tables walk fuel memory bootFirmware earlier).1 = .ok (.ready p)) :
    ∃ events, p.From tables events := by
  obtain ⟨events, _, hevents⟩ := prepare_emits tables walk fuel memory bootFirmware earlier
  rw [h] at hevents
  exact ⟨events, hevents⟩

end Boot

/-! ## A firmware with one volume and six pages -/

theorem oneByteMap_size (capacity : Word) (byte : Byte) (key : Word) :
    (oneByteMap capacity byte key).size = 1#64 := by
  unfold oneByteMap
  split <;> rfl

theorem fits_of_nothing (capacity : Word) : ([] : List Byte).length ≤ capacity.toNat :=
  Nat.zero_le _

/-- A map of one byte, or how large it is. -/
def sixPagesReply (capacity : Word) : MapFilled capacity :=
  if 1 ≤ capacity.toNat then
    { oneByteMap capacity 1#8 7#64 with
      nonempty := fun _ => by rw [oneByteMap_size]; decide }
  else
    { status := efiBufferTooSmall, data := [], size := 1#64, key := 7#64, descriptorSize := 1#64
      fits := fits_of_nothing capacity, size_eq := fun h => absurd h (by decide)
      nonempty := fun _ => by decide }

/-- The one volume has every file, of as many bytes as the address of its name. -/
def oneVolumeFirmware : BootFirmware := fun _ call =>
  match call with
  | .locateHandleBuffer => ⟨efiSuccess, 1#64, ⟨0xA000#64, by decide⟩⟩
  | .handleProtocol _ _ | .openVolume _ => ⟨efiSuccess, ⟨0xC100#64, by decide⟩⟩
  | .open _ filename _ _ =>
      ⟨efiSuccess, if h : filename ≠ 0#64 then ⟨filename, h⟩ else ⟨0xC100#64, by decide⟩⟩
  | .close _ | .freePool _ => efiSuccess
  | .getInfo file => ⟨efiSuccess, file⟩
  | .read _ length _ => ⟨efiSuccess, length⟩
  | .allocatePool poolSize =>
      ⟨efiSuccess, if h : poolSize ≤ 0x1000#64 then ⟨0xA000#64 + poolSize, by bv_omega⟩
        else ⟨0xB000#64, by decide⟩⟩
  | .getMemoryMap size _ => sixPagesReply size
  | .print _ => ()

/-- It ends boot services at the first call. -/
def sixPagesFirmware : EfiFirmware := fun _ call =>
  match call with
  | .allocatePool _ => (efiSuccess, 0xD000#64)
  | .getMemoryMap size _ => (sixPagesReply size).toMapReply
  | .exitBootServices _ => efiSuccess
  | .print _ | .buildPmm _ _ | .kernelStart _ _ => ()

def sixPagesTables : EfiTables where
  fontName := 0x10#64
  kernelName := 0x20#64
  same guid := guid = 1#128
  systemTable := ⟨1#64, fun _ => ⟨1#128, 0xE000#64⟩⟩
  gop := some ⟨16#32, 16#32, 16#32, 0x8000#64⟩
  descriptorAt memory a := { sixPages with physicalStart := (memory a).setWidth 64 <<< 12 }
  stack := ((0#64, 0#64), 0#64, 0#64)

def sixPagesPrepared : Prepared where
  font := 0xA010#64
  fontSize := 0x10#64
  kernel := 0xA020#64
  kernelSize := 0x20#64
  system := 0xA080#64
  rsdp2 := 0xE000#64
  fb := framebufferInit ⟨16#32, 16#32, 16#32, 0x8000#64⟩ 10#64
  pmmStore :=
    { physicalMemory := 0xA450#64, blocks := 0xA460#64, blockCapacity := 17#64
      blockPtrs := (reservePmm.fillTable 17 0xA4E8#64).1, bitmap := 0xA818#64
      bitmapWords := 17#64 }
  mmap := ⟨0#64, 0#64, 1#64, 7#64, 1#64⟩
  mapCapacity := 9#64

/-- The pmm of the six pages. -/
def sixPagesBuilt : Pmm :=
  buildPmm (sixPagesPrepared.pmmStore.storage fun _ => 0#64) sixPagesMap.descs

theorem sixPagesReply_describes :
    (sixPagesReply 9#64).Describes sixPagesTables.descriptorAt 0xD000#64 sixPagesLow.descs where
  size_eq := rfl
  stride := by decide
  inside := by decide
  read memory h i hi := by
    have hi : i = 0 := by
      have hlen : sixPagesLow.descs.length = 1 := rfl
      omega
    subst hi
    have hbyte : memory (0xD000#64 + BitVec.ofNat 64 (0 * 1)) = 1#8 := h 0 (by decide)
    show ({ sixPages with physicalStart :=
      (memory (0xD000#64 + BitVec.ofNat 64 (0 * 1))).setWidth 64 <<< 12 } : EfiMemoryDescriptor) = _
    rw [hbyte]
    rfl

end EchOS
