/-
  EchOS.Efi.MainSafety

  Against every firmware, each call `efi_main` makes is allowed by what happened
  before it (`EfiMain.Allowed`): the map buffer is passed with its own size, no boot
  service is used once ExitBootServices succeeded, and `build_pmm` and
  `kernel_start` get the map of the GetMemoryMap call whose key was accepted.
-/
import EchOS.Efi.Main

namespace EchOS

open Oracle (Triple Respects)

/-- `data` is stored from `p` on. -/
def Holds (memory : ByteMemory) (p : Word) (data : List Byte) : Prop :=
  ∀ i (h : i < data.length), memory (p + BitVec.ofNat 64 i) = data[i]

theorem writeBytes_holds (memory : ByteMemory) (p : Word) {data : List Byte}
    (hlen : data.length ≤ 2 ^ 64) : Holds (writeBytes memory p data) p data := by
  intro i hi
  have hoff : (p + BitVec.ofNat 64 i - p).toNat = i := by
    rw [BitVec.add_comm, BitVec.add_sub_cancel, toNat_ofNat_of_lt (by omega)]
  unfold writeBytes
  rw [hoff, List.getElem?_eq_getElem hi]
  rfl

/-- The reply is a map of the descriptors `descs`: it consists of whole records, and
    the `i`-th of them reads as `descs[i]`, whatever the rest of the memory holds. -/
structure MapReply.Describes {capacity : Word} (reply : MapReply capacity)
    (descriptorAt : ByteMemory → Word → EfiMemoryDescriptor) (mapBuffer : Word)
    (descs : List EfiMemoryDescriptor) : Prop where
  size_eq : reply.size.toNat = descs.length * reply.descriptorSize.toNat
  stride : 0 < reply.descriptorSize.toNat
  inside : mapBuffer.toNat + reply.size.toNat < 2 ^ 64
  read : ∀ memory, Holds memory mapBuffer reply.data → ∀ i (h : i < descs.length),
    descriptorAt memory (mapBuffer + BitVec.ofNat 64 (i * reply.descriptorSize.toNat)) = descs[i]

/-- ExitBootServices has succeeded. -/
def Exited (before : EfiHistory) : Prop :=
  ∃ key, (⟨.exitBootServices key, efiSuccess⟩ : EfiEvent) ∈ before

/-- The last two calls are a GetMemoryMap call and the ExitBootServices call that
    accepted its key, and `mmap` and the memory are what that GetMemoryMap call left. -/
structure Accepted (before : EfiHistory) {capacity : Word} (mapBuffer : Word)
    (reply : MapReply capacity) (mmap : EfiMmap) (memory : ByteMemory) : Prop where
  last : ∃ earlier : EfiHistory, before = earlier ++
    [⟨.getMemoryMap capacity mapBuffer, reply⟩, ⟨.exitBootServices reply.key, efiSuccess⟩]
  status : reply.status = efiSuccess
  mmap_eq : mmap = { start := mapBuffer, stop := mapBuffer + reply.size, size := reply.size,
                     key := reply.key, descriptorSize := reply.descriptorSize }
  holds : Holds memory mapBuffer reply.data

/-- What `efi_main` may call after `before`. -/
structure EfiMain.Allowed (efi : EfiMain) (before : EfiHistory) (c : EfiCall) : Prop where
  /-- GetMemoryMap is given the buffer, with the size it was allocated with. -/
  sized : ∀ size mapBuffer, c = .getMemoryMap size mapBuffer → size = efi.mapCapacity ∧
    ∃ status, (⟨.allocatePool size, (status, mapBuffer)⟩ : EfiEvent) ∈ before
  /-- Boot services are used only while they exist. -/
  service : c.BootService → ¬ Exited before
  /-- `build_pmm` gets the accepted map. -/
  built : ∀ mmap memory, c = .buildPmm mmap memory →
    ∃ mapBuffer, ∃ reply : MapReply efi.mapCapacity,
      Accepted before mapBuffer reply mmap memory
  /-- The kernel gets its key, and the pmm built from its descriptors. -/
  started : ∀ mmapKey physicalMemory, c = .kernelStart mmapKey physicalMemory →
    ∃ mapBuffer, ∃ reply : MapReply efi.mapCapacity, ∃ mmap memory before',
      before = before' ++ [⟨.buildPmm mmap memory, ()⟩] ∧
      Accepted before' mapBuffer reply mmap memory ∧ mmapKey = reply.key ∧
      ∀ descs, reply.Describes efi.descriptorAt mapBuffer descs →
        physicalMemory = buildPmm efi.pmmStore descs

/-! ## The walk over the descriptors -/

/-- Address of the map's `i`-th descriptor. -/
def EfiMmap.descriptor (mmap : EfiMmap) (i : Nat) : Word :=
  mmap.start + BitVec.ofNat 64 (i * mmap.descriptorSize.toNat)

section Walk

variable {mmap : EfiMmap} {descs : List EfiMemoryDescriptor}
  (hstop : mmap.stop.toNat = mmap.start.toNat + descs.length * mmap.descriptorSize.toNat)
  (hstride : 0 < mmap.descriptorSize.toNat)

theorem EfiMmap.descriptor_succ (i : Nat) :
    mmap.descriptor i + mmap.descriptorSize = mmap.descriptor (i + 1) := by
  unfold EfiMmap.descriptor
  rw [Nat.succ_mul, BitVec.ofNat_add, BitVec.ofNat_toNat, BitVec.setWidth_eq, BitVec.add_assoc]

include hstop hstride

/-- The map ends below 2^64, so no descriptor's address wraps. -/
theorem EfiMmap.descriptor_lt_stop_iff {i : Nat} (hi : i ≤ descs.length) :
    mmap.descriptor i < mmap.stop ↔ i < descs.length := by
  have hlt := mmap.stop.isLt
  have hmul := Nat.mul_le_mul_right mmap.descriptorSize.toNat hi
  have hnat : (BitVec.ofNat 64 (i * mmap.descriptorSize.toNat)).toNat
      = i * mmap.descriptorSize.toNat := toNat_ofNat_of_lt (by omega)
  have haddr : (mmap.descriptor i).toNat = mmap.start.toNat + i * mmap.descriptorSize.toNat := by
    unfold EfiMmap.descriptor
    rw [toNat_add_of_lt (by omega), hnat]
  rw [BitVec.lt_def, haddr, hstop, Nat.add_lt_add_iff_left]
  exact Nat.mul_lt_mul_right hstride

/-- The walk over whole records sees exactly the descriptors, from any of them on. -/
theorem buildPmmAt_loop {descriptorAt : Word → EfiMemoryDescriptor} (blockCapacity : Word)
    (hread : ∀ i (h : i < descs.length), descriptorAt (mmap.descriptor i) = descs[i])
    (fuel i : Nat) (st st' : BuildState) (hi : i ≤ descs.length)
    (h : buildPmmAt.loop descriptorAt blockCapacity mmap fuel (mmap.descriptor i) st = .ok st') :
    st' = buildPmm.loop blockCapacity (descs.drop i) st := by
  induction fuel generalizing i st with
  | zero => cases h
  | succ fuel ih =>
      rw [buildPmmAt.loop] at h
      rcases Nat.lt_or_ge i descs.length with hlast | hlast
      · rw [if_pos ((EfiMmap.descriptor_lt_stop_iff hstop hstride hi).mpr hlast)] at h
        simp only [hread i hlast, EfiMmap.descriptor_succ] at h
        rw [List.drop_eq_getElem_cons hlast, buildPmm.loop]
        -- the three ways of a turn: no pages, no block left, a block added
        split at h
        · next hzero =>
            rw [if_pos hzero]
            exact ih _ _ hlast h
        · next hpages =>
            rw [if_neg hpages]
            split at h
            · next hfull =>
                rw [if_pos hfull]
                injection h with h
                exact h.symm
            · next hroom =>
                rw [if_neg hroom]
                exact ih _ _ hlast h
      · have houtside := mt (EfiMmap.descriptor_lt_stop_iff hstop hstride hi).mp
          (Nat.not_lt_of_le hlast)
        rw [if_neg houtside] at h
        injection h with h
        rw [List.drop_eq_nil_of_le hlast, buildPmm.loop]
        exact h.symm

end Walk

/-- On the accepted map, `build_pmm` builds the pmm of the descriptors reported. -/
theorem Accepted.buildPmmAt_eq {before : EfiHistory} {capacity mapBuffer : Word}
    {reply : MapReply capacity} {mmap : EfiMmap} {memory : ByteMemory}
    (h : Accepted before mapBuffer reply mmap memory)
    {descriptorAt : ByteMemory → Word → EfiMemoryDescriptor} {descs : List EfiMemoryDescriptor}
    (hdescs : reply.Describes descriptorAt mapBuffer descs) {storage : PmmStorage} {fuel : Nat}
    {pm : Pmm} (hpm : buildPmmAt (descriptorAt memory) storage mmap fuel = .ok pm) :
    pm = buildPmm storage descs := by
  obtain rfl := h.mmap_eq
  let mmap : EfiMmap :=
    { start := mapBuffer, stop := mapBuffer + reply.size, size := reply.size,
      key := reply.key, descriptorSize := reply.descriptorSize }
  have hstop : mmap.stop.toNat
      = mmap.start.toNat + descs.length * mmap.descriptorSize.toNat := by
    rw [toNat_add_of_lt hdescs.inside, hdescs.size_eq]
  have hwalk := buildPmmAt_loop hstop hdescs.stride storage.blockCapacity
    (hdescs.read memory h.holds) fuel 0
    { blocks := [], bitmap := storage.bitmap, nextMap := 0, wordsLeft := storage.bitmapWords }
  rw [EfiMmap.descriptor, Nat.zero_mul, BitVec.add_zero, List.drop_zero] at hwalk
  unfold buildPmmAt at hpm
  obtain ⟨st, hloop, hst⟩ := except_bind_ok hpm
  cases hst
  rw [hwalk st (Nat.zero_le _) hloop]
  rfl

/-! ## The calls are allowed -/

/-- Boot services still exist, and every call so far was allowed. -/
structure EfiMain.Waiting (efi : EfiMain) (history : EfiHistory) : Prop where
  respects : Respects efi.Allowed history
  waiting : ¬ Exited history

section Safety

variable {efi : EfiMain}

/-- Calls of boot services that are no map calls are allowed while waiting. -/
theorem EfiMain.Waiting.concat {history : EfiHistory} (h : efi.Waiting history) {event : EfiEvent}
    (hservice : event.call.BootService)
    (hsized : ∀ size mapBuffer, event.call = .getMemoryMap size mapBuffer →
      size = efi.mapCapacity ∧
        ∃ status, (⟨.allocatePool size, (status, mapBuffer)⟩ : EfiEvent) ∈ history)
    (hexit : ∀ key, event ≠ ⟨.exitBootServices key, efiSuccess⟩) :
    efi.Waiting (history ++ [event]) where
  respects := h.respects.concat
    { sized := hsized
      service := fun _ => h.waiting
      built := fun _ _ heq => by rw [heq] at hservice; exact hservice.elim
      started := fun _ _ heq => by rw [heq] at hservice; exact hservice.elim }
  waiting := by
    rintro ⟨key, hmem⟩
    rcases List.mem_append.mp hmem with hmem | hmem
    · exact h.waiting ⟨key, hmem⟩
    · exact hexit key (List.mem_singleton.mp hmem).symm

theorem print_waiting (format : String) (args : List Word) :
    Triple efi.Waiting (print format args) fun _ => efi.Waiting :=
  Triple.call fun _ _ h => h.concat trivial (fun _ _ heq => nomatch heq) fun _ heq => nomatch heq

/-- `hang:` is reached only while boot services exist. -/
theorem EfiMain.hang_respects : Triple efi.Waiting EfiMain.hang fun _ => Respects efi.Allowed :=
  (print_waiting _ _).bind fun _ => Triple.pure fun _ h => h.respects

/-- The buffer, when there is one, was allocated with the size asked for. -/
theorem efiMalloc_waiting (poolSize : Word) :
    Triple efi.Waiting (efiMalloc poolSize) fun p history => efi.Waiting history ∧
      (p ≠ 0#64 → ∃ status, (⟨.allocatePool poolSize, (status, p)⟩ : EfiEvent) ∈ history) := by
  have hfailed : ∀ format args, Triple efi.Waiting
      (print format args >>= fun _ => (pure 0#64 : Efi Word)) fun p history =>
        efi.Waiting history ∧
        (p ≠ 0#64 → ∃ status, (⟨.allocatePool poolSize, (status, p)⟩ : EfiEvent) ∈ history) :=
    fun format args => (print_waiting format args).bind fun _ =>
      Triple.pure fun _ h => ⟨h, fun hne => absurd rfl hne⟩
  have hcall : Triple efi.Waiting (allocatePool poolSize) fun reply history =>
      efi.Waiting history ∧ (⟨.allocatePool poolSize, reply⟩ : EfiEvent) ∈ history :=
    Triple.call fun _ _ h =>
      ⟨h.concat trivial (fun _ _ heq => nomatch heq) (fun _ heq => nomatch heq),
        List.mem_append_right _ (List.mem_singleton.mpr rfl)⟩
  refine hcall.bind fun reply => ?_
  refine Triple.ite (fun _ => ?_) fun _ => Triple.ite (fun _ => ?_) fun _ =>
    Triple.ite (fun _ => ?_) fun _ => ?_
  · exact (hfailed _ _).conseq (fun _ h => h.1) fun _ _ h => h
  · exact (hfailed _ _).conseq (fun _ h => h.1) fun _ _ h => h
  · exact (hfailed _ _).conseq (fun _ h => h.1) fun _ _ h => h
  · exact Triple.pure fun _ h => ⟨h.1, fun _ => ⟨reply.1, h.2⟩⟩

/-- From the accepted map on, no boot service is called. -/
theorem EfiMain.start_respects (mapBuffer : Word) (reply : MapReply efi.mapCapacity)
    {mmap : EfiMmap} {memory : ByteMemory} (walk : Nat) :
    Triple (fun history => Respects efi.Allowed history ∧
        Accepted history mapBuffer reply mmap memory)
      (efi.start mmap memory walk) fun _ => Respects efi.Allowed := by
  have hbuild : Triple (fun history => Respects efi.Allowed history ∧
        Accepted history mapBuffer reply mmap memory)
      (Oracle.call (I := efiInterface) (.buildPmm mmap memory)) fun _ history =>
        Respects efi.Allowed history ∧ ∃ before, history = before ++ [⟨.buildPmm mmap memory, ()⟩] ∧
          Accepted before mapBuffer reply mmap memory := by
    refine Triple.call fun _ history ⟨hrespects, hacc⟩ => ⟨hrespects.concat ?_, history, rfl, hacc⟩
    exact {
      sized := fun _ _ heq => nomatch heq
      service := fun hservice => hservice.elim
      built := fun _ _ heq => by
        injection heq with hmmap hmemory
        subst hmmap hmemory
        exact ⟨mapBuffer, reply, hacc⟩
      started := fun _ _ heq => nomatch heq }
  refine hbuild.bind fun _ => ?_
  -- after the map is read only the kernel is started
  cases hpm : buildPmmAt (efi.descriptorAt memory) efi.pmmStore mmap walk with
  | error abort => exact Triple.pure fun _ h => h.1
  | ok physicalMemory =>
      refine Triple.bind (Q := fun _ => Respects efi.Allowed) (Triple.call ?_)
        fun _ => Triple.pure fun _ h => h
      rintro _ history ⟨hrespects, before, hbefore, hacc⟩
      refine hrespects.concat
        { sized := fun _ _ heq => nomatch heq
          service := fun hservice => hservice.elim
          built := fun _ _ heq => nomatch heq
          started := fun mmapKey pm heq => ?_ }
      injection heq with hkey hpm'
      subst hkey hpm'
      exact ⟨mapBuffer, reply, mmap, memory, before, hbefore, hacc, by rw [hacc.mmap_eq],
        fun descs hdescs => hacc.buildPmmAt_eq hdescs hpm⟩

/-- Waiting, with the buffer that was allocated for the final map. -/
structure EfiMain.Retrying (efi : EfiMain) (mapBuffer : Word) (history : EfiHistory) : Prop
    extends efi.Waiting history where
  buffer : ∃ status,
    (⟨.allocatePool efi.mapCapacity, (status, mapBuffer)⟩ : EfiEvent) ∈ history

variable {mapBuffer : Word}

theorem getMemoryMap_retrying :
    Triple (efi.Retrying mapBuffer) (getMemoryMap efi.mapCapacity mapBuffer)
      fun reply history => efi.Retrying mapBuffer history ∧
        ∃ earlier, history = earlier ++ [⟨.getMemoryMap efi.mapCapacity mapBuffer, reply⟩] := by
  refine Triple.call fun reply history h => ⟨⟨?_, ?_⟩, history, rfl⟩
  · refine h.toWaiting.concat trivial ?_ fun _ heq => nomatch heq
    intro size buffer heq
    injection heq with hsize hbuffer
    subst hsize hbuffer
    exact ⟨rfl, h.buffer⟩
  · obtain ⟨status, hmem⟩ := h.buffer
    exact ⟨status, List.mem_append_left _ hmem⟩

/-- Either the key was accepted, or boot services still exist. -/
theorem exitBootServices_retrying (reply : MapReply efi.mapCapacity) :
    Triple (fun history => efi.Retrying mapBuffer history ∧
        ∃ earlier, history = earlier ++ [⟨.getMemoryMap efi.mapCapacity mapBuffer, reply⟩])
      (exitBootServices reply.key) fun result history =>
        Respects efi.Allowed history ∧
        (result ≠ efiSuccess → efi.Retrying mapBuffer history) ∧
        (result = efiSuccess → ∃ earlier, history = earlier ++
          [⟨.getMemoryMap efi.mapCapacity mapBuffer, reply⟩,
           ⟨.exitBootServices reply.key, efiSuccess⟩]) := by
  refine Triple.call ?_
  rintro result history ⟨h, earlier, rfl⟩
  refine ⟨h.respects.concat
    { sized := fun _ _ heq => nomatch heq
      service := fun _ => h.waiting
      built := fun _ _ heq => nomatch heq
      started := fun _ _ heq => nomatch heq }, fun hne => ⟨?_, ?_⟩, fun heq => ?_⟩
  · refine h.toWaiting.concat trivial (fun _ _ heq => nomatch heq) fun key heq => ?_
    injection heq with _ hanswer
    exact hne hanswer
  · obtain ⟨status, hmem⟩ := h.buffer
    exact ⟨status, List.mem_append_left _ hmem⟩
  · exact ⟨earlier, by rw [heq, List.append_assoc]; rfl⟩

/-- The retry loop. -/
theorem EfiMain.retry_respects (walk fuel : Nat) (mmap : EfiMmap) (memory : ByteMemory) :
    Triple (efi.Retrying mapBuffer) (efi.retry mapBuffer walk fuel mmap memory)
      fun _ => Respects efi.Allowed := by
  induction fuel generalizing mmap memory with
  | zero => exact Triple.pure fun _ h => h.respects
  | succ fuel ih =>
      refine getMemoryMap_retrying.bind fun reply => Triple.ite (fun _ => ?_) fun hstatus => ?_
      · -- the map did not fit, or the firmware failed: boot services are still there
        exact ((print_waiting _ _).bind fun _ => EfiMain.hang_respects).conseq
          (fun _ h => h.1.toWaiting) fun _ _ h => h
      · refine (exitBootServices_retrying reply).bind fun result =>
          Triple.ite (fun hresult => ?_) fun hresult => Triple.ite (fun _ => ?_) fun _ => ?_
        · refine (EfiMain.start_respects mapBuffer reply walk).conseq
            (fun history h => ⟨h.1, ?_⟩) fun _ _ h => h
          have hlen : reply.data.length ≤ 2 ^ 64 :=
            Nat.le_trans reply.fits (Nat.le_of_lt efi.mapCapacity.isLt)
          exact ⟨h.2.2 hresult, not_not.mp hstatus, rfl, writeBytes_holds _ _ hlen⟩
        · exact Triple.pure fun _ h => h.1
        · -- a stale key
          exact (ih _ _).conseq (fun _ h => h.2.1 hresult) fun _ _ h => h

end Safety

/-- **The kernel is started only on the map the firmware accepted.**  Against every
    firmware and for any number of retries, every call `efi_main` makes from the
    allocation of `map_buffer` on is allowed by the calls before it. -/
theorem efi_main_allowed (efi : EfiMain) (firmware : EfiFirmware) (mmap : EfiMmap)
    (memory : ByteMemory) (walk fuel : Nat) :
    Respects efi.Allowed (efi.run mmap memory walk fuel firmware []).2 := by
  have hrun : Triple efi.Waiting (efi.run mmap memory walk fuel)
      fun _ => Respects efi.Allowed := by
    refine (efiMalloc_waiting efi.mapCapacity).bind fun mapBuffer =>
      Triple.ite (fun _ => ?_) fun hne => ?_
    · exact EfiMain.hang_respects.conseq (fun _ h => h.1) fun _ _ h => h
    · exact (EfiMain.retry_respects walk fuel mmap memory).conseq
        (fun _ h => ⟨h.1, h.2 hne⟩) fun _ _ h => h
  exact hrun firmware [] ⟨Respects.nil, fun ⟨_, h⟩ => List.not_mem_nil h⟩

/-! ## A firmware that changes its map -/

/-- A map of one descriptor of one byte, or nothing where that does not fit. -/
def oneByteMap (capacity : Word) (byte : Byte) (key : Word) : MapReply capacity :=
  if h : 1 ≤ capacity.toNat then
    { status := efiSuccess, data := [byte], size := 1#64, key, descriptorSize := 1#64
      fits := h, size_eq := fun _ => rfl }
  else
    { status := efiInvalidParameter, data := [], size := 1#64, key, descriptorSize := 1#64
      fits := Nat.zero_le _, size_eq := fun h => absurd h (by decide) }

/-- A firmware whose map and key are new at every call, and which refuses the first
    key it is given. -/
def renewingFirmware : EfiFirmware := fun history call =>
  match call with
  | .allocatePool _ => (efiSuccess, 0x1000#64)
  | .getMemoryMap size _ => oneByteMap size (BitVec.ofNat 8 history.length)
      (BitVec.ofNat 64 history.length)
  | .exitBootServices _ => if history.length ≤ 2 then efiInvalidParameter else efiSuccess
  | .print _ | .buildPmm _ _ | .kernelStart _ _ => ()

/-- A descriptor of one byte is a page of conventional memory with that number. -/
def oneByteMain : EfiMain where
  pmmStore := ⟨1#64, 1#64, fun _ => 0#64⟩
  mapCapacity := 8#64
  descriptorAt memory a :=
    { type := .conventionalMemory, physicalStart := (memory a).zeroExtend 64 <<< 12,
      numberOfPages := 1#64, attr := 0#64 }

/-- The kernel is started on the second map: the page at 0x3000, and its key. -/
example : ∃ pm : Pmm,
    (oneByteMain.run ⟨0, 0, 0, 0, 0⟩ (fun _ => 0) 3 2 renewingFirmware []).2.getLast?
      = some ⟨.kernelStart 3#64 pm, ()⟩ ∧
    pm.blocks.map PmBlock.address = [0x3000#64] :=
  ⟨_, rfl, rfl⟩

end EchOS
