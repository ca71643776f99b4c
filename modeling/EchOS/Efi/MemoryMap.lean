/-
  EchOS.Efi.MemoryMap

  `getEFIMemoryMap` of `efi-stage/efi_mmap.c`, `reserve_pmm` of `efi-stage/efi_pmm.c`
  on top of it, and the pool buffers they handle.

  The firmware may ask for another size at every turn of the loop, which the model
  bounds.  Between two turns the ledger holds the buffer behind `memoryMap` and
  nothing else (`bufferHeld`).  `reserve_pmm` here makes the calls of the function;
  what it computes in between is the `reservePmm` of `EchOS.Efi.ReservePmm`.
-/
import EchOS.Efi.BootServices
import EchOS.Efi.ReservePmm

namespace EchOS

open Oracle (Emits)
open Oracle.Accounting (ledger_of_step ledger_of_events)

namespace Boot

/-! ## The functions -/

/-- `if(memoryMap != NULL) FreePool(memoryMap)` -/
def freeUnlessNull (memoryMap : Word) : Boot Unit :=
  if memoryMap ≠ 0#64 then do
    let _ ← freePool memoryMap
    pure ()
  else pure ()

/-- The loop of `getEFIMemoryMap`: `result`, `*mmap`, `memoryMap` and the memory as it
    leaves them. -/
def getEFIMemoryMap.loop : (fuel : Nat) → (mmap : EfiMmap) → (memoryMap : Word) → ByteMemory →
    Boot (Except Abort (EfiStatus × EfiMmap × Word × ByteMemory))
  | 0, _, _, _ => pure (.error .outOfFuel)
  | fuel + 1, mmap, memoryMap, memory => do
      let reply ← getMemoryMap mmap.size memoryMap
      let memory := writeBytes memory memoryMap reply.data
      let mmap := { mmap with
        size := reply.size, key := reply.key, descriptorSize := reply.descriptorSize }
      if reply.status = efiSuccess then pure (.ok (reply.status, mmap, memoryMap, memory))
      else if reply.status ≠ efiBufferTooSmall then
        pure (.ok (reply.status, mmap, memoryMap, memory))
      else do
        freeUnlessNull memoryMap
        let mmap := { mmap with size := mmap.size + 2#64 * mmap.descriptorSize }
        let pool ← allocatePool mmap.size
        let memoryMap := pooled pool 0#64
        if pool.status ≠ efiSuccess then pure (.ok (pool.status, mmap, 0#64, memory))
        else getEFIMemoryMap.loop fuel mmap memoryMap memory

/-- `getEFIMemoryMap`: the status, `*mmap` and the memory after the call. -/
def getEFIMemoryMap (fuel : Nat) (mmap : EfiMmap) (memory : ByteMemory) :
    Boot (Except Abort (EfiStatus × EfiMmap × ByteMemory)) := do
  match ← getEFIMemoryMap.loop fuel mmap 0#64 memory with
  | .error abort => pure (.error abort)
  | .ok (result, mmap, memoryMap, memory) =>
      if result ≠ efiSuccess then do
        freeUnlessNull memoryMap
        pure (.ok (result, { mmap with start := 0#64, stop := 0#64 }, memory))
      else
        pure (.ok (result, { mmap with start := memoryMap, stop := memoryMap + mmap.size }, memory))

/-- `reserve_pmm`'s loop over the provisional map: `block_count` and `ram_frames`. -/
def reservePmm.count (descriptorAt : Word → EfiMemoryDescriptor) (mmap : EfiMmap) :
    (fuel : Nat) → (offset blockCount ramFrames : Word) → Except Abort (Word × Word)
  | 0, _, _, _ => .error .outOfFuel
  | fuel + 1, offset, blockCount, ramFrames =>
      if offset < mmap.stop then
        let desc := descriptorAt offset
        reservePmm.count descriptorAt mmap fuel (offset + mmap.descriptorSize)
          (if desc.numberOfPages ≠ 0#64 then blockCount + 1#64 else blockCount)
          (if isRamType desc.type then ramFrames + desc.numberOfPages else ramFrames)
      else .ok (blockCount, ramFrames)

/-- `reserve_pmm` -/
def reservePmm (descriptorAt : ByteMemory → Word → EfiMemoryDescriptor) (walk fuel : Nat)
    (memory : ByteMemory) : Boot (Except Abort (Except EfiStatus PmmReserved)) := do
  match ← getEFIMemoryMap fuel ⟨0#64, 0#64, 0#64, 0#64, 0#64⟩ memory with
  | .error abort => pure (.error abort)
  | .ok (result, mmap, memory) =>
      if result ≠ efiSuccess then do
        print "Error getting EFI memory map.\n" []
        pure (.ok (.error result))
      else
        match reservePmm.count (descriptorAt memory) mmap walk mmap.start 0#64 0#64 with
        | .error abort => pure (.error abort)
        | .ok (blockCount, ramFrames) => do
            efiFree mmap.start
            let blockCapacity := blockCount + pmmBlockSlack
            let bitmapWords := ramFrames / 64#64 + blockCapacity
            let bytes := EchOS.reservePmm.bytes blockCapacity bitmapWords
            let p ← efiMalloc bytes
            if p = 0#64 then do
              print "Could not allocate %d bytes for the PMM.\n" [bytes]
              pure (.ok (.error efiOutOfResources))
            else
              let blocks := p + sizeofPmm
              let table := EchOS.reservePmm.fillTable blockCapacity.toNat
                (blocks + blockCapacity * sizeofPointer)
              pure (.ok (.ok { physicalMemory := p, blocks, blockPtrs := table.1, blockCapacity,
                               bitmap := table.2, bitmapWords }))

end Boot

/-! ## The buffer of the map -/

/-- What is held when `memoryMap` is the only buffer, if it is one. -/
def bufferHeld (memoryMap : Word) : Multiset BootResource :=
  if memoryMap = 0#64 then 0 else {.pool memoryMap}

theorem bufferHeld_zero : bufferHeld 0#64 = 0 := if_pos rfl

theorem bufferHeld_pointer (p : Pointer) : bufferHeld p = {.pool p} := if_neg p.2

theorem getMemoryMap_bufferHeld (memoryMap : Word) {size : Word} (reply : MapFilled size) :
    bootAccounting.step (bufferHeld memoryMap) ⟨.getMemoryMap size memoryMap, reply⟩
      = some (bufferHeld memoryMap) := by
  refine getMemoryMap_step (fun hne => ?_) reply
  rw [bufferHeld, if_neg hne]
  exact Multiset.mem_singleton_self _

theorem freeUnlessNull_emits (memoryMap : Word) :
    Emits (Boot.freeUnlessNull memoryMap) fun _ events =>
      bootAccounting.ledger (bufferHeld memoryMap) events = some 0 := by
  refine Emits.ite (fun hne => ?_) fun hnull => ?_
  · refine Emits.call_bind fun (status : EfiStatus) => Emits.pure ?_
    rw [bufferHeld, if_neg hne]
    exact ledger_of_step (freePool_step rfl status)
  · refine Emits.pure ?_
    rw [bufferHeld, if_pos (not_not.mp hnull)]
    rfl

/-- The call reported a map of `size` bytes in the buffer at `memoryMap`, which was
    passed with `capacity` bytes. -/
def Reported (capacity memoryMap size : Word) (event : BootEvent) : Prop :=
  ∃ reply : MapFilled capacity, event = ⟨.getMemoryMap capacity memoryMap, reply⟩ ∧
    reply.status = efiSuccess ∧ reply.size = size

/-- A map that was reported fits its buffer, and is not empty. -/
theorem Reported.fits {capacity memoryMap size : Word} {event : BootEvent}
    (h : Reported capacity memoryMap size event) : size.toNat ≤ capacity.toNat ∧ size ≠ 0#64 := by
  obtain ⟨reply, _, hstatus, rfl⟩ := h
  rw [reply.size_eq hstatus]
  exact ⟨reply.fits, reply.nonempty hstatus⟩

/-- The last two events: a buffer is allocated at `memoryMap`, and the firmware reports
    a map of `size` bytes in it, which is not more than was allocated. -/
def Fitted (memoryMap size : Word) (events : BootHistory) : Prop :=
  ∃ earlier capacity, ∃ pool : Reply Pointer, ∃ event,
    events = earlier ++ [⟨.allocatePool capacity, pool⟩, event] ∧ pool.status = efiSuccess ∧
    pool.value = memoryMap ∧ Reported capacity memoryMap size event ∧ size.toNat ≤ capacity.toNat

theorem Fitted.append {memoryMap size : Word} {events : BootHistory}
    (h : Fitted memoryMap size events) (earlier : BootHistory) :
    Fitted memoryMap size (earlier ++ events) := by
  obtain ⟨before, capacity, pool, event, rfl, hrest⟩ := h
  exact ⟨earlier ++ before, capacity, pool, event, (List.append_assoc ..).symm, hrest⟩

/-- What the loop does from a turn with the buffer `memoryMap` and the size `capacity`
    on: its only buffer is the one it ends with, and a map that is reported at once is
    in the first buffer. -/
def LoopEvents (capacity memoryMap : Word) :
    Except Abort (EfiStatus × EfiMmap × Word × ByteMemory) → BootHistory → Prop
  | .error _, events => ∃ left, bootAccounting.ledger (bufferHeld memoryMap) events = some left
  | .ok (result, mmap, last, _), events =>
      bootAccounting.ledger (bufferHeld memoryMap) events = some (bufferHeld last) ∧
      (result = efiSuccess → Fitted last mmap.size events ∨
        last = memoryMap ∧ ∃ event, events = [event] ∧ Reported capacity memoryMap mmap.size event)

theorem LoopEvents.ledger {capacity memoryMap : Word}
    {out : Except Abort (EfiStatus × EfiMmap × Word × ByteMemory)} {events : BootHistory}
    (h : LoopEvents capacity memoryMap out events) :
    ∃ left, bootAccounting.ledger (bufferHeld memoryMap) events = some left := by
  cases out with
  | error _ => exact h
  | ok _ => exact ⟨_, h.1⟩

/-- A turn that gets a new buffer, and the turns after it. -/
theorem LoopEvents.cons {capacity memoryMap poolSize : Word} {earlier later : BootHistory}
    {pool : Reply Pointer} {out : Except Abort (EfiStatus × EfiMmap × Word × ByteMemory)}
    (hearlier : bootAccounting.ledger (bufferHeld memoryMap) earlier = some 0)
    (hpool : pool.status = efiSuccess) (h : LoopEvents poolSize pool.value out later) :
    LoopEvents capacity memoryMap out (earlier ++ ⟨.allocatePool poolSize, pool⟩ :: later) := by
  have hledger : bootAccounting.ledger (bufferHeld memoryMap)
      (earlier ++ ⟨.allocatePool poolSize, pool⟩ :: later)
        = bootAccounting.ledger (bufferHeld pool.value) later := by
    rw [ledger_of_events hearlier, ledger_of_step (allocatePool_step poolSize hpool),
      bufferHeld_pointer]
    rfl
  cases out with
  | error _ =>
      obtain ⟨left, hleft⟩ := h
      exact ⟨left, hledger.trans hleft⟩
  | ok out =>
      obtain ⟨result, mmap, last, memory⟩ := out
      refine ⟨hledger.trans h.1, fun hresult => .inl ?_⟩
      rcases h.2 hresult with hfitted | ⟨rfl, event, rfl, hreported⟩
      · rw [← List.singleton_append, ← List.append_assoc]
        exact hfitted.append _
      · exact ⟨earlier, poolSize, pool, event, rfl, hpool, rfl, hreported, hreported.fits.1⟩

theorem loop_emits (fuel : Nat) (mmap : EfiMmap) (memoryMap : Word) (memory : ByteMemory) :
    Emits (Boot.getEFIMemoryMap.loop fuel mmap memoryMap memory)
      (LoopEvents mmap.size memoryMap) := by
  induction fuel generalizing mmap memoryMap memory with
  | zero => exact Emits.pure ⟨_, rfl⟩
  | succ fuel ih =>
      refine Emits.call_bind fun (reply : MapFilled mmap.size) => ?_
      have hfirst := getMemoryMap_bufferHeld memoryMap reply
      refine Emits.ite (fun hstatus => ?_) fun hstatus => Emits.ite (fun _ => ?_) fun _ => ?_
      · exact Emits.pure ⟨ledger_of_step hfirst, fun _ => .inr ⟨rfl, _, rfl, reply, rfl, hstatus, rfl⟩⟩
      · exact Emits.pure ⟨ledger_of_step hfirst, fun h => absurd h hstatus⟩
      -- the buffer is too small: it is given back before the next one is asked for
      refine (freeUnlessNull_emits memoryMap).bind fun _ freed hfreed => ?_
      refine Emits.call_bind fun (pool : Reply Pointer) => ?_
      refine Emits.ite (fun hpool => ?_) fun hpool => ?_
      · refine Emits.pure ⟨?_, fun h => absurd h hpool⟩
        rw [ledger_of_step hfirst, ledger_of_events hfreed, bufferHeld_zero,
          ledger_of_step (allocatePool_step_failed _ hpool), Oracle.Accounting.ledger_nil]
      · have hpool := not_not.mp hpool
        rw [Boot.pooled, if_pos hpool]
        refine (ih _ pool.value _).conseq fun out later h => ?_
        have hgiven : bootAccounting.ledger (bufferHeld memoryMap)
            (⟨.getMemoryMap mmap.size memoryMap, reply⟩ :: freed) = some 0 :=
          (ledger_of_step hfirst).trans hfreed
        exact LoopEvents.cons hgiven hpool h

/-! ## The calls -/

/-- What `getEFIMemoryMap` leaves: nothing and an empty map, or the buffer that the
    map is in. -/
def MapEvents : Except Abort (EfiStatus × EfiMmap × ByteMemory) → BootHistory → Prop
  | .error _, events => ∃ left, bootAccounting.ledger 0 events = some left
  | .ok (result, mmap, _), events =>
      (result ≠ efiSuccess → bootAccounting.Balanced events 0 ∧
        mmap.start = 0#64 ∧ mmap.stop = 0#64) ∧
      (result = efiSuccess → bootAccounting.Balanced events {.pool mmap.start} ∧
        Fitted mmap.start (mmap.stop - mmap.start) events)

/-- What `reserve_pmm` leaves: nothing, or the storage. -/
def ReserveEvents : Except Abort (Except EfiStatus PmmReserved) → BootHistory → Prop
  | .error _, events => ∃ left, bootAccounting.ledger 0 events = some left
  | .ok (.error _), events => bootAccounting.Balanced events 0
  | .ok (.ok reserved), events => bootAccounting.Balanced events {.pool reserved.physicalMemory}

theorem getEFIMemoryMap_emits (fuel : Nat) (memory : ByteMemory) :
    Emits (Boot.getEFIMemoryMap fuel ⟨0#64, 0#64, 0#64, 0#64, 0#64⟩ memory) MapEvents := by
  refine (loop_emits fuel _ 0#64 memory).bind fun out events h => ?_
  cases out with
  | error abort =>
      refine Emits.pure ?_
      rw [List.append_nil]
      exact h.ledger
  | ok out =>
      obtain ⟨result, mmap, last, memory⟩ := out
      obtain ⟨hledger, hmap⟩ := h
      rw [bufferHeld_zero] at hledger
      refine Emits.ite (fun hresult => ?_) fun hresult => Emits.pure ?_
      · refine (freeUnlessNull_emits last).bind fun _ freed hfreed => Emits.pure ?_
        refine ⟨fun _ => ⟨Oracle.Accounting.balanced_of_ledger ?_, rfl, rfl⟩, fun h => absurd h hresult⟩
        rw [ledger_of_events hledger, List.append_nil, hfreed]
      · have hresult := not_not.mp hresult
        rw [List.append_nil]
        -- no map of at least one byte fits where there is no buffer yet
        have hfitted : Fitted last mmap.size events := by
          rcases hmap hresult with hfitted | ⟨_, _, _, hreported⟩
          · exact hfitted
          · obtain ⟨hfits, hne⟩ := hreported.fits
            exact absurd (BitVec.eq_of_toNat_eq (Nat.le_zero.mp hfits)) hne
        refine ⟨fun hne => absurd hresult hne, fun _ => ⟨?_, ?_⟩⟩
        · obtain ⟨_, _, pool, _, _, _, rfl, _⟩ := hfitted
          rw [bufferHeld_pointer] at hledger
          exact Oracle.Accounting.balanced_of_ledger hledger
        · show Fitted last (last + mmap.size - last) events
          rw [BitVec.add_comm, BitVec.add_sub_cancel]
          exact hfitted

theorem print_emits (format : String) (args : List Word) :
    Emits (Boot.print format args) fun _ events =>
      ∀ held, bootAccounting.ledger held events = some held := by
  intro env before
  exact ⟨_, rfl, fun held => ledger_of_step (print_step _ _)⟩

theorem reservePmm_emits (descriptorAt : ByteMemory → Word → EfiMemoryDescriptor) (walk fuel : Nat)
    (memory : ByteMemory) :
    Emits (Boot.reservePmm descriptorAt walk fuel memory) ReserveEvents := by
  refine (getEFIMemoryMap_emits fuel memory).bind fun out events h => ?_
  cases out with
  | error abort =>
      refine Emits.pure ?_
      rw [List.append_nil]
      exact h
  | ok out =>
      obtain ⟨result, mmap, memory⟩ := out
      refine Emits.ite (fun hresult => ?_) fun hresult => ?_
      · refine (print_emits _ _).bind fun _ printed hprinted => Emits.pure ?_
        refine Oracle.Accounting.balanced_of_ledger ?_
        rw [ledger_of_events (h.1 hresult).1.held, List.append_nil, hprinted]
      have hheld := (h.2 (not_not.mp hresult)).1.held
      cases hcount : Boot.reservePmm.count (descriptorAt memory) mmap walk mmap.start 0#64 0#64 with
      | error abort =>
          refine Emits.pure ?_
          rw [List.append_nil]
          exact ⟨_, hheld⟩
      | ok counts =>
          obtain ⟨blockCount, ramFrames⟩ := counts
          refine (Boot.efiFree_emits mmap.start).bind ?_
          rintro _ _ ⟨freed, rfl⟩
          have hempty : bootAccounting.step {.pool mmap.start} ⟨.freePool mmap.start, freed⟩
              = some 0 := freePool_step rfl freed
          refine (Boot.efiMalloc_emits _).bind fun p allocated hp => ?_
          refine Emits.ite (fun hnull => ?_) fun hne => ?_
          · refine (print_emits _ _).bind fun _ printed hprinted => Emits.pure ?_
            refine Oracle.Accounting.balanced_of_ledger ?_
            rcases hp with ⟨_, hledger⟩ | ⟨pool, _, heq, _⟩
            · rw [ledger_of_events hheld, ledger_of_events (ledger_of_step hempty),
                ledger_of_events (hledger 0), List.append_nil, hprinted]
            · exact absurd (heq.trans hnull) pool.value.2
          · refine Emits.pure (Oracle.Accounting.balanced_of_ledger ?_)
            rcases hp with ⟨hzero, _⟩ | ⟨pool, hpool, rfl, rfl⟩
            · exact absurd hzero hne
            · rw [ledger_of_events hheld, List.append_nil, ledger_of_events (ledger_of_step hempty),
                ledger_of_step (allocatePool_step _ hpool)]
              rfl

/-! ## The storage -/

/-- The descriptors that `reserve_pmm`'s loop reads. -/
def descriptorsFrom (descriptorAt : Word → EfiMemoryDescriptor) (mmap : EfiMmap) :
    (fuel : Nat) → (offset : Word) → List EfiMemoryDescriptor
  | 0, _ => []
  | fuel + 1, offset =>
      if offset < mmap.stop then
        descriptorAt offset :: descriptorsFrom descriptorAt mmap fuel (offset + mmap.descriptorSize)
      else []

theorem count_eq_scan {descriptorAt : Word → EfiMemoryDescriptor} {mmap : EfiMmap} {fuel : Nat}
    {offset blockCount ramFrames : Word} {counts : Word × Word}
    (h : Boot.reservePmm.count descriptorAt mmap fuel offset blockCount ramFrames = .ok counts) :
    counts = reservePmm.scan (descriptorsFrom descriptorAt mmap fuel offset) blockCount ramFrames := by
  induction fuel generalizing offset blockCount ramFrames with
  | zero => cases h
  | succ fuel ih =>
      rw [Boot.reservePmm.count] at h
      rw [descriptorsFrom]
      split at h
      · next hlt =>
          rw [if_pos hlt, reservePmm.scan]
          exact ih h
      · next hlt =>
          cases h
          rw [if_neg hlt, reservePmm.scan]

/-- Whatever map it gets and wherever the storage is allocated, `reserve_pmm` returns
    what `reservePmm` makes of the map's descriptors and that address. -/
theorem reservePmm_refines (descriptorAt : ByteMemory → Word → EfiMemoryDescriptor)
    (walk fuel : Nat) (memory : ByteMemory) :
    Emits (Boot.reservePmm descriptorAt walk fuel memory) fun out _ =>
      ∀ r, out = .ok r → ∃ status mmap memory p,
        r = (reservePmm (status, descriptorsFrom (descriptorAt memory) mmap walk mmap.start)
          fun _ => p).mapError Prod.fst := by
  refine (getEFIMemoryMap_emits fuel memory).bind fun out _ _ => ?_
  cases out with
  | error abort => exact Emits.pure fun r hr => nomatch hr
  | ok out =>
      obtain ⟨result, mmap, memory⟩ := out
      refine Emits.ite (fun hresult => ?_) fun hresult => ?_
      · refine (print_emits _ _).bind fun _ _ _ => Emits.pure fun r hr => ?_
        cases hr
        refine ⟨result, mmap, memory, 0#64, ?_⟩
        rw [reservePmm, if_pos hresult]
        rfl
      cases hcount : Boot.reservePmm.count (descriptorAt memory) mmap walk mmap.start 0#64 0#64 with
      | error abort => exact Emits.pure fun r hr => nomatch hr
      | ok counts =>
          have hscan := count_eq_scan hcount
          refine (Boot.efiFree_emits mmap.start).bind fun _ _ _ => ?_
          refine (Boot.efiMalloc_emits _).bind fun p _ _ => ?_
          refine Emits.ite (fun hnull => ?_) fun hne => ?_
          · refine (print_emits _ _).bind fun _ _ _ => Emits.pure fun r hr => ?_
            cases hr
            refine ⟨result, mmap, memory, p, ?_⟩
            rw [reservePmm, if_neg hresult]
            simp only [if_pos hnull]
            rfl
          · refine Emits.pure fun r hr => ?_
            cases hr
            refine ⟨result, mmap, memory, p, ?_⟩
            rw [reservePmm, if_neg hresult]
            simp only [if_neg hne, ← hscan]
            rfl

/-- **The pool stays balanced.**  Against every firmware, after any history and however
    often the loops turn: `getEFIMemoryMap`, with the empty map its callers pass, and
    `reserve_pmm` free only buffers that are allocated.  When they fail nothing they
    allocated is left; otherwise the one buffer left is that of the map, into which
    the size reported last fits, and that of the storage. -/
theorem memory_map_pool_balanced (firmware : BootFirmware) (before : BootHistory) (fuel walk : Nat)
    (memory : ByteMemory) (descriptorAt : ByteMemory → Word → EfiMemoryDescriptor) :
    (∃ out events, Boot.getEFIMemoryMap fuel ⟨0#64, 0#64, 0#64, 0#64, 0#64⟩ memory firmware before
        = (out, before ++ events) ∧ MapEvents out events) ∧
    ∃ out events, Boot.reservePmm descriptorAt walk fuel memory firmware before
      = (out, before ++ events) ∧ ReserveEvents out events := by
  constructor
  · obtain ⟨events, hrun, h⟩ := getEFIMemoryMap_emits fuel memory firmware before
    exact ⟨_, events, Prod.ext rfl hrun, h⟩
  · obtain ⟨events, hrun, h⟩ := reservePmm_emits descriptorAt walk fuel memory firmware before
    exact ⟨_, events, Prod.ext rfl hrun, h⟩

end EchOS
