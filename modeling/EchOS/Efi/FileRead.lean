/-
  EchOS.Efi.FileRead

  `efi_fread` of `efi-stage/efi_fs.c`, and the resources it handles.

  The events of a call are given in full: the volumes that could not be opened in the
  order of their handles, then the one that could (`FirstFile`), then what becomes of
  its file.  The ledger of `bootAccounting` is run along with them.
-/
import EchOS.Efi.BootServices

namespace EchOS

open Oracle (Emits)
open Oracle.Accounting (ledger_of_step ledger_of_events)

/-! ## The function -/

/-- `EFI_FILE_MODE_READ` -/
def efiFileModeRead : Word := 1#64

/-- `EFI_FILE_READ_ONLY | EFI_FILE_HIDDEN | EFI_FILE_SYSTEM` -/
def efiFreadAttributes : Word := 1#64 ||| 2#64 ||| 4#64

namespace Boot

/-- The loop of `efi_fread` over the volumes, with `left` to go from `index`: `root`,
    `file` and `result` as it leaves them. -/
def efiFread.volumes (filename handles : Word) :
    (left : Nat) → (index root file : Word) → (result : EfiStatus) →
      Boot (Word × Word × EfiStatus)
  | 0, _, root, file, result => pure (root, file, result)
  | left + 1, index, root, file, result => do
      let protocol ← handleProtocol handles index
      let fs := protocol.outPointer 0#64
      if protocol.Failed then efiFread.volumes filename handles left (index + 1#64) root file result
      else do
        let volume ← openVolume fs
        let root := volume.outPointer root
        if volume.Failed then efiFread.volumes filename handles left (index + 1#64) root file result
        else do
          let opened ← openFile root filename efiFileModeRead efiFreadAttributes
          let file := opened.outPointer file
          if ¬ opened.Failed then pure (root, file, opened.status)
          else do
            let _ ← close root
            efiFread.volumes filename handles left (index + 1#64) 0#64 0#64 opened.status

/-- From `close:` on. -/
def efiFread.closeBoth (root file : Word) (result : EfiStatus) (length buffer : Word) :
    Boot (EfiStatus × Word × Word) := do
  let _ ← close file
  let _ ← close root
  pure (result, length, buffer)

/-- `efi_fread` from GetInfo on. -/
def efiFread.readFile (root file length buffer : Word) : Boot (EfiStatus × Word × Word) := do
  let info ← getInfo file
  if info.Failed then efiFread.closeBoth root file info.status length buffer
  else do
    let size := info.value
    let data ← efiMalloc size
    if data = 0#64 then efiFread.closeBoth root file efiOutOfResources length buffer
    else do
      let reply ← read file size data
      let read := reply.out size
      let result := if ¬ reply.Failed ∧ read ≠ size then efiEndOfFile else reply.status
      if efiError result then do
        efiFree data
        efiFread.closeBoth root file result length buffer
      else efiFread.closeBoth root file result size data

/-- `efi_fread`: the status, and `*length` and `*buffer` after the call. -/
def efiFread (filename length buffer : Word) : Boot (EfiStatus × Word × Word) := do
  let located ← locateHandleBuffer
  if located.Failed then pure (located.status, length, buffer)
  else do
    let handles : Word := located.value.handles
    let (root, file, result) ← efiFread.volumes filename handles located.value.handleCount.toNat
      0#64 0#64 0#64 efiNotFound
    let _ ← freePool handles
    if file = 0#64 then pure (if efiError result then result else efiNotFound, length, buffer)
    else efiFread.readFile root file length buffer

end Boot

/-! ## Volumes -/

/-- What happens on a volume that is passed over: it has no such protocol, it cannot
    be opened, or the file cannot. -/
inductive Skipped (filename handles index : Word) : BootHistory → Prop where
  | protocol {reply : Reply Pointer} (failed : reply.Failed) :
      Skipped filename handles index [⟨.handleProtocol handles index, reply⟩]
  | volume {protocol reply : Reply Pointer} (found : ¬ protocol.Failed) (failed : reply.Failed) :
      Skipped filename handles index
        [⟨.handleProtocol handles index, protocol⟩, ⟨.openVolume protocol.value, reply⟩]
  | file {protocol volume reply : Reply Pointer} {closed : EfiStatus} (found : ¬ protocol.Failed)
      (opened : ¬ volume.Failed) (failed : reply.Failed) :
      Skipped filename handles index
        [⟨.handleProtocol handles index, protocol⟩, ⟨.openVolume protocol.value, volume⟩,
         ⟨.open volume.value filename efiFileModeRead efiFreadAttributes, reply⟩,
         ⟨.close volume.value, closed⟩]

/-- The volumes from `index` up to but not including the `n`th after it are passed
    over, in this order. -/
inductive AllSkipped (filename handles : Word) : (index : Word) → (n : Nat) → BootHistory → Prop where
  | none {index : Word} : AllSkipped filename handles index 0 []
  | cons {index : Word} {n : Nat} {events later : BootHistory}
      (first : Skipped filename handles index events)
      (rest : AllSkipped filename handles (index + 1#64) n later) :
      AllSkipped filename handles index (n + 1) (events ++ later)

/-- The protocol, the volume and the file of handle `index` could be opened. -/
inductive Opened (filename handles index root file : Word) : BootHistory → Prop where
  | intro {protocol volume opened : Reply Pointer} (found : ¬ protocol.Failed)
      (entered : ¬ volume.Failed) (got : ¬ opened.Failed) (root_eq : volume.value = root)
      (file_eq : opened.value = file) :
      Opened filename handles index root file
        [⟨.handleProtocol handles index, protocol⟩, ⟨.openVolume protocol.value, volume⟩,
         ⟨.open root filename efiFileModeRead efiFreadAttributes, opened⟩]

section Volumes

variable {filename handles : Word} {held : Multiset BootResource}
  (hheld : BootResource.pool handles ∈ held)

include hheld

/-- Nothing is left of a volume that is passed over. -/
theorem Skipped.ledger {index : Word} {events : BootHistory}
    (h : Skipped filename handles index events) :
    bootAccounting.ledger held events = some held := by
  cases h with
  | protocol failed => simp [handleProtocol_step hheld]
  | volume found failed => simp [handleProtocol_step hheld, openVolume_step_failed _ failed]
  | file found opened failed =>
      simp [handleProtocol_step hheld, openVolume_step _ opened,
        open_step_failed (Multiset.mem_cons_self _ _) _ _ _ failed, close_step rfl]

theorem AllSkipped.ledger {index : Word} {n : Nat} {events : BootHistory}
    (h : AllSkipped filename handles index n events) :
    bootAccounting.ledger held events = some held := by
  induction h with
  | none => rfl
  | cons first _ ih =>
      rw [Oracle.Accounting.ledger_append, first.ledger hheld]
      exact ih

/-- The root and the file are left of the volume whose file could be opened. -/
theorem Opened.ledger {index root file : Word} {events : BootHistory}
    (h : Opened filename handles index root file events) :
    bootAccounting.ledger held events = some (.file file ::ₘ .file root ::ₘ held) := by
  cases h with
  | intro found entered got root_eq file_eq =>
      subst root_eq file_eq
      simp [handleProtocol_step hheld, openVolume_step _ entered,
        open_step (Multiset.mem_cons_self _ _) _ _ _ got]

end Volumes

/-- The loop passes over every volume, or it stops at the first one whose file can be
    opened. -/
theorem volumes_emits (filename handles : Word) (left : Nat) (index : Word) (result : EfiStatus) :
    Emits (Boot.efiFread.volumes filename handles left index 0#64 0#64 result) fun out events =>
      (out.2.1 = 0#64 ∧ AllSkipped filename handles index left events) ∨
      ∃ n skipped opened, n < left ∧ events = skipped ++ opened ∧ out.2.1 ≠ 0#64 ∧
        AllSkipped filename handles index n skipped ∧
        Opened filename handles (index + BitVec.ofNat 64 n) out.1 out.2.1 opened := by
  induction left generalizing index result with
  | zero => exact Emits.pure (.inl ⟨rfl, .none⟩)
  | succ left ih =>
      -- the volume at `index` is passed over, and the loop goes on
      have hnext : ∀ events result, Skipped filename handles index events →
          Emits (Boot.efiFread.volumes filename handles left (index + 1#64) 0#64 0#64 result)
            fun out later =>
              (out.2.1 = 0#64 ∧ AllSkipped filename handles index (left + 1) (events ++ later)) ∨
              ∃ n skipped opened, n < left + 1 ∧ events ++ later = skipped ++ opened ∧
                out.2.1 ≠ 0#64 ∧ AllSkipped filename handles index n skipped ∧
                Opened filename handles (index + BitVec.ofNat 64 n) out.1 out.2.1 opened := by
        intro events result hskipped
        refine (ih (index + 1#64) result).conseq fun out later h => ?_
        rcases h with ⟨hfile, hall⟩ | ⟨n, skipped, opened, hn, rfl, hfile, hall, hopened⟩
        · exact .inl ⟨hfile, .cons hskipped hall⟩
        · refine .inr ⟨n + 1, events ++ skipped, opened, Nat.succ_lt_succ hn,
            (List.append_assoc _ _ _).symm, hfile, .cons hskipped hall, ?_⟩
          rw [BitVec.ofNat_add, BitVec.add_comm (BitVec.ofNat 64 n), ← BitVec.add_assoc]
          exact hopened
      refine Emits.call_bind fun (protocol : Reply Pointer) => ?_
      refine Emits.ite (fun hprotocol => ?_) fun hprotocol => ?_
      · exact hnext _ _ (.protocol hprotocol)
      rw [Reply.outPointer, if_neg hprotocol]
      refine Emits.call_bind fun (volume : Reply Pointer) => ?_
      refine Emits.ite (fun hvolume => ?_) fun hvolume => ?_
      · rw [Reply.outPointer, if_pos hvolume]
        exact hnext _ _ (.volume hprotocol hvolume)
      rw [Reply.outPointer, if_neg hvolume]
      refine Emits.call_bind fun (opened : Reply Pointer) => ?_
      refine Emits.ite (fun hopened => ?_) fun hopened => ?_
      · rw [Reply.outPointer, if_neg hopened]
        refine Emits.pure (.inr ⟨0, [], _, Nat.succ_pos _, rfl, opened.value.2, .none, ?_⟩)
        rw [BitVec.add_zero]
        exact .intro hprotocol hvolume hopened rfl rfl
      · refine Emits.call_bind fun closed => ?_
        exact hnext _ _ (.file hprotocol hvolume (not_not.mp hopened))

/-! ## The file -/

/-- The file is read whole: GetInfo reports `length` bytes, the pool has a buffer for
    them at `buffer`, Read reads that many, and everything is closed. -/
inductive WholeFile (root file length buffer : Word) : BootHistory → Prop where
  | intro {info read : Reply Word} {pool : Reply Pointer} {closedFile closedRoot : EfiStatus}
      (sized : ¬ info.Failed) (size_eq : info.value = length) (allocated : pool.status = efiSuccess)
      (buffer_eq : pool.value = buffer) (filled : ¬ read.Failed) (count_eq : read.value = length) :
      WholeFile root file length buffer
        [⟨.getInfo file, info⟩, ⟨.allocatePool length, pool⟩, ⟨.read file length buffer, read⟩,
         ⟨.close file, closedFile⟩, ⟨.close root, closedRoot⟩]

section File

variable {root file : Word} {held : Multiset BootResource}

/-- The order in which a buffer and the two files are held does not matter. -/
theorem pool_cons_files (buffer file root : Word) :
    (.pool buffer ::ₘ .file file ::ₘ {.file root} : Multiset BootResource)
      = .file file ::ₘ .file root ::ₘ {.pool buffer} := by
  rw [Multiset.cons_swap]
  exact congrArg (Multiset.cons _) (Multiset.pair_comm _ _)

theorem closeBoth_ledger (closedFile closedRoot : EfiStatus) :
    bootAccounting.ledger (.file file ::ₘ .file root ::ₘ held)
      [⟨.close file, closedFile⟩, ⟨.close root, closedRoot⟩] = some held := by
  simp [close_step rfl]

theorem closeBoth_emits (root file : Word) (result : EfiStatus) (length buffer : Word) :
    Emits (Boot.efiFread.closeBoth root file result length buffer) fun out events =>
      out = (result, length, buffer) ∧
      ∃ closedFile closedRoot, events = [⟨.close file, closedFile⟩, ⟨.close root, closedRoot⟩] :=
  Emits.call_bind fun closedFile => Emits.call_bind fun closedRoot =>
    Emits.pure ⟨rfl, closedFile, closedRoot, rfl⟩

theorem WholeFile.ledger {length buffer : Word} {events : BootHistory}
    (h : WholeFile root file length buffer events) :
    bootAccounting.ledger (.file file ::ₘ {.file root}) events = some {.pool buffer} := by
  cases h with
  | intro sized size_eq allocated buffer_eq filled count_eq =>
      have hfile : BootResource.file file ∈ (.file file ::ₘ {.file root} : Multiset BootResource) :=
        Multiset.mem_cons_self _ _
      subst buffer_eq
      rw [Oracle.Accounting.ledger_cons, getInfo_step hfile, Option.bind_some,
        Oracle.Accounting.ledger_cons, allocatePool_step _ allocated, Option.bind_some,
        Oracle.Accounting.ledger_cons,
        read_step (Multiset.mem_cons_of_mem hfile) (Multiset.mem_cons_self _ _), Option.bind_some,
        pool_cons_files]
      exact closeBoth_ledger _ _

/-- From GetInfo on: nothing is left after an error, and otherwise the buffer is. -/
theorem readFile_emits (root file length buffer : Word) :
    Emits (Boot.efiFread.readFile root file length buffer) fun out events =>
      (efiError out.1 = true →
        bootAccounting.ledger (.file file ::ₘ {.file root}) events = some 0 ∧ out.2 = (length, buffer)) ∧
      (efiError out.1 = false → WholeFile root file out.2.1 out.2.2 events) := by
  have hfile : BootResource.file file ∈ (.file file ::ₘ {.file root} : Multiset BootResource) :=
    Multiset.mem_cons_self _ _
  -- every error ends in closing both
  have hfail : ∀ (result : EfiStatus) (earlier : BootHistory), efiError result = true →
      bootAccounting.ledger (.file file ::ₘ {.file root}) earlier = some (.file file ::ₘ {.file root}) →
      Emits (Boot.efiFread.closeBoth root file result length buffer) fun out later =>
        (efiError out.1 = true → bootAccounting.ledger (.file file ::ₘ {.file root}) (earlier ++ later)
          = some 0 ∧ out.2 = (length, buffer)) ∧
        (efiError out.1 = false → WholeFile root file out.2.1 out.2.2 (earlier ++ later)) := by
    intro result earlier herror hearlier
    refine (closeBoth_emits root file result length buffer).conseq ?_
    rintro _ _ ⟨rfl, closedFile, closedRoot, rfl⟩
    refine ⟨fun _ => ⟨?_, rfl⟩, fun hok => ?_⟩
    · rw [Oracle.Accounting.ledger_append, hearlier]
      exact closeBoth_ledger closedFile closedRoot
    · rw [herror] at hok
      cases hok
  refine Emits.call_bind fun (info : Reply Word) => ?_
  have hinfoStep := getInfo_step hfile info
  refine Emits.ite (fun hinfo => ?_) fun hinfo => ?_
  · exact hfail info.status [⟨.getInfo file, info⟩] hinfo (by simp [hinfoStep])
  refine (Boot.efiMalloc_emits info.value).bind fun data events hdata => ?_
  refine Emits.ite (fun hnull => ?_) fun hnull => ?_
  · rcases hdata with ⟨_, hledger⟩ | ⟨pool, _, hpool, _⟩
    · exact hfail efiOutOfResources (⟨.getInfo file, info⟩ :: events) (by decide)
        (by simp [hinfoStep, hledger])
    · exact absurd (hpool.trans hnull) pool.value.2
  · rcases hdata with ⟨hzero, _⟩ | ⟨pool, hstatus, rfl, rfl⟩
    · exact absurd hzero hnull
    refine Emits.call_bind fun (reply : Reply Word) => ?_
    refine Emits.ite (fun herror => ?_) fun hok => ?_
    · -- the read failed, or it stopped short
      refine (Boot.efiFree_emits pool.value).bind ?_
      rintro _ _ ⟨freed, rfl⟩
      refine hfail _ [⟨.getInfo file, info⟩, ⟨.allocatePool info.value, pool⟩,
        ⟨.read file info.value pool.value, reply⟩, ⟨.freePool pool.value, freed⟩] herror ?_
      simp [hinfoStep, allocatePool_step _ hstatus,
        read_step (Multiset.mem_cons_of_mem hfile) (Multiset.mem_cons_self _ _), freePool_step rfl]
    · refine (closeBoth_emits root file _ info.value pool.value).conseq ?_
      rintro _ _ ⟨rfl, closedFile, closedRoot, rfl⟩
      refine ⟨fun herror => absurd herror hok, fun _ => ?_⟩
      have hread : ¬ reply.Failed ∧ reply.value = info.value := by
        by_cases hfailed : reply.Failed
        · rw [if_neg fun h => h.1 hfailed] at hok
          exact absurd hfailed hok
        · refine ⟨hfailed, ?_⟩
          by_contra hshort
          rw [Reply.out, if_neg hfailed, if_pos ⟨hfailed, hshort⟩] at hok
          exact hok (by decide)
      exact .intro hinfo rfl hstatus rfl hread.1 hread.2

end File

/-! ## The whole call -/

/-- The events of a successful call: the file comes from the first volume in handle
    order on which protocol, volume and file could all be opened, and it is read
    whole. -/
inductive FirstFile (filename length buffer : Word) : BootHistory → Prop where
  | intro {located : Reply Located} {freed : EfiStatus} {n : Nat} {root file : Word}
      {skipped opened rest : BootHistory} (found : ¬ located.Failed)
      (inside : n < located.value.handleCount.toNat)
      (first : AllSkipped filename located.value.handles 0#64 n skipped)
      (volume : Opened filename located.value.handles (BitVec.ofNat 64 n) root file opened)
      (whole : WholeFile root file length buffer rest) :
      FirstFile filename length buffer (⟨.locateHandleBuffer, located⟩ :: (skipped ++ opened) ++
        ⟨.freePool located.value.handles, freed⟩ :: rest)

theorem efiFread_emits (filename length buffer : Word) :
    Emits (Boot.efiFread filename length buffer) fun out events =>
      (efiError out.1 = true → bootAccounting.ledger 0 events = some 0 ∧ out.2 = (length, buffer)) ∧
      (efiError out.1 = false → bootAccounting.ledger 0 events = some {.pool out.2.2} ∧
        FirstFile filename out.2.1 out.2.2 events) := by
  refine Emits.call_bind fun (located : Reply Located) => ?_
  refine Emits.ite (fun hlocated => ?_) fun hlocated => ?_
  · have herror : efiError located.status = true := hlocated
    refine Emits.pure ⟨fun _ => ⟨?_, rfl⟩, fun hok => absurd (herror.symm.trans hok) (by decide)⟩
    simp [locateHandleBuffer_step_failed hlocated]
  have hlocate : bootAccounting.step 0 ⟨.locateHandleBuffer, located⟩
      = some (.pool located.value.handles ::ₘ 0) := locateHandleBuffer_step hlocated
  have hhandles := Multiset.mem_cons_self (BootResource.pool located.value.handles) 0
  refine (volumes_emits filename located.value.handles _ 0#64 efiNotFound).bind ?_
  rintro ⟨root, file, result⟩ events (⟨hnone, hall⟩ | ⟨n, skipped, opened, hn, rfl, hsome, hall, hopened⟩)
  · -- no volume has the file
    refine Emits.call_bind fun (freed : EfiStatus) => ?_
    refine Emits.ite (fun _ => ?_) fun hne => absurd hnone hne
    have herror : efiError (if efiError result then result else efiNotFound) = true := by
      split
      · assumption
      · decide
    refine Emits.pure ⟨fun _ => ⟨?_, rfl⟩, fun hok => absurd (herror.symm.trans hok) (by decide)⟩
    have hfree : bootAccounting.step (.pool located.value.handles ::ₘ 0)
        ⟨.freePool located.value.handles, freed⟩ = some 0 := freePool_step rfl freed
    rw [ledger_of_step hlocate, ledger_of_events (hall.ledger hhandles), ledger_of_step hfree,
      Oracle.Accounting.ledger_nil]
  · have hvolume : bootAccounting.ledger (.pool located.value.handles ::ₘ 0) opened
        = some (.file file ::ₘ .file root ::ₘ {.pool located.value.handles}) :=
      hopened.ledger hhandles
    refine Emits.call_bind fun (freed : EfiStatus) => ?_
    refine Emits.ite (fun heq => absurd heq hsome) fun _ => ?_
    have hheld := (pool_cons_files located.value.handles file root).symm
    have hbefore : ∀ rest, bootAccounting.ledger 0 (⟨.locateHandleBuffer, located⟩ ::
        (skipped ++ opened ++ ⟨.freePool located.value.handles, freed⟩ :: rest))
          = bootAccounting.ledger (.file file ::ₘ {.file root}) rest := by
      intro rest
      rw [ledger_of_step hlocate, List.append_assoc, ledger_of_events (hall.ledger hhandles),
        ledger_of_events hvolume, ledger_of_step (freePool_step hheld freed)]
    refine (readFile_emits root file length buffer).conseq fun out rest h => ?_
    refine ⟨fun herror => ?_, fun hok => ?_⟩
    · rw [hbefore]
      exact h.1 herror
    · have hwhole := h.2 hok
      rw [hbefore]
      exact ⟨hwhole.ledger, .intro hlocated hn hall (by simpa using hopened) hwhole⟩

/-- **`efi_fread` leaks nothing.**  Against every firmware and after any history: the
    call uses only what it holds.  If it returns an error, everything it got has been
    given back and `*length` and `*buffer` are as they were.  Otherwise the buffer at
    `*buffer` is all that is left, and it has the `*length` bytes of the first file
    there is. -/
theorem efiFread_leaks_nothing (firmware : BootFirmware) (before : BootHistory)
    (filename length buffer : Word) :
    ∃ status length' buffer' events,
      Boot.efiFread filename length buffer firmware before
        = ((status, length', buffer'), before ++ events) ∧
      (efiError status = true →
        bootAccounting.Balanced events 0 ∧ length' = length ∧ buffer' = buffer) ∧
      (efiError status = false →
        bootAccounting.Balanced events {.pool buffer'} ∧ FirstFile filename length' buffer' events) := by
  obtain ⟨events, hrun, hfail, hok⟩ := efiFread_emits filename length buffer firmware before
  refine ⟨_, _, _, events, Prod.ext rfl hrun, fun herror => ?_, fun hsuccess => ?_⟩
  · obtain ⟨hledger, hout⟩ := hfail herror
    have hpair := Prod.mk.inj hout
    exact ⟨Oracle.Accounting.balanced_of_ledger hledger, hpair.1, hpair.2⟩
  · obtain ⟨hledger, hfirst⟩ := hok hsuccess
    exact ⟨Oracle.Accounting.balanced_of_ledger hledger, hfirst⟩

end EchOS
