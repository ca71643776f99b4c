/-
  EchOS.Kernel.Memory.GrantedRights

  The rights in force after a successful `map_page` or `map_range`.

  A turn either writes a leaf entry with the requested rights or keeps a 2 MiB page
  that maps the page to the requested frame.  The loop invariant `Granting` says
  which: a page keeps its rights exactly when its 2 MiB page was there before the
  call and no 2 MiB step of the call goes over it (`Recast`).
-/
import EchOS.Kernel.Memory.LeafRights

namespace EchOS

/-! ## The rights of the entries that are written -/

theorem Rights.ofEntry_congr {e flags : Word}
    (hwrite : e &&& readWriteBit = flags &&& readWriteBit)
    (huser : e &&& userSupervisorBit = flags &&& userSupervisorBit)
    (hexec : e &&& nxBit = flags &&& nxBit) : Rights.ofEntry e = Rights.ofEntry flags := by
  unfold Rights.ofEntry
  rw [hwrite, huser, hexec]

theorem initPtEntry_rights (p flags : Word) :
    Rights.ofEntry (initPtEntry p (flags ||| presentBit)) = Rights.ofEntry flags := by
  unfold initPtEntry
  rw [← BitVec.or_assoc]
  exact Rights.ofEntry_congr (leafEntry_and (by decide) (by decide))
    (leafEntry_and (by decide) (by decide)) (leafEntry_and (by decide) (by decide))

theorem largeEntry_rights (p flags : Word) :
    Rights.ofEntry (largeEntry p flags) = Rights.ofEntry flags := by
  unfold largeEntry
  rw [BitVec.or_assoc]
  exact Rights.ofEntry_congr (leafEntry_and (by decide) (by decide))
    (leafEntry_and (by decide) (by decide)) (leafEntry_and (by decide) (by decide))

/-- A leaf entry that is there and has the rights of `flags`. -/
def Granted (flags : Word) (entry : Option Word) : Prop :=
  ∃ e, entry = some e ∧ Rights.ofEntry e = Rights.ofEntry flags

/-! ## A run over a span -/

/-- One of the first `k` pages of the span is where a 2 MiB step over `w`'s region
    fits. -/
def Recast (v p stop : Word) (k : Nat) (w : Word) : Prop :=
  ∃ i, i < k ∧ LargeFits (nthPage v i) (nthPage p i) stop ∧ path 3 w = path 3 (nthPage v i)

namespace Machine

/-- The machine `s` after the loop has gone over `k` pages, from `s0`. -/
structure Granting (flags root v p stop : Word) (s0 : Machine) (k : Nat) (s : Machine) : Prop where
  inv : s.TreeInv root
  /-- 2 MiB pages that no step went over are as they were; over the others a step put
      one with the rights of `flags`, unless there is a page table. -/
  old : ∀ w, ¬ Recast v p stop k w → s.leafEntryAt root (path 3 w) = s0.leafEntryAt root (path 3 w)
  recast : ∀ w, Recast v p stop k w → Granted flags (s.leafEntryAt root (path 3 w)) ∨
    s.leafEntryAt root (path 3 w) = none ∧ s0.leafEntryAt root (path 3 w) = none
  kept : ∀ j, j < k → s0.leafEntryAt root (path 3 (nthPage v j)) ≠ none →
    ¬ Recast v p stop k (nthPage v j) →
    s.pageEntry root (nthPage v j) = s0.pageEntry root (nthPage v j)
  granted : ∀ j, j < k → s0.leafEntryAt root (path 3 (nthPage v j)) = none ∨
    Recast v p stop k (nthPage v j) → Granted flags (s.pageEntry root (nthPage v j))

variable {flags root v p stop : Word} {s0 s s' : Machine} {k : Nat}

theorem Granting.zero (hinv : s0.TreeInv root) : Granting flags root v p stop s0 0 s0 where
  inv := hinv
  old _ _ := rfl
  recast _ h := by
    obtain ⟨i, hi, _⟩ := h
    exact absurd hi (Nat.not_lt_zero i)
  kept j hj := absurd hj (Nat.not_lt_zero j)
  granted j hj := absurd hj (Nat.not_lt_zero j)

end Machine

theorem Recast.mono {v p stop w : Word} {k m : Nat} (hkm : k ≤ m) (h : Recast v p stop k w) :
    Recast v p stop m w := by
  obtain ⟨i, hi, hrest⟩ := h
  exact ⟨i, by omega, hrest⟩

/-- Going over one more page recasts its region if a 2 MiB step fits there. -/
theorem recast_succ_iff {v p stop w : Word} {k : Nat} :
    Recast v p stop (k + 1) w ↔ Recast v p stop k w ∨
      LargeFits (nthPage v k) (nthPage p k) stop ∧ path 3 w = path 3 (nthPage v k) := by
  constructor
  · rintro ⟨i, hi, hrest⟩
    rcases Nat.lt_or_ge i k with hik | hik
    · exact .inl ⟨i, hik, hrest⟩
    · rw [show i = k by omega] at hrest
      exact .inr hrest
  · rintro (h | h)
    · exact h.mono (Nat.le_succ k)
    · exact ⟨k, Nat.lt_succ_self k, h⟩

/-- Going over a 2 MiB step recasts its region. -/
theorem recast_add_iff {v p stop w : Word} {k : Nat} (hclear : stop.toNat ≤ 2 ^ 64 - 4096)
    (hk : k < spanPages v stop) (hfits : LargeFits (nthPage v k) (nthPage p k) stop) :
    Recast v p stop (k + 512) w ↔ Recast v p stop k w ∨ path 3 w = path 3 (nthPage v k) := by
  have hadd := span_fits_add_le hclear hk hfits
  have hfirst := (span_fits hclear hk hfits).1
  constructor
  · rintro ⟨i, hi, hfits', hregion⟩
    rcases Nat.lt_or_ge i k with hik | hik
    · exact .inl ⟨i, hik, hfits', hregion⟩
    · -- 2 MiB steps start at the first page of a region
      have hother := (span_fits hclear (by omega) hfits').1
      rw [show i = k by omega] at hregion
      exact .inr hregion
  · rintro (h | h)
    · exact h.mono (Nat.le_add_right k 512)
    · exact ⟨k, by omega, hfits, h⟩

namespace Machine

variable {flags root v p stop : Word} {s0 s s' : Machine} {k : Nat}

/-- A 2 MiB step gives all pages of its region the rights of `flags`. -/
theorem Granting.large (hclear : stop.toNat ≤ 2 ^ 64 - 4096) (hk : k < spanPages v stop)
    (h : Granting flags root v p stop s0 k s) (hinv : s'.TreeInv root)
    (fits : LargeFits (nthPage v k) (nthPage p k) stop)
    (hleaves : s'.leafEntryAt root = Function.update (s.leafEntryAt root) (path 3 (nthPage v k))
      (some (largeEntry (nthPage p k) flags))) :
    Granting flags root v p stop s0 (k + 512) s' := by
  have hiff : ∀ w, Recast v p stop (k + 512) w ↔
      Recast v p stop k w ∨ path 3 w = path 3 (nthPage v k) := fun w =>
    recast_add_iff hclear hk fits
  have hentry := pageEntry_update_large hleaves
  -- the step writes the entry of the whole region
  have hgranted : Granted flags (some (largeEntry (nthPage p k) flags)) :=
    ⟨_, rfl, largeEntry_rights _ _⟩
  have hfirst := (largeFits_iff.mp fits).1
  have hregion : ∀ j, k ≤ j → j < k + 512 → path 3 (nthPage v j) = path 3 (nthPage v k) := by
    intro j hkj hj
    have hpage := path_three_nthPage hfirst (show j - k < 512 by omega)
    rwa [nthPage_add, Nat.add_sub_cancel' hkj] at hpage
  refine ⟨hinv, fun w hw => ?_, fun w hw => ?_, fun j hj hold hno => ?_, fun j hj hor => ?_⟩
  · rw [hiff, not_or] at hw
    rw [hleaves, Function.update_of_ne hw.2]
    exact h.old w hw.1
  · rw [hleaves, Function.update_apply]
    split
    · exact .inl hgranted
    · next hne => exact h.recast w (((hiff w).mp hw).resolve_right fun heq => hne (by rw [heq]))
  · -- a page that is kept lies before the step
    rw [hiff, not_or] at hno
    have hjk : j < k := by
      by_contra hge
      exact hno.2 (hregion j (by omega) hj)
    rw [hentry, if_neg hno.2]
    exact h.kept j hjk hold hno.1
  · rw [hentry]
    split
    · exact hgranted
    · next hne =>
        have hjk : j < k := by
          by_contra hge
          exact hne (hregion j (by omega) hj)
        exact h.granted j hjk (hor.imp id fun hre => ((hiff _).mp hre).resolve_right hne)

/-- A page that a 2 MiB page maps as asked keeps its entry. -/
theorem Granting.same (h : Granting flags root v p stop s0 k s) (hinv : s'.TreeInv root) {e : Word}
    (notLarge : ¬ (LargeFits (nthPage v k) (nthPage p k) stop ∧
      s.tableAt root (path 3 (nthPage v k)) = none))
    (covered : s.leafEntryAt root (path 3 (nthPage v k)) = some e)
    (hleaves : s'.leafEntryAt root = s.leafEntryAt root) :
    Granting flags root v p stop s0 (k + 1) s' := by
  -- the 2 MiB page leaves no room for a page table, so no step fits here
  have hnoTable : s.tableAt root (path 3 (nthPage v k)) = none := by
    have hleaf : s.leafAt root (path 3 (nthPage v k)) = some (e &&& physAddrMask) := by
      rw [leafAt_eq, covered]
      rfl
    exact tableAt_of_leafAt hleaf
  have hiff : ∀ w, Recast v p stop (k + 1) w ↔ Recast v p stop k w := fun w => by
    rw [recast_succ_iff]
    exact or_iff_left fun hfits => notLarge ⟨hfits.1, hnoTable⟩
  have hentry := pageEntry_of_same hleaves
  refine ⟨hinv, fun w hw => ?_, fun w hw => ?_, fun j hj hold hno => ?_, fun j hj hor => ?_⟩
  · rw [hiff] at hw
    rw [hleaves]
    exact h.old w hw
  · rw [hiff] at hw
    rw [hleaves]
    exact h.recast w hw
  · rw [hiff] at hno
    rw [hentry]
    rcases Nat.lt_or_ge j k with hjk | hjk
    · exact h.kept j hjk hold hno
    · rw [show j = k by omega] at hno ⊢
      have hsame := h.old _ hno
      rw [covered] at hsame
      rw [pageEntry_of_large covered, pageEntry_of_large hsame.symm]
  · rw [hiff] at hor
    rw [hentry]
    rcases Nat.lt_or_ge j k with hjk | hjk
    · exact h.granted j hjk hor
    · -- the 2 MiB page was not there before the call, so a step of the call put it
      rw [show j = k by omega] at hor ⊢
      rw [pageEntry_of_large covered, ← covered]
      by_cases hre : Recast v p stop k (nthPage v k)
      · refine (h.recast _ hre).resolve_right fun hnone => ?_
        rw [covered] at hnone
        cases hnone.1
      · have hnone := hor.resolve_right hre
        rw [← h.old _ hre, covered] at hnone
        cases hnone

/-- A 4 KiB entry gives its page the rights of `flags`. -/
theorem Granting.small (h : Granting flags root v p stop s0 k s) (hinv : s'.TreeInv root)
    (uncovered : s.leafEntryAt root (path 3 (nthPage v k)) = none)
    (hleaves : s'.leafEntryAt root = Function.update (s.leafEntryAt root) (path 4 (nthPage v k))
      (some (initPtEntry (nthPage p k) (flags ||| presentBit)))) :
    Granting flags root v p stop s0 (k + 1) s' := by
  have hentry := pageEntry_update_small hleaves uncovered
  have hgranted : Granted flags (some (initPtEntry (nthPage p k) (flags ||| presentBit))) :=
    ⟨_, rfl, initPtEntry_rights _ _⟩
  have hleaf : ∀ w, s'.leafEntryAt root (path 3 w) = s.leafEntryAt root (path 3 w) := by
    intro w
    rw [hleaves, Function.update_of_ne (path_ne_of_length_ne (by decide))]
  -- the region had no 2 MiB page before the call either: a step over it would have left one
  have hregion : ∀ w, path 3 w = path 3 (nthPage v k) →
      s0.leafEntryAt root (path 3 w) = none := by
    intro w hw
    rw [← hw] at uncovered
    by_cases hre : Recast v p stop k w
    · rcases h.recast w hre with ⟨e, he, _⟩ | ⟨_, hnone⟩
      · rw [uncovered] at he
        cases he
      · exact hnone
    · rw [← h.old w hre]
      exact uncovered
  refine ⟨hinv, fun w hw => ?_, fun w hw => ?_, fun j hj hold hno => ?_, fun j hj hor => ?_⟩
  · rw [hleaf]
    exact h.old w fun hre => hw (hre.mono (Nat.le_succ k))
  · rw [hleaf]
    rcases recast_succ_iff.mp hw with hre | ⟨_, hw⟩
    · exact h.recast w hre
    · rw [hw]
      exact .inr ⟨uncovered, hregion _ rfl⟩
  · rw [hentry, if_neg]
    · refine h.kept j ?_ hold fun hre => hno (hre.mono (Nat.le_succ k))
      by_contra hge
      exact hold (hregion _ (by rw [show j = k by omega]))
    · exact fun heq => hold (hregion _ (path_three_eq_of_path_four_eq heq))
  · rw [hentry]
    split
    · exact hgranted
    · next hne =>
        have hjk : j < k := by
          by_contra hge
          exact hne (by rw [show j = k by omega])
        refine h.granted j hjk ?_
        rcases hor with hnone | hre
        · exact .inl hnone
        · rcases recast_succ_iff.mp hre with hre | ⟨_, hw⟩
          · exact .inr hre
          · exact .inl (hregion _ hw)

/-- One turn of the loop. -/
theorem Granting.turn (hclear : stop.toNat ≤ 2 ^ 64 - 4096) (hk : k < spanPages v stop)
    (h : Granting flags root v p stop s0 k s) {n : Nat}
    (hturn : s.EntryTurn flags root (nthPage v k) (nthPage p k) stop (some n) s') :
    Granting flags root v p stop s0 (k + n) s' := by
  have hinv : s'.TreeInv root := by
    obtain ⟨_, _, hrewrites⟩ := hturn.rewrites
    exact hrewrites.grows.inv
  cases hturn with
  | large fits noTable rewrites => exact h.large hclear hk hinv fits rewrites.leaves_eq
  | kept notLarge covered same rewrites => exact h.same hinv notLarge covered rewrites.leaves_eq
  | small notLarge uncovered rewrites => exact h.small hinv uncovered rewrites.leaves_eq

/-- A run that returns 0. -/
theorem loop_granting (hclear : stop.toNat ≤ 2 ^ 64 - 4096) (hinv : s0.TreeInv root) {fuel : Nat}
    (h : mapRange.loop root stop flags fuel s0 v p = .ok (0, s')) :
    Granting flags root v p stop s0 (spanPages v stop) s' := by
  have hrun := loop_span_induct hclear (I := Granting flags root v p stop s0) (J := fun _ => True)
    (fun _ _ h => h.inv) (fun _ _ _ _ hk _ h hturn => h.turn hclear hk hturn)
    (fun _ _ _ _ _ _ => trivial) (.zero hinv) h
  rcases hrun with ⟨_, hdone⟩ | ⟨h0, _⟩
  · exact hdone
  · exact absurd h0 (by decide)

end Machine

/-- `map_range` writes the 2 MiB page anew that `w` lies in: its range has the whole
    region, at a physical address that is aligned like it. -/
def RangeRecasts (vaddr paddr length w : Word) : Prop :=
  Recast (pageBase vaddr) (pageBase paddr) (vaddr + length)
    (spanPages (pageBase vaddr) (vaddr + length)) w

theorem Recast.congr {v p stop w w' : Word} {k : Nat} (h : path 3 w = path 3 w') :
    Recast v p stop k w ↔ Recast v p stop k w' := by
  unfold Recast
  rw [h]

section Calls

variable {root flags vaddr paddr length : Word} {s s' : Machine} (hinv : s.TreeInv root)
  (hled : s.Led root)

include hinv hled

/-- `map_page` leaves a page in a 2 MiB page its rights, and gives any other page
    those of `flags`. -/
theorem mapPage_grants (h : mapPage s root vaddr paddr flags = .ok (0, s')) :
    (InLargePage s.mem root vaddr →
      effectiveRights s'.mem root vaddr = effectiveRights s.mem root vaddr) ∧
    (¬ InLargePage s.mem root vaddr →
      effectiveRights s'.mem root vaddr = some (.ofEntry flags)) := by
  -- in both states the leaf entry alone decides the rights
  have hled' : s'.Led root := TableCall.led hinv (.mapPage vaddr paddr flags)
    (show TableCall.run 0 s root _ = .ok (0, s') from h) hled
  rw [hled.effectiveRights_eq, hled'.effectiveRights_eq, Machine.inLargePage_iff]
  cases mapPage_outcome_of_ok hinv h with
  | covered leaf _ opened =>
      rw [Machine.pageEntry_of_same opened.rewrites.leaves_eq]
      exact ⟨fun _ => rfl, fun hno => absurd (ne_of_eq_of_ne leaf (Option.some_ne_none _)) hno⟩
  | written uncovered rewrites =>
      rw [Machine.pageEntry_update_small rewrites.leaves_eq uncovered, if_pos rfl]
      exact ⟨fun hlarge => absurd uncovered hlarge,
        fun _ => congrArg some (initPtEntry_rights paddr flags)⟩

/-- `map_range` leaves a page its rights when it lies in a 2 MiB page that the call
    does not write anew, and gives any other page of the range those of `flags`. -/
theorem mapRange_grants (hclear : ClearRange vaddr length) {fuel : Nat}
    (h : mapRange fuel s root vaddr paddr length flags = .ok (0, s')) {k : Nat}
    (hk : k < length.toNat) :
    (InLargePage s.mem root (nthByte vaddr k) ∧ ¬ RangeRecasts vaddr paddr length (nthByte vaddr k) →
      effectiveRights s'.mem root (nthByte vaddr k) = effectiveRights s.mem root (nthByte vaddr k)) ∧
    (¬ InLargePage s.mem root (nthByte vaddr k) ∨ RangeRecasts vaddr paddr length (nthByte vaddr k) →
      effectiveRights s'.mem root (nthByte vaddr k) = some (.ofEntry flags)) := by
  obtain ⟨_, _, _, hrewrites⟩ := loop_rewrites hinv h
  have hdone := Machine.loop_granting hclear.stop_le hinv h
  obtain ⟨hj, hpath⟩ := hclear.page_of_byte hk
  have hregion := path_three_eq_of_path_four_eq hpath
  rw [hled.effectiveRights_eq, (hrewrites.led hled).effectiveRights_eq, Machine.inLargePage_iff,
    Machine.pageEntry_congr hpath, Machine.pageEntry_congr hpath, hregion, RangeRecasts,
    Recast.congr hregion]
  constructor
  · rintro ⟨hlarge, hno⟩
    rw [hdone.kept _ hj hlarge hno]
  · intro hor
    obtain ⟨e, he, hrights⟩ := hdone.granted _ hj (hor.imp not_not.mp id)
    rw [he, ← hrights]
    rfl

end Calls

/-! ## Success means the requested permissions -/

/-- The state of `sixPagesMap` with a writable 2 MiB page at 0. -/
def largeMapped : System :=
  ⟨machineAfter sixPagesSystem.machine
    (mapLargePage sixPagesSystem.machine 0x1000#64 0#64 0#64 readWriteBit), some 0x1000#64, []⟩

theorem largeMapped_reachable :
    System.Reachable oneBlock sixPagesMap.toMemoryMap largeMapped := by
  obtain ⟨mem, hrun⟩ := sixPagesSystem_reachable
  have hplain : TableCall.Plain (.mapLargePage 0#64 0#64 readWriteBit) := plainFlags_readWriteBit
  have hcall : TableCall.run 0 sixPagesSystem.machine 0x1000#64
      (.mapLargePage 0#64 0#64 readWriteBit) = .ok (0, largeMapped.machine) := rfl
  exact ⟨mem, hrun.tail (.table sixPagesSystem_pml4 _ hplain hcall)⟩

/-- `map_page` of page 0 to frame 0 in that state. -/
def largeRemapped : Machine :=
  machineAfter largeMapped.machine (mapPage largeMapped.machine 0x1000#64 0#64 0#64
    (readWriteBit ||| userSupervisorBit))

/-- Below a 2 MiB page that maps to the same frame `map_page` returns 0 and grants no
    user access that was asked for; and in memory at 2^52 it returns 0 and maps
    nothing. -/
theorem success_grants_rights_fails :
    (System.Reachable oneBlock sixPagesMap.toMemoryMap largeMapped ∧
      largeMapped.pml4 = some 0x1000#64 ∧
      mapPage largeMapped.machine 0x1000#64 0#64 0#64 (readWriteBit ||| userSupervisorBit)
        = .ok (0, largeRemapped) ∧
      effectiveRights largeRemapped.mem 0x1000#64 0#64 = some ⟨true, false, false⟩) ∧
    System.Reachable oneBlock highMap (bootSystem oneBlock highMap) ∧
    (bootSystem oneBlock highMap).pml4 = some 0x10000000000000#64 ∧
    mapPage (bootSystem oneBlock highMap).machine 0x10000000000000#64 0#64 0x5000#64 readWriteBit
      = .ok (0, highMapped) ∧
    effectiveRights highMapped.mem 0x10000000000000#64 0#64 = none :=
  ⟨⟨largeMapped_reachable, rfl, rfl, by decide⟩, bootSystem_reachable oneBlock highMap, rfl, rfl,
    by decide⟩

/-- **Success means the requested permissions, outside older 2 MiB pages.**  In every
    reachable state, when `map_page` returns 0 the rights in force at the page are
    those in the flags, unless the page lies in a 2 MiB page already; then they are
    what they were.  When `map_range` over a range clear of the last page returns 0,
    the same holds of every byte of the range, except that a 2 MiB page which the call
    writes anew has the rights in the flags too. -/
theorem success_grants_rights {storage : PmmStorage} {mmap : PhysicalMap} {sys : System}
    (h : System.AnyReachable storage mmap.toMemoryMap sys) {root : Word}
    (hroot : sys.pml4 = some root) (flags : Word) :
    (∀ vaddr paddr s, mapPage sys.machine root vaddr paddr flags = .ok (0, s) →
      (InLargePage sys.machine.mem root vaddr →
        effectiveRights s.mem root vaddr = effectiveRights sys.machine.mem root vaddr) ∧
      (¬ InLargePage sys.machine.mem root vaddr →
        effectiveRights s.mem root vaddr = some (.ofEntry flags))) ∧
    ∀ fuel vaddr paddr length s, ClearRange vaddr length →
      mapRange fuel sys.machine root vaddr paddr length flags = .ok (0, s) →
      ∀ k, k < length.toNat →
        (InLargePage sys.machine.mem root (nthByte vaddr k) ∧
            ¬ RangeRecasts vaddr paddr length (nthByte vaddr k) →
          effectiveRights s.mem root (nthByte vaddr k)
            = effectiveRights sys.machine.mem root (nthByte vaddr k)) ∧
        (¬ InLargePage sys.machine.mem root (nthByte vaddr k) ∨
            RangeRecasts vaddr paddr length (nthByte vaddr k) →
          effectiveRights s.mem root (nthByte vaddr k) = some (.ofEntry flags)) := by
  have htree := h.inv.tree root hroot
  have hled := h.led root hroot
  constructor
  · intro vaddr paddr s hcall
    exact mapPage_grants htree hled hcall
  · intro fuel vaddr paddr length s hclear hcall k hk
    exact mapRange_grants htree hled hclear hcall hk

/-- Mapping page 0x5000 for user reads in the six-page system. -/
theorem success_grants_rights_sixPages :
    effectiveRights (machineAfter sixPagesSystem.machine (mapPage sixPagesSystem.machine 0x1000#64
      0x5000#64 0x7000#64 userSupervisorBit)).mem 0x1000#64 0x5000#64
      = some ⟨false, true, false⟩ := by
  have hnone : walkEntries sixPagesSystem.machine.mem 0x1000#64 0x5000#64 = none := by decide
  have hsmall : ¬ InLargePage sixPagesSystem.machine.mem 0x1000#64 0x5000#64 := by
    rintro ⟨e4, e3, e2, hwalk⟩
    rw [hnone] at hwalk
    cases hwalk
  obtain ⟨hpage, _⟩ := success_grants_rights sixPagesSystem_reachable.any sixPagesSystem_pml4
    userSupervisorBit
  exact (hpage 0x5000#64 0x7000#64 _ rfl).2 hsmall

end EchOS
