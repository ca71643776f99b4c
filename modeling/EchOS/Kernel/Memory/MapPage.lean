/-
  EchOS.Kernel.Memory.MapPage

  What `map_page` and `map_large_page` do to a tree that satisfies the invariant.

  Both first open the tables above the page directory (`withDirectory`).  The
  outcome of a call is decided by the leaf or table at the 2 MiB region and by
  whether the pmm has as many frames as tables are missing on the way: the call
  finds the region covered, starves, or writes exactly one leaf entry.
  `PageOutcome` and `LargeOutcome` list these for any flags; `mapPage_cases` and
  `mapLargePage_cases` read them for flags that leave the address field alone.
-/
import EchOS.Kernel.Memory.Rewrites

namespace EchOS

/-! ## The entries that are written -/

/-- Flags without bits 12 to 51. -/
def PlainFlags (flags : Word) : Prop := flags &&& physAddrMask = 0#64

/-- A leaf entry: an address, flags and the bits the code adds. -/
theorem leafEntry_present (x : Word) : (x ||| presentBit) &&& presentBit ≠ 0 := by
  rw [ne_eq, and_presentBit_eq_zero]
  simp [presentBit]

theorem and_mask_and_mask (p : Word) : p &&& physAddrMask &&& physAddrMask = p &&& physAddrMask := by
  rw [BitVec.and_assoc, BitVec.and_self]

theorem initPtEntry_present (p flags : Word) :
    initPtEntry p (flags ||| presentBit) &&& presentBit ≠ 0 := by
  unfold initPtEntry
  rw [← BitVec.or_assoc]
  exact leafEntry_present _

theorem initPtEntry_address {p flags : Word} (hflags : PlainFlags flags) :
    initPtEntry p (flags ||| presentBit) &&& physAddrMask = p &&& physAddrMask := by
  have hp : presentBit &&& physAddrMask = 0#64 := by decide
  unfold initPtEntry
  rw [BitVec.and_or_distrib_right, BitVec.and_or_distrib_right, hflags, hp, and_mask_and_mask]
  simp

/-- The entry `map_large_page` writes. -/
def largeEntry (p flags : Word) : Word :=
  (p &&& physAddrMask) ||| flags ||| presentBit ||| pageSizeBit

theorem largeEntry_present (p flags : Word) : largeEntry p flags &&& presentBit ≠ 0 := by
  rw [ne_eq, and_presentBit_eq_zero]
  simp [largeEntry, presentBit]

theorem largeEntry_pageSize (p flags : Word) : largeEntry p flags &&& pageSizeBit ≠ 0 := by
  rw [ne_eq, and_pageSizeBit_eq_zero]
  simp [largeEntry, pageSizeBit]

theorem largeEntry_address {p flags : Word} (hflags : PlainFlags flags) :
    largeEntry p flags &&& physAddrMask = p &&& physAddrMask := by
  have hp : presentBit &&& physAddrMask = 0#64 := by decide
  have hps : pageSizeBit &&& physAddrMask = 0#64 := by decide
  unfold largeEntry
  rw [BitVec.and_or_distrib_right, BitVec.and_or_distrib_right, BitVec.and_or_distrib_right, hflags,
    hp, hps, and_mask_and_mask]
  simp

theorem entryTable_largeEntry (p flags : Word) : entryTable 2 (largeEntry p flags) = none := by
  refine if_neg fun h => ?_
  rcases h.2 with h2 | ⟨_, hps⟩
  · exact absurd h2 (by decide)
  · exact largeEntry_pageSize p flags hps

/-- Outside the address field and the bits the code adds, a leaf entry is its flags. -/
theorem leafEntry_and {p flags more m : Word} (hmask : physAddrMask &&& m = 0#64)
    (hmore : more &&& m = 0#64) :
    ((p &&& physAddrMask) ||| flags ||| more) &&& m = flags &&& m := by
  rw [BitVec.and_or_distrib_right, BitVec.and_or_distrib_right, BitVec.and_assoc, hmask, hmore]
  simp

/-- Leaf entries take their rights from the flags. -/
theorem leafEntry_rights {p flags more : Word} (hrw : flags &&& readWriteBit ≠ 0)
    (hus : flags &&& userSupervisorBit = 0) (hmore : more &&& userSupervisorBit = 0) :
    ((p &&& physAddrMask) ||| flags ||| more) &&& readWriteBit ≠ 0 ∧
      ((p &&& physAddrMask) ||| flags ||| more) &&& userSupervisorBit = 0 := by
  constructor
  · rw [ne_eq, and_readWriteBit_eq_zero] at hrw ⊢
    rw [Bool.not_eq_false] at hrw
    simp [hrw]
  · rw [leafEntry_and (by decide) hmore, hus]

/-! ## Opening the tables of a path -/

/-- The tables above depth `depth` on `v`'s path, the PML4 left out. -/
def tablePaths (depth : Nat) (v : Word) : Finset (List Index) :=
  (Finset.range depth).image fun d => path (d + 1) v

theorem mem_tablePaths {depth : Nat} {v : Word} {q : List Index} :
    q ∈ tablePaths depth v ↔ ∃ d, d < depth ∧ q = path (d + 1) v := by
  unfold tablePaths
  rw [Finset.mem_image]
  refine exists_congr fun d => ?_
  rw [Finset.mem_range, eq_comm]

theorem tablePaths_succ (depth : Nat) (v : Word) :
    tablePaths (depth + 1) v = tablePaths depth v ∪ {path (depth + 1) v} := by
  ext q
  rw [Finset.mem_union, Finset.mem_singleton, mem_tablePaths, mem_tablePaths]
  constructor
  · rintro ⟨d, hd, rfl⟩
    rcases Nat.lt_or_ge d depth with h | h
    · exact .inl ⟨d, h, rfl⟩
    · rw [show d = depth by omega]
      exact .inr rfl
  · rintro (⟨d, hd, rfl⟩ | rfl)
    · exact ⟨d, by omega, rfl⟩
    · exact ⟨depth, by omega, rfl⟩

theorem tablePaths_mono {d e : Nat} (h : d ≤ e) (v : Word) : tablePaths d v ⊆ tablePaths e v :=
  Finset.image_subset_image (Finset.range_subset_range.mpr h)

namespace Machine

theorem mem_missing {root : Word} {s : Machine} {paths : Finset (List Index)} {q : List Index} :
    q ∈ s.missing root paths ↔ q ∈ paths ∧ s.tableAt root q = none := by
  unfold missing
  rw [Finset.mem_filter]

/-- A table exists with all tables above it. -/
theorem missing_tablePaths_eq_empty {root v : Word} {s : Machine} {depth : Nat}
    (h : s.tableAt root (path depth v) ≠ none) : s.missing root (tablePaths depth v) = ∅ := by
  induction depth with
  | zero => rfl
  | succ depth ih =>
      have htail := ih (Machine.tableAt_isSome_of_cons h)
      unfold missing at htail ⊢
      rw [tablePaths_succ, Finset.filter_union, htail, Finset.empty_union]
      refine Finset.filter_false_of_mem fun q hq => ?_
      rw [Finset.mem_singleton.mp hq]
      exact h

/-- The pmm ran out of frames before all of `paths` had tables. -/
structure Starves (flags root : Word) (paths : Finset (List Index)) (s s' : Machine) : Prop where
  grows : ∃ new, new ⊆ paths ∧ s.Grows flags root new s'
  leafAt_eq : s'.leafAt root = s.leafAt root
  empty : s'.pmm.freeCount = 0
  short : (s'.missing root paths).Nonempty

variable {flags root : Word} {paths paths' : Finset (List Index)} {s s' s'' : Machine}

/-- Then there were fewer frames than tables missing. -/
theorem Starves.card_lt (hinv : s.pmm.Inv) (h : Starves flags root paths s s') :
    s.pmm.freeCount < (s.missing root paths).card := by
  obtain ⟨new, hsub, hgrows⟩ := h.grows
  have hcount := hgrows.freeCount_add hinv
  have hempty := h.empty
  have hnew : new ⊆ s.missing root paths := fun q hq =>
    mem_missing.mpr ⟨hsub hq, ((hgrows.added q).mp hq).1⟩
  have hlt : new.card < (s.missing root paths).card := by
    refine Finset.card_lt_card ⟨hnew, fun hback => ?_⟩
    obtain ⟨q, hq⟩ := h.short
    rw [hgrows.missing_eq, Finset.mem_sdiff] at hq
    exact hq.2 (hback hq.1)
  omega

/-- Opening the table after all of the shorter ones. -/
theorem Grows.extend {v : Word} {depth : Nat}
    (hgrows : s.Grows flags root (s.missing root (tablePaths depth v)) s')
    (hgrows' : s'.Grows flags root (s'.missing root {path (depth + 1) v}) s'') :
    s.Grows flags root (s.missing root (tablePaths (depth + 1) v)) s'' := by
  have hunion : s.missing root (tablePaths (depth + 1) v)
      = s.missing root (tablePaths depth v) ∪ s'.missing root {path (depth + 1) v} := by
    ext q
    rw [hgrows.missing_eq, Finset.union_sdiff_self_eq_union, tablePaths_succ]
    unfold missing
    rw [Finset.filter_union]
  rw [hunion]
  exact hgrows.trans hgrows'

/-- `next_table` opened the first `depth` tables of `v`'s path. -/
structure Opened (flags root v : Word) (depth : Nat) (s s' : Machine) : Prop where
  rewrites : s.Rewrites flags root (s.missing root (tablePaths depth v)) (s.leafEntryAt root) s'
  userAt : flags &&& userSupervisorBit ≠ 0 → s'.UserAt root (path depth v)

/-- A leaf entry is written into the last table opened: an address and the flags,
    with bits that grant nothing more. -/
theorem Opened.write_leaf {v a e p more : Word} {depth : Nat} (h : s.Opened flags root v depth s')
    (hdepth : 2 ≤ depth) (ha : s'.tableAt root (path depth v) = some a)
    (hold : entryTable depth (s'.mem a (indexAt depth v)) = none)
    (he : e = (p &&& physAddrMask) ||| flags ||| more) (hmore : more &&& userSupervisorBit = 0)
    (hnew : entryTable depth e = none) (hleaf : leafEntry depth e = some e) :
    s.Rewrites flags root (s.missing root (tablePaths depth v))
      (Function.update (s.leafEntryAt root) (path (depth + 1) v) (some e))
      (s'.store a (indexAt depth v) e) := by
  have hlen := path_length depth v
  have hold' : entryTable (path depth v).length (s'.mem a (indexAt depth v)) = none := by
    rw [hlen]
    exact hold
  have hnew' : entryTable (path depth v).length e = none := by
    rw [hlen]
    exact hnew
  have hleaf' : leafEntry (path depth v).length e = some e := by
    rw [hlen]
    exact hleaf
  have hgrows : s'.Grows flags root ∅ (s'.store a (indexAt depth v) e) := by
    refine store_grows h.rewrites.grows.inv ha (hnew'.trans hold'.symm) (fun hlt => by omega)
      fun hrw hus _ _ => ?_
    rw [he]
    exact leafEntry_rights hrw hus hmore
  have habove : e &&& userSupervisorBit ≠ 0 → s'.UserAt root (path depth v) := fun huser =>
    h.userAt (by rwa [he, leafEntry_and (by decide) hmore] at huser)
  have htotal := h.rewrites.trans
    (store_rewrites h.rewrites.grows.inv ha hold' hnew' hleaf' hgrows habove)
  rw [Finset.union_empty, h.rewrites.leaves_eq] at htotal
  exact htotal

/-- It opened some of the first `depth` tables, and found no frame for the next. -/
structure Exhausted (flags root v : Word) (depth : Nat) (s s' : Machine) : Prop where
  opened : ∃ d, d < depth ∧ s.Opened flags root v d s' ∧ s'.tableAt root (path (d + 1) v) = none
  empty : s'.pmm.freeCount = 0

theorem Exhausted.mono {v : Word} {d e : Nat} (h : s.Exhausted flags root v d s') (hde : d ≤ e) :
    s.Exhausted flags root v e s' := by
  obtain ⟨c, hc, hopened⟩ := h.opened
  exact ⟨⟨c, by omega, hopened⟩, h.empty⟩

theorem Exhausted.starves {v : Word} {depth : Nat} (h : s.Exhausted flags root v depth s') :
    s.Starves flags root (tablePaths depth v) s' := by
  obtain ⟨d, hd, hopened, hnone⟩ := h.opened
  have hsub := tablePaths_mono hd.le v
  have hmem : path (d + 1) v ∈ tablePaths depth v := mem_tablePaths.mpr ⟨d, hd, rfl⟩
  exact ⟨⟨_, (Finset.filter_subset _ _).trans hsub, hopened.rewrites.grows⟩,
    leafAt_of_same hopened.rewrites.leaves_eq, h.empty, _, mem_missing.mpr ⟨hmem, hnone⟩⟩

/-- Then there is no leaf entry below the tables that were to be opened. -/
theorem Exhausted.leafEntryAt_eq_none {v : Word} {depth : Nat} (hinv : s.TreeInv root)
    (h : s.Exhausted flags root v depth s') : s.leafEntryAt root (path (depth + 1) v) = none := by
  by_contra hsome
  rw [← ne_eq, ne_eq, ← leafAt_eq_none_iff] at hsome
  obtain ⟨b, hb⟩ := Option.ne_none_iff_exists'.mp hsome
  have hlt := h.starves.card_lt hinv.pmm
  rw [missing_tablePaths_eq_empty (tableAt_isSome_of_leafAt hb)] at hlt
  exact absurd hlt (Nat.not_lt_zero _)

/-- One `next_table` on `v`'s path, after the tables above it. -/
theorem nextTable_path_cases {v a : Word} {depth : Nat} (hdepth : depth < 3)
    (h : s.Opened flags root v depth s') (ha : s'.tableAt root (path depth v) = some a)
    (hnone : s.leafEntryAt root (path (depth + 1) v) = none) :
    (∃ s'', nextTable s' a (indexAt depth v) flags = .ok (null, s'') ∧
      s.Exhausted flags root v (depth + 1) s'') ∨
    ∃ b s'', nextTable s' a (indexAt depth v) flags = .ok (b, s'') ∧ b ≠ null ∧
      s''.tableAt root (path (depth + 1) v) = some b ∧ s.Opened flags root v (depth + 1) s'' := by
  have hlen : (path depth v).length < 3 := by
    rw [path_length]
    exact hdepth
  rcases nextTable_cases h.rewrites.grows.inv ha hlen (indexAt depth v) flags with
    ⟨hsome, _⟩ | ⟨_, htable, hzero, hcall⟩ | ⟨b, s'', hcall, hne, _, htable, hgrows, _, hpassed⟩
  · -- no 2 MiB page is in the way
    rw [ne_eq, leafAt_eq_none_iff, h.rewrites.leaves_eq] at hsome
    exact absurd hnone hsome
  · exact .inl ⟨s', hcall, ⟨depth, Nat.lt_succ_self depth, h, htable⟩, hzero⟩
  · refine .inr ⟨b, s'', hcall, hne, htable, ⟨h.rewrites.grows.extend hgrows, ?_, fun hled => ?_⟩,
      hpassed.userAt⟩
    · exact hpassed.leafEntryAt_eq.trans h.rewrites.leaves_eq
    · exact hpassed.led (h.rewrites.led hled) h.userAt

/-- Everything `map_page` can do. -/
inductive PageOutcome (flags root : Word) (s : Machine) (v p : Word) : Int → Machine → Prop
  | covered {e : Word} {r : Int} {s' : Machine} (leaf : s.leafEntryAt root (path 3 v) = some e)
      (result : r = if largeTarget e v = p &&& physAddrMask then 0 else -1)
      (opened : s.Opened flags root v 2 s') : PageOutcome flags root s v p r s'
  | starved {s' : Machine} (uncovered : s.leafEntryAt root (path 3 v) = none)
      (exhausted : s.Exhausted flags root v 3 s') : PageOutcome flags root s v p (-1) s'
  | written {s' : Machine} (uncovered : s.leafEntryAt root (path 3 v) = none)
      (rewrites : s.Rewrites flags root (s.missing root (tablePaths 3 v))
        (Function.update (s.leafEntryAt root) (path 4 v)
          (some (initPtEntry p (flags ||| presentBit)))) s') :
      PageOutcome flags root s v p 0 s'

/-- Everything `map_large_page` can do. -/
inductive LargeOutcome (flags root : Word) (s : Machine) (v p : Word) : Int → Machine → Prop
  | refused {s' : Machine} (table : s.tableAt root (path 3 v) ≠ none)
      (opened : s.Opened flags root v 2 s') : LargeOutcome flags root s v p (-1) s'
  | starved {s' : Machine} (noTable : s.tableAt root (path 3 v) = none)
      (exhausted : s.Exhausted flags root v 2 s') : LargeOutcome flags root s v p (-1) s'
  | written {s' : Machine} (noTable : s.tableAt root (path 3 v) = none)
      (rewrites : s.Rewrites flags root (s.missing root (tablePaths 2 v))
        (Function.update (s.leafEntryAt root) (path 3 v) (some (largeEntry p flags))) s') :
      LargeOutcome flags root s v p 0 s'

theorem Exhausted.rewrites {v : Word} {depth : Nat} (h : s.Exhausted flags root v depth s') :
    ∃ new, s.Rewrites flags root new (s.leafEntryAt root) s' := by
  obtain ⟨d, _, hopened, _⟩ := h.opened
  exact ⟨_, hopened.rewrites⟩

theorem PageOutcome.rewrites {v p : Word} {r : Int} (h : s.PageOutcome flags root v p r s') :
    ∃ new leaves, s.Rewrites flags root new leaves s' := by
  cases h with
  | covered _ _ opened => exact ⟨_, _, opened.rewrites⟩
  | starved _ exhausted => exact exhausted.rewrites.imp fun _ h => ⟨_, h⟩
  | written _ rewrites => exact ⟨_, _, rewrites⟩

theorem LargeOutcome.rewrites {v p : Word} {r : Int} (h : s.LargeOutcome flags root v p r s') :
    ∃ new leaves, s.Rewrites flags root new leaves s' := by
  cases h with
  | refused _ opened => exact ⟨_, _, opened.rewrites⟩
  | starved _ exhausted => exact exhausted.rewrites.imp fun _ h => ⟨_, h⟩
  | written _ rewrites => exact ⟨_, _, rewrites⟩

end Machine

/-! ## The page directory on a path -/

/-- How `map_page` and `map_large_page` begin: open the page directory of `vaddr`
    and go on with it. -/
def withDirectory (s : Machine) (pml4 vaddr flags : Word)
    (rest : Word → Machine → Except Abort (Int × Machine)) : Except Abort (Int × Machine) := do
  let (pdp, s) ← nextTable s pml4 (index4 vaddr) flags
  if pdp = null then return (-1, s)
  else do
    let (pd, s) ← nextTable s pdp (index3 vaddr) flags
    if pd = null then return (-1, s)
    else rest pd s

theorem mapPage_eq (s : Machine) (root v p flags : Word) :
    mapPage s root v p flags = withDirectory s root v flags fun pd s =>
      if s.mem pd (index2 v) &&& presentBit ≠ 0 ∧ s.mem pd (index2 v) &&& pageSizeBit ≠ 0 then do
        let mapped := largeTarget (s.mem pd (index2 v)) v
        return (if mapped = p &&& physAddrMask then 0 else -1, s)
      else do
        let (pt, s) ← nextTable s pd (index2 v) flags
        if pt = null then return (-1, s)
        else return (0, s.store pt (index1 v) (initPtEntry p (flags ||| presentBit))) := rfl

theorem mapLargePage_eq (s : Machine) (root v p flags : Word) :
    mapLargePage s root v p flags = withDirectory s root v flags fun pd s =>
      if s.mem pd (index2 v) &&& presentBit ≠ 0 ∧ s.mem pd (index2 v) &&& pageSizeBit = 0 then
        .ok (-1, s)
      else .ok (0, s.store pd (index2 v) (largeEntry p flags)) := rfl

section Outcomes

variable {root : Word} {s : Machine} (hinv : s.TreeInv root) (v flags : Word)

/-- There are no leaves above the page directories. -/
theorem Machine.leafEntryAt_upper {p : List Index} (h : p.length < 2) (i : Index) :
    s.leafEntryAt root (i :: p) = none := by
  cases hleaf : s.leafEntryAt root (i :: p) with
  | none => rfl
  | some b =>
      obtain ⟨a, _, hentry⟩ := PointerTree.leafAt_node_isSome hleaf
      unfold leafEntry at hentry
      split at hentry
      · omega
      · cases hentry

include hinv

/-- The page directory is opened, or the pmm starves. -/
theorem withDirectory_cases :
    (∃ s', (∀ rest, withDirectory s root v flags rest = .ok (-1, s')) ∧
      s.Exhausted flags root v 2 s') ∨
    ∃ pd s', (∀ rest, withDirectory s root v flags rest = rest pd s') ∧
      s'.tableAt root (path 2 v) = some pd ∧ s.Opened flags root v 2 s' := by
  have hzero : s.Opened flags root v 0 s := ⟨.refl hinv, fun _ => trivial⟩
  have hroot : s.tableAt root (path 0 v) = some root := rfl
  have hnone1 : s.leafEntryAt root (path 1 v) = none :=
    Machine.leafEntryAt_upper (by rw [path_length]; decide) _
  have hnone2 : s.leafEntryAt root (path 2 v) = none :=
    Machine.leafEntryAt_upper (by rw [path_length]; decide) _
  -- `next_table` twice: at the root, then at the directory pointers it gave
  rcases Machine.nextTable_path_cases (Nat.zero_lt_succ 2) hzero hroot hnone1 with
    ⟨s1, hcall, hexhausted⟩ | ⟨pdp, s1, hcall, hne, htable, hopened⟩
  · refine .inl ⟨s1, fun rest => ?_, hexhausted.mono (Nat.le_succ 1)⟩
    have hcall' : nextTable s root (index4 v) flags = .ok (null, s1) := hcall
    unfold withDirectory
    rw [hcall']
    rfl
  · have hcall' : nextTable s root (index4 v) flags = .ok (pdp, s1) := hcall
    rcases Machine.nextTable_path_cases (Nat.succ_lt_succ (Nat.zero_lt_succ 1)) hopened htable
      hnone2 with ⟨s2, hcall2, hexhausted⟩ | ⟨pd, s2, hcall2, hne2, htable2, hopened2⟩
    · refine .inl ⟨s2, fun rest => ?_, hexhausted⟩
      have hcall2' : nextTable s1 pdp (index3 v) flags = .ok (null, s2) := hcall2
      unfold withDirectory
      rw [hcall']
      simp only [bind, Except.bind, if_neg hne, hcall2']
      rfl
    · refine .inr ⟨pd, s2, fun rest => ?_, htable2, hopened2⟩
      have hcall2' : nextTable s1 pdp (index3 v) flags = .ok (pd, s2) := hcall2
      unfold withDirectory
      rw [hcall']
      simp only [bind, Except.bind, if_neg hne, hcall2', if_neg hne2]

/-! ## `map_page` -/

theorem mapPage_outcome (p : Word) :
    ∃ r s', mapPage s root v p flags = .ok (r, s') ∧ s.PageOutcome flags root v p r s' := by
  have hdir := mapPage_eq s root v p flags
  rcases withDirectory_cases hinv v flags with
    ⟨s1, hcall, hexhausted⟩ | ⟨pd, s1, hcall, htable, hopened⟩
  · -- starved above the page directory, which therefore has no leaf to show
    exact ⟨-1, s1, hdir.trans (hcall _),
      .starved (hexhausted.leafEntryAt_eq_none hinv) (hexhausted.mono (Nat.le_succ 2))⟩
  · have hcall' := hdir.trans (hcall _)
    have hentry : s.leafEntryAt root (path 3 v) = leafEntry 2 (s1.mem pd (index2 v)) := by
      rw [← hopened.rewrites.leaves_eq]
      exact Machine.leafEntryAt_path htable
    by_cases hlarge : s1.mem pd (index2 v) &&& presentBit ≠ 0 ∧
        s1.mem pd (index2 v) &&& pageSizeBit ≠ 0
    · -- covered by a 2 MiB page
      rw [if_pos hlarge] at hcall'
      exact ⟨_, s1, hcall', .covered (hentry.trans (if_pos ⟨hlarge.1, .inl ⟨rfl, hlarge.2⟩⟩)) rfl
        hopened⟩
    · have hnone : s.leafEntryAt root (path 3 v) = none := by
        refine hentry.trans (if_neg fun h => ?_)
        rcases h.2 with ⟨_, hps⟩ | h3
        · exact hlarge ⟨h.1, hps⟩
        · exact absurd h3 (by decide)
      rw [if_neg hlarge] at hcall'
      rcases Machine.nextTable_path_cases (Nat.lt_succ_self 2) hopened htable hnone with
        ⟨s2, hcall2, hexhausted⟩ | ⟨pt, s2, hcall2, hne, htable2, hopened2⟩
      · have hcall2' : nextTable s1 pd (index2 v) flags = .ok (null, s2) := hcall2
        refine ⟨-1, s2, ?_, .starved hnone hexhausted⟩
        rw [hcall', hcall2']
        rfl
      · -- the leaf entry is written
        have hcall2' : nextTable s1 pd (index2 v) flags = .ok (pt, s2) := hcall2
        have hnext : ∀ e, entryTable 3 e = none := fun e => if_neg fun h => by omega
        have htotal := hopened2.write_leaf (Nat.le_succ 2) htable2 (hnext _)
          (BitVec.or_assoc _ _ _).symm (by decide) (hnext (initPtEntry p (flags ||| presentBit)))
          (if_pos ⟨initPtEntry_present p flags, .inr rfl⟩)
        refine ⟨0, _, ?_, .written hnone htotal⟩
        rw [hcall', hcall2']
        simp only [bind, Except.bind, if_neg hne]
        rfl

/-- Everything `map_page` can do, with flags outside the address field. -/
theorem mapPage_cases (p : Word) (hflags : PlainFlags flags) :
    (∃ b s', s.leafAt root (path 3 v) = some b ∧
      mapPage s root v p flags = .ok (if Machine.largeFrame b v + (v &&& 0xFFF#64)
        = p &&& physAddrMask then 0 else -1, s') ∧
      s.Grows flags root ∅ s' ∧ s'.leafAt root = s.leafAt root) ∨
    (∃ s', s.leafAt root (path 3 v) = none ∧ mapPage s root v p flags = .ok (-1, s') ∧
      s.Starves flags root (tablePaths 3 v) s') ∨
    ∃ s', s.leafAt root (path 3 v) = none ∧ mapPage s root v p flags = .ok (0, s') ∧
      s.Grows flags root (s.missing root (tablePaths 3 v)) s' ∧
      s'.leafAt root = Function.update (s.leafAt root) (path 4 v) (some (p &&& physAddrMask)) := by
  obtain ⟨r, s', hcall, houtcome⟩ := mapPage_outcome hinv v flags p
  cases houtcome with
  | covered leaf result opened =>
      rename_i e
      have hleaf : s.leafAt root (path 3 v) = some (e &&& physAddrMask) := by
        rw [Machine.leafAt_eq, leaf]
        rfl
      have hgrows := opened.rewrites.grows
      rw [Machine.missing_tablePaths_eq_empty (Machine.tableAt_isSome_of_leafAt hleaf)] at hgrows
      rw [result, Machine.largeTarget_eq] at hcall
      exact .inl ⟨_, s', hleaf, hcall, hgrows, Machine.leafAt_of_same opened.rewrites.leaves_eq⟩
  | starved uncovered exhausted =>
      exact .inr (.inl ⟨s', Machine.leafAt_eq_none_iff.mpr uncovered, hcall, exhausted.starves⟩)
  | written uncovered rewrites =>
      have hleaf := Machine.leafAt_of_update rewrites.leaves_eq
      rw [initPtEntry_address hflags] at hleaf
      exact .inr (.inr ⟨s', Machine.leafAt_eq_none_iff.mpr uncovered, hcall, rewrites.grows, hleaf⟩)

/-! ## `map_large_page` -/

theorem mapLargePage_outcome (p : Word) :
    ∃ r s', mapLargePage s root v p flags = .ok (r, s') ∧ s.LargeOutcome flags root v p r s' := by
  have hdir := mapLargePage_eq s root v p flags
  rcases withDirectory_cases hinv v flags with
    ⟨s1, hcall, hexhausted⟩ | ⟨pd, s1, hcall, htable, hopened⟩
  · refine ⟨-1, s1, hdir.trans (hcall _), .starved ?_ hexhausted⟩
    by_contra h
    have hlt := hexhausted.starves.card_lt hinv.pmm
    rw [Machine.missing_tablePaths_eq_empty (Machine.tableAt_isSome_of_cons h)] at hlt
    exact absurd hlt (Nat.not_lt_zero _)
  · have hcall' := hdir.trans (hcall _)
    have hentry : s1.tableAt root (path 3 v) = entryTable 2 (s1.mem pd (index2 v)) :=
      Machine.tableAt_path htable
    -- the tables above do not include the page table itself
    have hsame : s1.tableAt root (path 3 v) = none ↔ s.tableAt root (path 3 v) = none := by
      rw [hopened.rewrites.grows.tableAt_eq_none_iff]
      refine and_iff_left fun hmem => ?_
      obtain ⟨d, hd, heq⟩ := mem_tablePaths.mp (Machine.mem_missing.mp hmem).1
      exact path_ne_of_length_ne (by omega) heq
    by_cases hpt : s1.mem pd (index2 v) &&& presentBit ≠ 0 ∧
        s1.mem pd (index2 v) &&& pageSizeBit = 0
    · have hsome : s1.tableAt root (path 3 v) ≠ none := by
        rw [hentry, entryTable, if_pos ⟨hpt.1, .inr ⟨rfl, hpt.2⟩⟩]
        exact Option.some_ne_none _
      rw [if_pos hpt] at hcall'
      exact ⟨-1, s1, hcall', .refused (fun h => hsome (hsame.mpr h)) hopened⟩
    · have hnone : entryTable 2 (s1.mem pd (index2 v)) = none := by
        refine if_neg fun h => ?_
        rcases h.2 with h2 | ⟨_, hps⟩
        · exact absurd h2 (by decide)
        · exact hpt ⟨h.1, hps⟩
      have htotal := hopened.write_leaf (Nat.le_refl 2) htable hnone
        (BitVec.or_assoc _ _ _) (by decide) (entryTable_largeEntry p flags)
        (if_pos ⟨largeEntry_present p flags, .inl ⟨rfl, largeEntry_pageSize p flags⟩⟩)
      rw [if_neg hpt] at hcall'
      exact ⟨0, _, hcall', .written (hsame.mp (hentry.trans hnone)) htotal⟩

/-- Everything `map_large_page` can do, with flags outside the address field. -/
theorem mapLargePage_cases (p : Word) (hflags : PlainFlags flags) :
    (∃ s', s.tableAt root (path 3 v) ≠ none ∧ mapLargePage s root v p flags = .ok (-1, s') ∧
      s.Grows flags root ∅ s' ∧ s'.leafAt root = s.leafAt root) ∨
    (∃ s', s.tableAt root (path 3 v) = none ∧ mapLargePage s root v p flags = .ok (-1, s') ∧
      s.Starves flags root (tablePaths 2 v) s') ∨
    ∃ s', s.tableAt root (path 3 v) = none ∧ mapLargePage s root v p flags = .ok (0, s') ∧
      s.Grows flags root (s.missing root (tablePaths 2 v)) s' ∧
      s'.leafAt root = Function.update (s.leafAt root) (path 3 v) (some (p &&& physAddrMask)) := by
  obtain ⟨r, s', hcall, houtcome⟩ := mapLargePage_outcome hinv v flags p
  cases houtcome with
  | refused table opened =>
      have hgrows := opened.rewrites.grows
      rw [Machine.missing_tablePaths_eq_empty (Machine.tableAt_isSome_of_cons table)] at hgrows
      exact .inl ⟨s', table, hcall, hgrows, Machine.leafAt_of_same opened.rewrites.leaves_eq⟩
  | starved noTable exhausted => exact .inr (.inl ⟨s', noTable, hcall, exhausted.starves⟩)
  | written noTable rewrites =>
      have hleaf := Machine.leafAt_of_update rewrites.leaves_eq
      rw [largeEntry_address hflags] at hleaf
      exact .inr (.inr ⟨s', noTable, hcall, rewrites.grows, hleaf⟩)

omit hinv in
variable {v flags} in
/-- What a call that returned can have done. -/
theorem mapPage_outcome_of_ok (hinv : s.TreeInv root) {p : Word} {r : Int} {s' : Machine}
    (h : mapPage s root v p flags = .ok (r, s')) : s.PageOutcome flags root v p r s' := by
  obtain ⟨r1, s1, hcall, houtcome⟩ := mapPage_outcome hinv v flags p
  cases hcall.symm.trans h
  exact houtcome

omit hinv in
variable {v flags} in
theorem mapLargePage_outcome_of_ok (hinv : s.TreeInv root) {p : Word} {r : Int} {s' : Machine}
    (h : mapLargePage s root v p flags = .ok (r, s')) : s.LargeOutcome flags root v p r s' := by
  obtain ⟨r1, s1, hcall, houtcome⟩ := mapLargePage_outcome hinv v flags p
  cases hcall.symm.trans h
  exact houtcome

end Outcomes

end EchOS
