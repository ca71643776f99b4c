/-
  EchOS.Kernel.Memory.PageTreeInvariant

  The invariant of a page table tree and the machine it lives in, and the steps
  that keep it.

  `TreeInv` says that the tables are distinct used frames and that every managed
  frame fits an entry.  `Grows` is all that table code does to a machine besides
  setting leaves: it takes frames from the pmm and hangs each one at a path that
  had no table.  `nextTable_cases` shows it of `next_table`; `Linkable.grows` and
  `store_grows` are the two memory writes it consists of, over the generic
  lemmas of `EchOS.Lib.PointerTree`.  `Passed` says what `next_table` leaves in
  every single entry, for those who need more than the tables and the leaves.
-/
import EchOS.Kernel.Memory.PageTree
import EchOS.Kernel.Memory.PhysicalTakes
import Mathlib.Data.Finset.Card

namespace EchOS

/-! ## Bits of the entries the code writes -/

theorem and_presentBit_eq_zero {e : Word} : e &&& presentBit = 0 ↔ e.getLsbD 0 = false :=
  and_bit_eq_zero (show 0 < 64 by decide)

theorem and_readWriteBit_eq_zero {e : Word} : e &&& readWriteBit = 0 ↔ e.getLsbD 1 = false :=
  and_bit_eq_zero (show 1 < 64 by decide)

theorem and_userSupervisorBit_eq_zero {e : Word} :
    e &&& userSupervisorBit = 0 ↔ e.getLsbD 2 = false :=
  and_bit_eq_zero (show 2 < 64 by decide)

theorem and_pageSizeBit_eq_zero {e : Word} : e &&& pageSizeBit = 0 ↔ e.getLsbD 7 = false :=
  and_bit_eq_zero (show 7 < 64 by decide)

/-- The entry that hangs a table into its parent. -/
def linkEntry (next flags : Word) : Word :=
  next ||| presentBit ||| readWriteBit ||| (flags &&& userSupervisorBit)

theorem linkEntry_present (next flags : Word) : linkEntry next flags &&& presentBit ≠ 0 := by
  rw [ne_eq, and_presentBit_eq_zero]
  simp [linkEntry, presentBit]

theorem and_userSupervisorBit_and {m : Word} (h : userSupervisorBit &&& m = 0#64) (flags : Word) :
    flags &&& userSupervisorBit &&& m = 0#64 := by
  rw [BitVec.and_assoc, h, BitVec.and_zero]

theorem linkEntry_address (next flags : Word) :
    linkEntry next flags &&& physAddrMask = next &&& physAddrMask := by
  have h1 : presentBit &&& physAddrMask = 0#64 := by decide
  have h2 : readWriteBit &&& physAddrMask = 0#64 := by decide
  have h3 : userSupervisorBit &&& physAddrMask = 0#64 := by decide
  unfold linkEntry
  rw [BitVec.and_or_distrib_right, BitVec.and_or_distrib_right, BitVec.and_or_distrib_right, h1, h2, and_userSupervisorBit_and h3]
  simp

/-- A frame address has no flag bits of its own. -/
theorem getLsbD_of_aligned {a : Word} (h : 4096 ∣ a.toNat) {k : Nat} (hk : k < 12) :
    a.getLsbD k = false := by
  obtain ⟨n, hn⟩ := h
  rw [BitVec.getLsbD, hn, show 4096 = 2 ^ 12 from rfl, Nat.mul_comm, Nat.testBit_mul_two_pow]
  simp
  omega

theorem linkEntry_pageSize {next : Word} (h : 4096 ∣ next.toNat) (flags : Word) :
    linkEntry next flags &&& pageSizeBit = 0 := by
  have hnext : next &&& pageSizeBit = 0#64 :=
    and_pageSizeBit_eq_zero.mpr (getLsbD_of_aligned h (by decide))
  have h1 : presentBit &&& pageSizeBit = 0#64 := by decide
  have h2 : readWriteBit &&& pageSizeBit = 0#64 := by decide
  have h3 : userSupervisorBit &&& pageSizeBit = 0#64 := by decide
  unfold linkEntry
  rw [BitVec.and_or_distrib_right, BitVec.and_or_distrib_right, BitVec.and_or_distrib_right, hnext,
    h1, h2, and_userSupervisorBit_and h3]
  rfl

/-- An upper entry after `next_table` has passed through it. -/
theorem touched_and {m : Word} (h : userSupervisorBit &&& m = 0#64) (e flags : Word) :
    (e ||| (flags &&& userSupervisorBit)) &&& m = e &&& m := by
  rw [BitVec.and_or_distrib_right, and_userSupervisorBit_and h]
  simp

theorem entryTable_touched (depth : Nat) (e flags : Word) :
    entryTable depth (e ||| (flags &&& userSupervisorBit)) = entryTable depth e := by
  unfold entryTable
  rw [touched_and (by decide), touched_and (by decide), touched_and (by decide)]

theorem entryLeaf_touched (depth : Nat) (e flags : Word) :
    entryLeaf depth (e ||| (flags &&& userSupervisorBit)) = entryLeaf depth e := by
  unfold entryLeaf
  rw [touched_and (by decide), touched_and (by decide), touched_and (by decide)]

/-! ## The invariant -/

namespace Machine

/-- The invariant of the tree under `root`. -/
structure TreeInv (root : Word) (s : Machine) : Prop where
  pmm : s.pmm.Inv
  frames : s.pmm.Addressable
  null_not_free : ¬ s.pmm.Free null
  separate : PointerTree.Separate entryTable s.mem root
  tables : ∀ p a, s.tableAt root p = some a → s.pmm.Used a ∧ a ≠ null
  /-- `PAGE_SIZE_BIT` is only set in page directories and page tables. -/
  sizes : ∀ i p e, p.length < 2 → s.entryAt root (i :: p) = some e → e &&& presentBit ≠ 0 →
    e &&& pageSizeBit = 0

/-- Every present entry allows writes, and none allows user accesses. -/
def Supervised (root : Word) (s : Machine) : Prop :=
  ∀ q e, s.entryAt root q = some e → e &&& presentBit ≠ 0 →
    e &&& readWriteBit ≠ 0 ∧ e &&& userSupervisorBit = 0

/-- The paths among `paths` that have no table. -/
def missing (root : Word) (s : Machine) (paths : Finset (List Index)) : Finset (List Index) :=
  paths.filter fun p => s.tableAt root p = none

/-- `s'` is `s` with frames of the pmm hung as tables at the paths `new`, and
    leaves written that `flags` are the flags of. -/
structure Grows (flags root : Word) (new : Finset (List Index)) (s s' : Machine) : Prop where
  inv : s'.TreeInv root
  kept : ∀ p a, s.tableAt root p = some a → s'.tableAt root p = some a
  added : ∀ p, p ∈ new ↔ s.tableAt root p = none ∧ s'.tableAt root p ≠ none
  taken : ∃ frames, s.pmm.Takes frames s'.pmm ∧ frames.length = new.card ∧
    ∀ a, a ∈ frames ↔ ∃ p ∈ new, s'.tableAt root p = some a
  supervised : flags &&& readWriteBit ≠ 0 → flags &&& userSupervisorBit = 0 →
    s.Supervised root → s'.Supervised root

namespace Grows

variable {flags root : Word} {new new' : Finset (List Index)} {s s' s'' : Machine}

theorem refl (hinv : s.TreeInv root) : Grows flags root ∅ s s where
  inv := hinv
  kept _ _ h := h
  added p := by
    constructor
    · intro h
      cases h
    · exact fun h => absurd h.1 h.2
  taken := ⟨[], .nil _, rfl, fun a => by simp⟩
  supervised _ _ h := h

theorem tableAt_ne_none_iff (h : Grows flags root new s s') (p : List Index) :
    s'.tableAt root p ≠ none ↔ s.tableAt root p ≠ none ∨ p ∈ new := by
  rw [h.added]
  constructor
  · intro h'
    by_cases hs : s.tableAt root p = none
    · exact .inr ⟨hs, h'⟩
    · exact .inl hs
  · rintro (hs | ⟨_, h'⟩)
    · obtain ⟨a, ha⟩ := Option.ne_none_iff_exists'.mp hs
      exact ne_of_eq_of_ne (h.kept p a ha) (Option.some_ne_none a)
    · exact h'

theorem tableAt_eq_none_iff (h : Grows flags root new s s') (p : List Index) :
    s'.tableAt root p = none ↔ s.tableAt root p = none ∧ p ∉ new := by
  have := h.tableAt_ne_none_iff p
  rw [← not_iff_not, not_and_or, not_not]
  exact this

theorem missing_eq (h : Grows flags root new s s') (paths : Finset (List Index)) :
    s'.missing root paths = s.missing root paths \ new := by
  ext p
  unfold missing
  rw [Finset.mem_sdiff, Finset.mem_filter, Finset.mem_filter, h.tableAt_eq_none_iff, and_assoc]

theorem trans (h : Grows flags root new s s') (h' : Grows flags root new' s' s'') :
    Grows flags root (new ∪ new') s s'' := by
  have hdisj : Disjoint new new' := by
    rw [Finset.disjoint_left]
    intro p hp hp'
    exact ((h.added p).mp hp).2 ((h'.added p).mp hp').1
  refine ⟨h'.inv, fun p a ha => h'.kept p a (h.kept p a ha), fun p => ?_, ?_,
    fun hrw hus hsup => h'.supervised hrw hus (h.supervised hrw hus hsup)⟩
  · rw [Finset.mem_union]
    constructor
    · rintro (hp | hp)
      · obtain ⟨hs, hs'⟩ := (h.added p).mp hp
        exact ⟨hs, (h'.tableAt_ne_none_iff p).mpr (.inl hs')⟩
      · obtain ⟨hs', hs''⟩ := (h'.added p).mp hp
        exact ⟨((h.tableAt_eq_none_iff p).mp hs').1, hs''⟩
    · rintro ⟨hs, hs''⟩
      rcases (h'.tableAt_ne_none_iff p).mp hs'' with hs' | hp
      · exact .inl ((h.added p).mpr ⟨hs, hs'⟩)
      · exact .inr hp
  · obtain ⟨frames, htakes, hlen, hmem⟩ := h.taken
    obtain ⟨frames', htakes', hlen', hmem'⟩ := h'.taken
    refine ⟨frames ++ frames', htakes.append htakes', ?_, fun a => ?_⟩
    · rw [List.length_append, Finset.card_union_of_disjoint hdisj, hlen, hlen']
    · rw [List.mem_append, hmem, hmem']
      constructor
      · rintro (⟨p, hp, ha⟩ | ⟨p, hp, ha⟩)
        · exact ⟨p, Finset.mem_union_left _ hp, h'.kept p a ha⟩
        · exact ⟨p, Finset.mem_union_right _ hp, ha⟩
      · rintro ⟨p, hp, ha⟩
        rcases Finset.mem_union.mp hp with hp | hp
        · -- a table that was there already keeps its frame
          obtain ⟨b, hb⟩ := Option.ne_none_iff_exists'.mp ((h.added p).mp hp).2
          rw [h'.kept p b hb] at ha
          cases ha
          exact .inl ⟨p, hp, hb⟩
        · exact .inr ⟨p, hp, ha⟩

theorem freeCount_add (hinv : s.pmm.Inv) (h : Grows flags root new s s') :
    s'.pmm.freeCount + new.card = s.pmm.freeCount := by
  obtain ⟨frames, htakes, hlen, _⟩ := h.taken
  rw [← hlen]
  exact htakes.freeCount_add hinv

theorem layout_eq (h : Grows flags root new s s') : s'.pmm.layout = s.pmm.layout := by
  obtain ⟨frames, htakes, _⟩ := h.taken
  exact htakes.layout_eq

/-- A table is an old one, or its frame was free. -/
theorem origin (hinv : s.pmm.Inv) (h : Grows flags root new s s') {p : List Index} {x : Word}
    (hp : s'.tableAt root p = some x) : s.tableAt root p = some x ∨ s.pmm.Free x := by
  by_cases hold : s.tableAt root p = none
  · have hnew := (h.added p).mpr ⟨hold, ne_of_eq_of_ne hp (Option.some_ne_none x)⟩
    obtain ⟨frames, htakes, _, hmem⟩ := h.taken
    exact .inr (htakes.free_of_mem hinv ((hmem x).mpr ⟨p, hnew, hp⟩))
  · obtain ⟨a, ha⟩ := Option.ne_none_iff_exists'.mp hold
    have hkept := h.kept p a ha
    rw [hp] at hkept
    cases hkept
    exact .inl ha

/-- What is free after: the frames that no table sits in. -/
theorem free_iff (hinv : s.TreeInv root) (h : Grows flags root new s s') (x : Word) :
    s'.pmm.Free x ↔ s.pmm.Free x ∧ ∀ p, s'.tableAt root p ≠ some x := by
  obtain ⟨frames, htakes, _, hmem⟩ := h.taken
  rw [htakes.free_iff hinv.pmm, hmem]
  constructor
  · rintro ⟨hfree, hno⟩
    refine ⟨hfree, fun p hp => hno ⟨p, ?_, hp⟩⟩
    refine (h.added p).mpr ⟨?_, ne_of_eq_of_ne hp (Option.some_ne_none x)⟩
    -- an old table sits in a used frame
    by_contra hs
    obtain ⟨a, ha⟩ := Option.ne_none_iff_exists'.mp hs
    have hkept := h.kept p a ha
    rw [hp] at hkept
    cases hkept
    exact hinv.pmm.not_used_of_free hfree (hinv.tables p x ha).1
  · rintro ⟨hfree, hno⟩
    exact ⟨hfree, fun ⟨p, _, hp⟩ => hno p hp⟩

theorem used_iff (hinv : s.TreeInv root) (h : Grows flags root new s s') (x : Word) :
    s'.pmm.Used x ↔ s.pmm.Used x ∨ ∃ p, s'.tableAt root p = some x := by
  obtain ⟨frames, htakes, _, hmem⟩ := h.taken
  rw [htakes.used_iff hinv.pmm, hmem]
  constructor
  · rintro (hused | ⟨p, _, hp⟩)
    · exact .inl hused
    · exact .inr ⟨p, hp⟩
  · rintro (hused | ⟨p, hp⟩)
    · exact .inl hused
    · by_cases hs : s.tableAt root p = none
      · exact .inr ⟨p, (h.added p).mpr ⟨hs, ne_of_eq_of_ne hp (Option.some_ne_none x)⟩, hp⟩
      · obtain ⟨a, ha⟩ := Option.ne_none_iff_exists'.mp hs
        have := h.kept p a ha
        rw [hp] at this
        cases this
        exact .inl (hinv.tables p _ ha).1

end Grows

end Machine

/-! ## The two kinds of memory writes -/

namespace Machine

/-- The entries after `next_table` went through the slot `i :: p`: it hung an empty
    table there, or widened the pointer it found. -/
inductive Passed (flags root : Word) (s : Machine) (i : Index) (p : List Index) (s' : Machine) : Prop
  | linked {e b : Word} (slot : s.entryAt root (i :: p) = some e)
      (absent : e &&& presentBit = 0) (frame : 4096 ∣ b.toNat ∧ b.toNat < 2 ^ 52)
      (pointer : entryTable p.length (linkEntry b flags) ≠ none)
      (entries : ∀ q, s'.entryAt root q = if q = i :: p then some (linkEntry b flags)
        else if q.tail = i :: p then some 0#64 else s.entryAt root q)
  | widened {e : Word} (slot : s.entryAt root (i :: p) = some e)
      (pointer : entryTable p.length e ≠ none)
      (entries : ∀ q, s'.entryAt root q = if q = i :: p
        then some (e ||| (flags &&& userSupervisorBit)) else s.entryAt root q)

section Writes

variable {root : Word} {s : Machine} {p : List Index} {a : Word}

/-- Writing an entry that points where the old one pointed. -/
theorem store_grows (hinv : s.TreeInv root) (ha : s.tableAt root p = some a) {i : Index}
    {e : Word} (hnext : entryTable p.length e = entryTable p.length (s.mem a i))
    (hsize : p.length < 2 → e &&& presentBit ≠ 0 → e &&& pageSizeBit = 0) {flags : Word}
    (hsup : flags &&& readWriteBit ≠ 0 → flags &&& userSupervisorBit = 0 → e &&& presentBit ≠ 0 →
      s.Supervised root → e &&& readWriteBit ≠ 0 ∧ e &&& userSupervisorBit = 0) :
    Grows flags root ∅ s (s.store a i e) := by
  have hnode := PointerTree.node_write hinv.separate ha hnext
  have hslot := PointerTree.slot_write hinv.separate ha hnext
  -- no table moves, so only the entry itself is new to the invariant
  have hinv' : (s.store a i e).TreeInv root := by
    refine ⟨hinv.pmm, hinv.frames, hinv.null_not_free,
      PointerTree.separate_write hinv.separate ha hnext, fun q b hq => ?_,
      fun j q e' hq he' hp => ?_⟩
    · exact hinv.tables q b ((hnode q).symm.trans hq)
    · have he := (hslot (j :: q)).symm.trans he'
      split at he
      · next h =>
          cases h
          cases he
          exact hsize hq hp
      · exact hinv.sizes j q e' hq he hp
  refine ⟨hinv', fun q b hq => (hnode q).trans hq, fun q => ?_, ⟨[], .nil _, rfl, fun a => by simp⟩,
    fun hrw hus hs q e' he' hp => ?_⟩
  · constructor
    · intro h
      cases h
    · rintro ⟨h, h'⟩
      exact absurd ((hnode q).trans h) h'
  · have he := (hslot q).symm.trans he'
    split at he
    · cases he
      exact hsup hrw hus hp hs
    · exact hs q e' he hp

/-- The entries after such a write. -/
theorem entryAt_store (hinv : s.TreeInv root) (ha : s.tableAt root p = some a) {i : Index}
    {e : Word} (hnext : entryTable p.length e = entryTable p.length (s.mem a i)) (q : List Index) :
    (s.store a i e).entryAt root q = if q = i :: p then some e else s.entryAt root q :=
  PointerTree.slot_write hinv.separate ha hnext q

/-- The leaves after such a write. -/
theorem leafAt_store (hinv : s.TreeInv root) (ha : s.tableAt root p = some a) {i : Index}
    {e : Word} (hnext : entryTable p.length e = entryTable p.length (s.mem a i)) :
    (s.store a i e).leafAt root
      = Function.update (s.leafAt root) (i :: p) (entryLeaf p.length e) := by
  funext q
  refine (PointerTree.leafAt_write hinv.separate ha hnext entryLeaf q).trans ?_
  rw [Function.update_apply]

/-- Taking a frame from the pmm, clearing it and hanging it into an entry. -/
def link (s : Machine) (a : Word) (i : Index) (b : Word) (pmm : Pmm) (flags : Word) : Machine :=
  Machine.store ⟨pmm, PointerTree.fill s.mem b 0#64⟩ a i (linkEntry b flags)

/-- What there is to know about the frame and the entry: the frame was free, so no table sits
    in it, and the entry was absent and will point to it. -/
structure Linkable (root : Word) (s : Machine) (p : List Index) (a : Word) (i : Index) (b : Word)
    (pmm : Pmm) (flags : Word) : Prop where
  table : s.tableAt root p = some a
  absent : s.mem a i &&& presentBit = 0
  takes : s.pmm.Takes [b] pmm
  free : s.pmm.Free b
  frame : 4096 ∣ b.toNat ∧ b.toNat < 2 ^ 52
  ne_null : b ≠ null
  fresh : ∀ q, s.tableAt root q ≠ some b
  pointer : entryTable p.length (linkEntry b flags) = some b

theorem linkable (hinv : s.TreeInv root) (ha : s.tableAt root p = some a) {i : Index}
    (hlen : p.length < 3) (habsent : s.mem a i &&& presentBit = 0) {b : Word} {pmm : Pmm}
    (hcall : frameAllocate s.pmm = .ok (b, pmm)) (hfit : s.pmm.FirstFit 1 b pmm) (flags : Word) :
    s.Linkable root p a i b pmm flags := by
  have htakes : s.pmm.Takes [b] pmm := .cons hcall hfit (.nil _)
  have hfree : s.pmm.Free b := htakes.free_of_mem hinv.pmm List.mem_cons_self
  have hframe := hinv.frames b (.inl hfree)
  refine ⟨ha, habsent, htakes, hfree, hframe, fun h => hinv.null_not_free (h ▸ hfree),
    fun q hq => hinv.pmm.not_used_of_free hfree (hinv.tables q b hq).1, ?_⟩
  have hdepth : p.length < 2 ∨ p.length = 2 ∧ linkEntry b flags &&& pageSizeBit = 0 := by
    rcases Nat.lt_or_ge p.length 2 with h | h
    · exact .inl h
    · exact .inr ⟨by omega, linkEntry_pageSize hframe.1 flags⟩
  unfold entryTable
  rw [if_pos ⟨linkEntry_present b flags, hdepth⟩, linkEntry_address,
    and_physAddrMask_of_aligned hframe.1 hframe.2]

namespace Linkable

variable {i : Index} {b : Word} {pmm : Pmm} {flags : Word}
  (h : s.Linkable root p a i b pmm flags) (hinv : s.TreeInv root)

include h

theorem entry_none : entryTable p.length (s.mem a i) = none := entryTable_of_absent h.absent

/-- There was no table below the entry. -/
theorem tableAt_none : s.tableAt root (i :: p) = none :=
  (PointerTree.node_cons h.table).trans h.entry_none

/-- Writable, and user only if the flags are. -/
theorem entry_rights (hus : flags &&& userSupervisorBit = 0) :
    linkEntry b flags &&& readWriteBit ≠ 0 ∧ linkEntry b flags &&& userSupervisorBit = 0 := by
  constructor
  · rw [ne_eq, and_readWriteBit_eq_zero]
    simp [linkEntry, readWriteBit]
  · have hb : b &&& userSupervisorBit = 0#64 :=
      and_userSupervisorBit_eq_zero.mpr (getLsbD_of_aligned h.frame.1 (by decide))
    unfold linkEntry
    rw [hus, BitVec.and_or_distrib_right, BitVec.and_or_distrib_right,
      BitVec.and_or_distrib_right, hb]
    rfl

include hinv

/-- The frame becomes the one new table. -/
theorem tableAt (q : List Index) :
    (s.link a i b pmm flags).tableAt root q = if q = i :: p then some b else s.tableAt root q :=
  PointerTree.node_link hinv.separate h.table h.fresh h.entry_none h.pointer entryTable_zero q

/-- An entry is the link, one of the new table's zeros, or an old one. -/
theorem entryAt (q : List Index) :
    (s.link a i b pmm flags).entryAt root q = if q = i :: p then some (linkEntry b flags)
      else if q.tail = i :: p then some 0#64 else s.entryAt root q :=
  PointerTree.slot_link hinv.separate h.table h.fresh h.entry_none h.pointer entryTable_zero q

theorem leafAt : (s.link a i b pmm flags).leafAt root = s.leafAt root :=
  funext <| PointerTree.leafAt_link hinv.separate h.table h.fresh h.entry_none h.pointer entryTable_zero
    entryLeaf (entryLeaf_of_absent h.absent) (entryLeaf_of_entryTable h.pointer) entryLeaf_zero

theorem treeInv : (s.link a i b pmm flags).TreeInv root := by
  refine ⟨h.takes.inv hinv.pmm, fun c hc => ?_, fun hnull => ?_,
    PointerTree.separate_link hinv.separate h.table h.fresh h.entry_none h.pointer entryTable_zero,
    fun q c hq => ?_, fun j q e hq he hpres => ?_⟩
  · -- the managed frames are still the same ones
    have hpart : s.pmm.Free c ∨ s.pmm.Used c := by
      rcases hc with hc | hc
      · exact .inl ((h.takes.free_iff hinv.pmm c).mp hc).1
      · rcases (h.takes.used_iff hinv.pmm c).mp hc with hc | hc
        · exact .inr hc
        · rw [List.mem_singleton.mp hc]
          exact .inl h.free
    exact hinv.frames c hpart
  · exact hinv.null_not_free ((h.takes.free_iff hinv.pmm null).mp hnull).1
  · have hq' := (h.tableAt hinv q).symm.trans hq
    split at hq'
    · cases hq'
      exact ⟨(h.takes.used_iff hinv.pmm b).mpr (.inr List.mem_cons_self), h.ne_null⟩
    · have hold := hinv.tables q c hq'
      exact ⟨(h.takes.used_iff hinv.pmm c).mpr (.inl hold.1), hold.2⟩
  · have he' := (h.entryAt hinv (j :: q)).symm.trans he
    split at he'
    · cases he'
      exact linkEntry_pageSize h.frame.1 flags
    · split at he'
      · cases he'
        exact BitVec.zero_and
      · exact hinv.sizes j q e hq he' hpres

theorem supervised (hus : flags &&& userSupervisorBit = 0) (hs : s.Supervised root) :
    (s.link a i b pmm flags).Supervised root := by
  intro q e he hpres
  have he' := (h.entryAt hinv q).symm.trans he
  split at he'
  · cases he'
    exact h.entry_rights hus
  · split at he'
    · -- the new table is empty
      cases he'
      exact absurd BitVec.zero_and hpres
    · exact hs q e he' hpres

theorem grows : Grows flags root {i :: p} s (s.link a i b pmm flags) := by
  refine ⟨h.treeInv hinv, fun q c hq => ?_, fun q => ?_, ⟨[b], h.takes, rfl, fun c => ?_⟩,
    fun _ hus hs => h.supervised hinv hus hs⟩
  · rw [h.tableAt hinv, if_neg]
    · exact hq
    · rintro rfl
      rw [h.tableAt_none] at hq
      cases hq
  · rw [Finset.mem_singleton, h.tableAt hinv]
    by_cases hqp : q = i :: p
    · rw [if_pos hqp, hqp]
      exact iff_of_true rfl ⟨h.tableAt_none, Option.some_ne_none b⟩
    · rw [if_neg hqp]
      exact iff_of_false hqp fun h => h.2 h.1
  · rw [List.mem_singleton]
    constructor
    · rintro rfl
      exact ⟨_, Finset.mem_singleton_self _, (h.tableAt hinv _).trans (if_pos rfl)⟩
    · rintro ⟨q, hq, hqc⟩
      rw [h.tableAt hinv, if_pos (Finset.mem_singleton.mp hq)] at hqc
      exact (Option.some.inj hqc).symm

theorem passed : s.Passed flags root i p (s.link a i b pmm flags) :=
  .linked (PointerTree.slot_cons h.table) h.absent h.frame
    (ne_of_eq_of_ne h.pointer (Option.some_ne_none b)) (h.entryAt hinv)

end Linkable

end Writes

end Machine

/-! ## `next_table` -/

section NextTable

variable {root : Word} {s : Machine} (hinv : s.TreeInv root) {p : List Index} {a : Word}
  (ha : s.tableAt root p = some a) (hlen : p.length < 3) (i : Index) (flags : Word)

include hinv ha hlen

/-- At an absent entry `next_table` hangs a new table there, or the pmm is empty. -/
theorem nextTable_absent (habsent : s.mem a i &&& presentBit = 0) :
    (s.pmm.freeCount = 0 ∧ nextTable s a i flags = .ok (null, s)) ∨
    ∃ b pmm, nextTable s a i flags = .ok (b, s.link a i b pmm flags) ∧
      s.Linkable root p a i b pmm flags := by
  unfold nextTable
  rw [if_pos habsent]
  unfold allocTable
  rcases Pmm.frameAllocate_count hinv.pmm with ⟨hcall, hzero⟩ | ⟨b, pmm, hcall, hfit, hne, _⟩
  · refine .inl ⟨hzero, ?_⟩
    rw [hcall]
    rfl
  · have hlink := Machine.linkable hinv ha hlen habsent hcall hfit flags
    refine .inr ⟨b, pmm, ?_, hlink⟩
    rw [hcall]
    simp only [bind, Except.bind, pure, Except.pure, if_neg hne, if_neg hlink.ne_null]
    rfl

/-- At a pointer it returns the table, and the entry gets the user bit of the flags. -/
theorem nextTable_pointer (habsent : s.mem a i &&& presentBit ≠ 0)
    (hps : s.mem a i &&& pageSizeBit = 0) :
    ∃ b s', nextTable s a i flags = .ok (b, s') ∧ b ≠ null ∧ s.tableAt root (i :: p) = some b ∧
      s.Grows flags root ∅ s' ∧ s'.leafAt root = s.leafAt root ∧ s.Passed flags root i p s' := by
  have hslot : s.entryAt root (i :: p) = some (s.mem a i) := PointerTree.slot_cons ha
  have hdepth : p.length < 2 ∨ p.length = 2 ∧ s.mem a i &&& pageSizeBit = 0 := by
    rcases Nat.lt_or_ge p.length 2 with h | h
    · exact .inl h
    · exact .inr ⟨by omega, hps⟩
  have hpointer : entryTable p.length (s.mem a i) = some (s.mem a i &&& physAddrMask) :=
    if_pos ⟨habsent, hdepth⟩
  have hsome : s.tableAt root (i :: p) = some (s.mem a i &&& physAddrMask) :=
    (PointerTree.node_cons ha).trans hpointer
  have hnext := entryTable_touched p.length (s.mem a i) flags
  refine ⟨s.mem a i &&& physAddrMask, s.store a i (s.mem a i ||| (flags &&& userSupervisorBit)),
    ?_, (hinv.tables _ _ hsome).2, hsome, ?_, ?_,
    .widened hslot (ne_of_eq_of_ne hpointer (Option.some_ne_none _))
      (Machine.entryAt_store hinv ha hnext)⟩
  · have hmem : (s.store a i (s.mem a i ||| (flags &&& userSupervisorBit))).mem a i
        = s.mem a i ||| (flags &&& userSupervisorBit) :=
      if_pos ⟨rfl, rfl⟩
    unfold nextTable
    rw [if_neg habsent, if_neg (not_not_intro hps)]
    simp only []
    rw [hmem, touched_and (by decide)]
  · refine Machine.store_grows hinv ha hnext (fun _ _ => ?_) fun hrw hus _ hs => ?_
    · rw [touched_and (by decide)]
      exact hps
    · -- without the user bit nothing is written
      have hsame : s.mem a i ||| (flags &&& userSupervisorBit) = s.mem a i := by
        rw [hus]
        exact BitVec.or_zero
      rw [hsame]
      exact hs _ _ hslot habsent
  · rw [Machine.leafAt_store hinv ha hnext, entryLeaf_touched, ← PointerTree.leafAt_cons entryLeaf ha]
    exact Function.update_eq_self _ _

/-- At a 2 MiB page it fails. -/
theorem nextTable_large (habsent : s.mem a i &&& presentBit ≠ 0)
    (hps : s.mem a i &&& pageSizeBit ≠ 0) :
    s.leafAt root (i :: p) ≠ none ∧ nextTable s a i flags = .ok (null, s) := by
  have hdepth : p.length = 2 := by
    rcases Nat.lt_or_ge p.length 2 with h | h
    · exact absurd (hinv.sizes i p _ h (PointerTree.slot_cons ha) habsent) hps
    · omega
  have hsome : s.leafAt root (i :: p) = some (s.mem a i &&& physAddrMask) :=
    (PointerTree.leafAt_cons entryLeaf ha).trans (if_pos ⟨habsent, .inl ⟨hdepth, hps⟩⟩)
  refine ⟨ne_of_eq_of_ne hsome (Option.some_ne_none _), ?_⟩
  rw [nextTable, if_neg habsent, if_pos hps]

/-- Everything `next_table` can do at a table of the tree: return the table below,
    creating it if there is none, or fail with nothing changed, at a 2 MiB page or
    when the pmm is empty. -/
theorem nextTable_cases :
    (s.leafAt root (i :: p) ≠ none ∧ nextTable s a i flags = .ok (null, s)) ∨
    (s.leafAt root (i :: p) = none ∧ s.tableAt root (i :: p) = none ∧ s.pmm.freeCount = 0 ∧
      nextTable s a i flags = .ok (null, s)) ∨
    ∃ b s', nextTable s a i flags = .ok (b, s') ∧ b ≠ null ∧ s.leafAt root (i :: p) = none ∧
      s'.tableAt root (i :: p) = some b ∧
      s.Grows flags root (s.missing root {i :: p}) s' ∧ s'.leafAt root = s.leafAt root ∧
      s.Passed flags root i p s' := by
  by_cases habsent : s.mem a i &&& presentBit = 0
  · have hnone : s.tableAt root (i :: p) = none :=
      (PointerTree.node_cons ha).trans (entryTable_of_absent habsent)
    have hleafNone : s.leafAt root (i :: p) = none :=
      (PointerTree.leafAt_cons entryLeaf ha).trans (entryLeaf_of_absent habsent)
    rcases nextTable_absent hinv ha hlen i flags habsent with
      ⟨hzero, hcall⟩ | ⟨b, pmm, hcall, hlink⟩
    · exact .inr (.inl ⟨hleafNone, hnone, hzero, hcall⟩)
    · -- the new table is the one that was missing
      have hmissing : s.missing root {i :: p} = {i :: p} :=
        Finset.filter_true_of_mem fun q hq => by
          rw [Finset.mem_singleton.mp hq]
          exact hnone
      refine .inr (.inr ⟨b, _, hcall, hlink.ne_null, hleafNone,
        (hlink.tableAt hinv _).trans (if_pos rfl), ?_, hlink.leafAt hinv, hlink.passed hinv⟩)
      rw [hmissing]
      exact hlink.grows hinv
  by_cases hps : s.mem a i &&& pageSizeBit = 0
  · obtain ⟨b, s', hcall, hne, hsome, hgrows, hleaves, hpassed⟩ :=
      nextTable_pointer hinv ha hlen i flags habsent hps
    have hmissing : s.missing root {i :: p} = ∅ := by
      refine Finset.filter_false_of_mem fun q hq => ?_
      rw [Finset.mem_singleton.mp hq]
      exact ne_of_eq_of_ne hsome (Option.some_ne_none _)
    refine .inr (.inr ⟨b, s', hcall, hne, Machine.leafAt_of_tableAt hsome, hgrows.kept _ _ hsome,
      ?_, hleaves, hpassed⟩)
    rw [hmissing]
    exact hgrows
  · exact .inl (nextTable_large hinv ha hlen i flags habsent hps)

end NextTable

end EchOS
