/-
  EchOS.Kernel.Memory.Rights

  What a page table allows at a virtual page.

  The processor allows a write or a user access when every level of its walk does,
  and forbids execution when one level does.  `Led` is the invariant behind "upper
  levels are always present and writable; the leaf entry decides the real
  permissions": pointers are writable and executable, and an entry that allows
  user accesses hangs below entries that do.  `effectiveRights_eq` then reads the
  rights of a page off its leaf entry.

  `Rewrites` is what the table code does entry by entry: it grows the tree, sets
  leaf entries and keeps `Led`.
-/
import EchOS.Kernel.Memory.PageTreeInvariant

namespace EchOS

/-- `NX_BIT` -/
def nxBit : Word := 0x8000000000000000#64

/-! ## The rights of a walk -/

/-- What the processor allows at an address. -/
structure Rights where
  write : Bool
  user : Bool
  noExecute : Bool
  deriving Repr, DecidableEq

/-- The rights bits of one entry. -/
def Rights.ofEntry (entry : Word) : Rights where
  write := entry &&& readWriteBit ≠ 0
  user := entry &&& userSupervisorBit ≠ 0
  noExecute := entry &&& nxBit ≠ 0

/-- The rights of a walk through the given entries: conjunction of the write bits
    and of the user bits, disjunction of the no-execute bits. -/
def Rights.through (entries : List Word) : Rights where
  write := entries.all fun e => e &&& readWriteBit ≠ 0
  user := entries.all fun e => e &&& userSupervisorBit ≠ 0
  noExecute := entries.any fun e => e &&& nxBit ≠ 0

/-- The entries that the four-level walk of a 48-bit virtual address reads, the
    PML4's first, when it ends in a leaf. -/
def walkEntries (mem : Mem) (pml4 vaddr : Word) : Option (List Word) :=
  let e4 := mem pml4 (index4 vaddr)
  if e4 &&& presentBit = 0 then none
  else
    let e3 := mem (e4 &&& physAddrMask) (index3 vaddr)
    if e3 &&& presentBit = 0 then none
    else
      let e2 := mem (e3 &&& physAddrMask) (index2 vaddr)
      if e2 &&& presentBit = 0 then none
      else if e2 &&& pageSizeBit ≠ 0 then some [e4, e3, e2]
      else
        let e1 := mem (e2 &&& physAddrMask) (index1 vaddr)
        if e1 &&& presentBit = 0 then none
        else some [e4, e3, e2, e1]

/-- The address lies in a 2 MiB page. -/
def InLargePage (mem : Mem) (pml4 vaddr : Word) : Prop :=
  ∃ e4 e3 e2, walkEntries mem pml4 vaddr = some [e4, e3, e2]

/-- The rights in force at a virtual address, if it is mapped. -/
def effectiveRights (mem : Mem) (pml4 vaddr : Word) : Option Rights :=
  (walkEntries mem pml4 vaddr).map Rights.through

/-- These are the rights of the translation, which leaves execution out. -/
theorem effectiveRights_walk (mem : Mem) (pml4 vaddr : Word) :
    (effectiveRights mem pml4 vaddr).map (fun r => (r.write, r.user))
      = (walk mem pml4 vaddr).map fun t => (t.writable, t.user) := by
  unfold effectiveRights walkEntries walk
  simp only []
  split
  · rfl
  · split
    · rfl
    · split
      · rfl
      · split
        · rfl
        · split <;> rfl

/-! ## Leaf entries -/

/-- An entry that is a leaf, in a table at `depth`. -/
def leafEntry (depth : Nat) (entry : Word) : Option Word :=
  if entry &&& presentBit ≠ 0 ∧ (depth = 2 ∧ entry &&& pageSizeBit ≠ 0 ∨ depth = 3) then some entry
  else none

theorem entryLeaf_eq (depth : Nat) (entry : Word) :
    entryLeaf depth entry = (leafEntry depth entry).map (· &&& physAddrMask) := by
  unfold entryLeaf leafEntry
  split <;> rfl

theorem leafEntry_of_absent {depth : Nat} {entry : Word} (h : entry &&& presentBit = 0) :
    leafEntry depth entry = none :=
  if_neg fun h' => h'.1 h

theorem leafEntry_of_entryTable {depth : Nat} {entry : Word} (h : entryTable depth entry ≠ none) :
    leafEntry depth entry = none := by
  obtain ⟨a, ha⟩ := Option.ne_none_iff_exists'.mp h
  have hnone := entryLeaf_of_entryTable ha
  rw [entryLeaf_eq, Option.map_eq_none_iff] at hnone
  exact hnone

namespace Machine

/-- The leaf entry at the end of a path. -/
abbrev leafEntryAt (s : Machine) (root : Word) (p : List Index) : Option Word :=
  PointerTree.leafAt entryTable leafEntry s.mem root p

/-- The leaf entry that maps `v`'s page. -/
def pageEntry (s : Machine) (root v : Word) : Option Word :=
  match s.leafEntryAt root (path 3 v) with
  | some e => some e
  | none => s.leafEntryAt root (path 4 v)

section Leaves

variable {s s' : Machine} {root v : Word}

theorem leafAt_eq (s : Machine) (root : Word) (p : List Index) :
    s.leafAt root p = (s.leafEntryAt root p).map (· &&& physAddrMask) := by
  cases p with
  | nil => rfl
  | cons i p =>
      rw [leafAt, leafEntryAt, PointerTree.leafAt, PointerTree.leafAt, Option.map_bind]
      congr 1
      funext e
      exact entryLeaf_eq p.length e

theorem leafAt_eq_none_iff {p : List Index} :
    s.leafAt root p = none ↔ s.leafEntryAt root p = none := by
  rw [leafAt_eq, Option.map_eq_none_iff]

/-- Rewriting the leaf entries rewrites their address fields. -/
theorem leafAt_of_update {p : List Index} {e : Word}
    (h : s'.leafEntryAt root = Function.update (s.leafEntryAt root) p (some e)) :
    s'.leafAt root = Function.update (s.leafAt root) p (some (e &&& physAddrMask)) := by
  funext q
  rw [leafAt_eq, h, Function.update_apply, Function.update_apply]
  split
  · rfl
  · exact (leafAt_eq s root q).symm

theorem leafAt_of_same (h : s'.leafEntryAt root = s.leafEntryAt root) :
    s'.leafAt root = s.leafAt root := by
  funext q
  rw [leafAt_eq, h, ← leafAt_eq]

theorem pageEntry_of_large {e : Word} (h : s.leafEntryAt root (path 3 v) = some e) :
    s.pageEntry root v = some e := by
  unfold pageEntry
  rw [h]

theorem pageEntry_of_small (h : s.leafEntryAt root (path 3 v) = none) :
    s.pageEntry root v = s.leafEntryAt root (path 4 v) := by
  unfold pageEntry
  rw [h]

theorem pageEntry_congr {w : Word} (h : path 4 v = path 4 w) :
    s.pageEntry root v = s.pageEntry root w := by
  unfold pageEntry
  rw [path_three_eq_of_path_four_eq h, h]

theorem pageFrame_eq_none_iff : s.pageFrame root v = none ↔ s.pageEntry root v = none := by
  unfold pageFrame pageEntry
  rw [leafAt_eq]
  cases s.leafEntryAt root (path 3 v) with
  | some e => exact iff_of_false (Option.some_ne_none _) (Option.some_ne_none _)
  | none => exact leafAt_eq_none_iff

/-- Nothing is mapped below a page directory that is missing. -/
theorem pageEntry_of_tableAt {d : Nat} (hd : d ≤ 2) (h : s.tableAt root (path d v) = none) :
    s.pageEntry root v = none :=
  pageFrame_eq_none_iff.mp (pageFrame_of_tableAt hd h)

theorem pageEntry_of_same (h : s'.leafEntryAt root = s.leafEntryAt root) :
    s'.pageEntry root = s.pageEntry root := by
  funext w
  unfold pageEntry
  rw [h]

/-- A 4 KiB leaf entry shows at its own page only. -/
theorem pageEntry_update_small {e : Word}
    (h : s'.leafEntryAt root = Function.update (s.leafEntryAt root) (path 4 v) (some e))
    (hnone : s.leafEntryAt root (path 3 v) = none) (w : Word) :
    s'.pageEntry root w = if path 4 w = path 4 v then some e else s.pageEntry root w := by
  have hne : path 3 w ≠ path 4 v := path_ne_of_length_ne (by decide)
  unfold pageEntry
  rw [h, Function.update_of_ne hne, Function.update_apply]
  by_cases heq : path 4 w = path 4 v
  · rw [path_three_eq_of_path_four_eq heq, hnone, if_pos heq]
  · rw [if_neg heq, if_neg heq]

/-- A 2 MiB leaf entry shows at the pages of its region only. -/
theorem pageEntry_update_large {e : Word}
    (h : s'.leafEntryAt root = Function.update (s.leafEntryAt root) (path 3 v) (some e)) (w : Word) :
    s'.pageEntry root w = if path 3 w = path 3 v then some e else s.pageEntry root w := by
  have hne : path 4 w ≠ path 3 v := path_ne_of_length_ne (by decide)
  unfold pageEntry
  rw [h, Function.update_of_ne hne, Function.update_apply]
  by_cases heq : path 3 w = path 3 v
  · rw [if_pos heq, if_pos heq]
  · rw [if_neg heq, if_neg heq]

end Leaves

/-! ## The entries of the walk -/

theorem leafEntryAt_path {s : Machine} {root v a : Word} {d : Nat}
    (ha : s.tableAt root (path d v) = some a) :
    s.leafEntryAt root (path (d + 1) v) = leafEntry d (s.mem a (indexAt d v)) := by
  have h := PointerTree.leafAt_cons leafEntry (i := indexAt d v) ha
  rw [path_length] at h
  exact h

/-- Upper entries of a walk point to the tables of the path. -/
def PointersOn (s : Machine) (root v : Word) (entries : List Word) : Prop :=
  ∀ u ∈ entries, ∃ d, d < entries.length ∧ s.entryAt root (path (d + 1) v) = some u ∧
    entryTable d u ≠ none

/-- A pointer of the walk leads to the table of the next level. -/
theorem pointer_of_present {s : Machine} {root v a : Word} {d : Nat}
    (ha : s.tableAt root (path d v) = some a) (hpresent : s.mem a (indexAt d v) &&& presentBit ≠ 0)
    (hpointer : d < 2 ∨ d = 2 ∧ s.mem a (indexAt d v) &&& pageSizeBit = 0) :
    entryTable d (s.mem a (indexAt d v)) ≠ none ∧
    s.tableAt root (path (d + 1) v) = some (s.mem a (indexAt d v) &&& physAddrMask) := by
  have htable : entryTable d (s.mem a (indexAt d v))
      = some (s.mem a (indexAt d v) &&& physAddrMask) := if_pos ⟨hpresent, hpointer⟩
  exact ⟨ne_of_eq_of_ne htable (Option.some_ne_none _), (tableAt_path ha).trans htable⟩

theorem pointersOn_nil (s : Machine) (root v : Word) : s.PointersOn root v [] := by
  intro u hu
  cases hu

/-- The walk reads one more pointer. -/
theorem PointersOn.concat {s : Machine} {root v a u : Word} {es : List Word}
    (h : s.PointersOn root v es) (ha : s.tableAt root (path es.length v) = some a)
    (hu : s.mem a (indexAt es.length v) = u) (htable : entryTable es.length u ≠ none) :
    s.PointersOn root v (es ++ [u]) := by
  intro w hw
  rw [List.length_append, List.length_singleton]
  rcases List.mem_append.mp hw with hw | hw
  · obtain ⟨d, hd, hslot, hnext⟩ := h w hw
    exact ⟨d, Nat.lt_succ_of_lt hd, hslot, hnext⟩
  · rw [List.mem_singleton.mp hw]
    exact ⟨es.length, Nat.lt_succ_self _, hu ▸ entryAt_path ha, htable⟩

/-- The last page table of a walk holds the entry of the page. -/
theorem pageEntry_of_table {s : Machine} {root v a pt : Word}
    (ha : s.tableAt root (path 2 v) = some a) (hpointer : entryTable 2 (s.mem a (indexAt 2 v)) ≠ none)
    (hpt : s.tableAt root (path 3 v) = some pt) :
    s.leafEntryAt root (path 3 v) = none ∧
    s.pageEntry root v = leafEntry 3 (s.mem pt (index1 v)) := by
  have hnone := (leafEntryAt_path ha).trans (leafEntry_of_entryTable hpointer)
  exact ⟨hnone, (pageEntry_of_small hnone).trans (leafEntryAt_path hpt)⟩

/-- The walk reads pointers and ends in the leaf entry of the page. -/
theorem walkEntries_cases (s : Machine) (root v : Word) :
    (walkEntries s.mem root v = none ∧ s.pageEntry root v = none) ∨
    ∃ es e, walkEntries s.mem root v = some (es ++ [e]) ∧ s.pageEntry root v = some e ∧
      s.entryAt root (path (es.length + 1) v) = some e ∧ e &&& presentBit ≠ 0 ∧
      s.PointersOn root v es ∧ (es.length = 2 ↔ s.leafEntryAt root (path 3 v) ≠ none) := by
  have hroot : s.tableAt root (path 0 v) = some root := rfl
  unfold walkEntries
  simp only []
  -- the PML4 entry
  by_cases h4 : s.mem root (index4 v) &&& presentBit = 0
  · rw [if_pos h4]
    exact .inl ⟨rfl, pageEntry_of_tableAt (by decide : 1 ≤ 2)
      ((tableAt_path hroot).trans (entryTable_of_absent h4))⟩
  rw [if_neg h4]
  obtain ⟨hp4, hpdp⟩ : entryTable 0 (s.mem root (index4 v)) ≠ none ∧
      s.tableAt root (path 1 v) = some (s.mem root (index4 v) &&& physAddrMask) :=
    pointer_of_present hroot h4 (.inl Nat.two_pos)
  have hon4 : s.PointersOn root v [s.mem root (index4 v)] :=
    (s.pointersOn_nil root v).concat hroot rfl hp4
  -- the PDP entry
  generalize s.mem root (index4 v) &&& physAddrMask = pdp at hpdp ⊢
  by_cases h3 : s.mem pdp (index3 v) &&& presentBit = 0
  · rw [if_pos h3]
    exact .inl ⟨rfl, pageEntry_of_tableAt (Nat.le_refl 2)
      ((tableAt_path hpdp).trans (entryTable_of_absent h3))⟩
  rw [if_neg h3]
  obtain ⟨hp3, hpd⟩ : entryTable 1 (s.mem pdp (index3 v)) ≠ none ∧
      s.tableAt root (path 2 v) = some (s.mem pdp (index3 v) &&& physAddrMask) :=
    pointer_of_present hpdp h3 (.inl (by decide))
  have hon3 : s.PointersOn root v [s.mem root (index4 v), s.mem pdp (index3 v)] :=
    hon4.concat hpdp rfl hp3
  -- the PD entry
  generalize s.mem pdp (index3 v) &&& physAddrMask = pd at hpd ⊢
  have hleaf3 : s.leafEntryAt root (path 3 v) = leafEntry 2 (s.mem pd (index2 v)) :=
    leafEntryAt_path hpd
  by_cases hp : s.mem pd (index2 v) &&& presentBit = 0
  · rw [if_pos hp]
    have hno := (tableAt_path hpd).trans (entryTable_of_absent hp)
    refine .inl ⟨rfl, ?_⟩
    rw [pageEntry_of_small (hleaf3.trans (leafEntry_of_absent hp))]
    exact leafAt_eq_none_iff.mp (leafAt_path_of_le (Nat.le_refl 3) hno)
  rw [if_neg hp]
  by_cases hps : s.mem pd (index2 v) &&& pageSizeBit = 0
  · -- a page table
    rw [if_neg (not_not_intro hps)]
    obtain ⟨hp2, hpt⟩ : entryTable 2 (s.mem pd (index2 v)) ≠ none ∧
        s.tableAt root (path 3 v) = some (s.mem pd (index2 v) &&& physAddrMask) :=
      pointer_of_present hpd hp (.inr ⟨rfl, hps⟩)
    have hon2 : s.PointersOn root v
        [s.mem root (index4 v), s.mem pdp (index3 v), s.mem pd (index2 v)] :=
      hon3.concat hpd rfl hp2
    generalize s.mem pd (index2 v) &&& physAddrMask = pt at hpt ⊢
    obtain ⟨hnone3, hentry⟩ := pageEntry_of_table hpd hp2 hpt
    rw [hentry]
    by_cases h1p : s.mem pt (index1 v) &&& presentBit = 0
    · rw [if_pos h1p]
      exact .inl ⟨rfl, leafEntry_of_absent h1p⟩
    · rw [if_neg h1p]
      exact .inr ⟨[_, _, _], _, rfl, if_pos ⟨h1p, .inr rfl⟩, entryAt_path hpt, h1p, hon2,
        iff_of_false (show ¬ 3 = 2 by decide) (not_not_intro hnone3)⟩
  · -- a 2 MiB page
    rw [if_pos hps]
    have hsome := hleaf3.trans (if_pos ⟨hp, .inl ⟨rfl, hps⟩⟩)
    exact .inr ⟨[_, _], _, rfl, pageEntry_of_large hsome, entryAt_path hpd, hp, hon3,
      iff_of_true rfl (ne_of_eq_of_ne hsome (Option.some_ne_none _))⟩

theorem inLargePage_iff {s : Machine} {root v : Word} :
    InLargePage s.mem root v ↔ s.leafEntryAt root (path 3 v) ≠ none := by
  unfold InLargePage
  rcases walkEntries_cases s root v with
    ⟨hwalk, hentry⟩ | ⟨es, e, hwalk, _, _, _, _, hlarge⟩
  · -- a large leaf would be the page's entry
    rw [hwalk]
    refine iff_of_false (fun ⟨_, _, _, h⟩ => by cases h) (not_not_intro ?_)
    by_contra hsome
    obtain ⟨e, he⟩ := Option.ne_none_iff_exists'.mp hsome
    rw [pageEntry_of_large he] at hentry
    cases hentry
  · rw [← hlarge, hwalk]
    constructor
    · rintro ⟨e4, e3, e2, h⟩
      have hlen := congrArg List.length (Option.some.inj h)
      simpa using hlen
    · intro hlen
      obtain ⟨e4, e3, rfl⟩ := List.length_eq_two.mp hlen
      exact ⟨e4, e3, e, rfl⟩

/-! ## The leaf decides -/

/-- The entry at the end of a path allows user accesses. -/
def UserAt (root : Word) (s : Machine) : List Index → Prop
  | [] => True
  | i :: p => ∃ e, s.entryAt root (i :: p) = some e ∧ e &&& presentBit ≠ 0 ∧
      e &&& userSupervisorBit ≠ 0

/-- Upper levels leave the real permissions to the leaf. -/
structure Led (root : Word) (s : Machine) : Prop where
  pointers : ∀ i p e, s.entryAt root (i :: p) = some e → entryTable p.length e ≠ none →
    e &&& readWriteBit ≠ 0 ∧ e &&& nxBit = 0
  users : ∀ i p, s.UserAt root (i :: p) → s.UserAt root p

/-- User accesses are allowed all the way down. -/
theorem Led.userAt_path {root v : Word} {s : Machine} (hled : s.Led root) {d n : Nat} (hdn : d ≤ n)
    (h : s.UserAt root (path n v)) : s.UserAt root (path d v) := by
  induction n with
  | zero =>
      rw [show d = 0 by omega]
      trivial
  | succ n ih =>
      rcases Nat.lt_or_ge d (n + 1) with hlt | hge
      · exact ih (by omega) (hled.users _ _ h)
      · rw [show d = n + 1 by omega]
        exact h

/-- The upper entries of a walk, when the leaf decides. -/
theorem Led.upper {root v : Word} {s : Machine} (hled : s.Led root) {es : List Word} {e u : Word}
    (hpointers : s.PointersOn root v es) (hleaf : s.entryAt root (path (es.length + 1) v) = some e)
    (hpresent : e &&& presentBit ≠ 0) (hu : u ∈ es) :
    u &&& presentBit ≠ 0 ∧ u &&& readWriteBit ≠ 0 ∧ u &&& nxBit = 0 ∧
      (e &&& userSupervisorBit ≠ 0 → u &&& userSupervisorBit ≠ 0) := by
  obtain ⟨d, hd, hslot, htable⟩ := hpointers u hu
  obtain ⟨a, ha⟩ := Option.ne_none_iff_exists'.mp htable
  have hrights := hled.pointers _ (path d v) u hslot (by
    rw [path_length]
    exact htable)
  refine ⟨(entryTable_eq_some ha).1, hrights.1, hrights.2, fun huser => ?_⟩
  have hat : s.UserAt root (path (es.length + 1) v) := ⟨e, hleaf, hpresent, huser⟩
  obtain ⟨u', hslot', _, huser'⟩ : s.UserAt root (path (d + 1) v) :=
    hled.userAt_path (by omega) hat
  cases hslot.symm.trans hslot'
  exact huser'

/-- The rights in force at a page are those of its leaf entry. -/
theorem Led.effectiveRights_eq {root : Word} {s : Machine} (hled : s.Led root) (v : Word) :
    effectiveRights s.mem root v = (s.pageEntry root v).map Rights.ofEntry := by
  unfold effectiveRights
  rcases walkEntries_cases s root v with
    ⟨hwalk, hentry⟩ | ⟨es, e, hwalk, hentry, hleaf, hpresent, hpointers, _⟩
  · rw [hwalk, hentry]
    rfl
  · have hupper := fun u hu => hled.upper (u := u) hpointers hleaf hpresent hu
    rw [hwalk, hentry]
    refine congrArg some ?_
    unfold Rights.through Rights.ofEntry
    have hwrite : (es.all fun u => u &&& readWriteBit ≠ 0) = true := by
      rw [List.all_eq_true]
      exact fun u hu => decide_eq_true (hupper u hu).2.1
    have hexec : (es.any fun u => u &&& nxBit ≠ 0) = false := by
      rw [List.any_eq_false]
      intro u hu
      simpa using (hupper u hu).2.2.1
    rw [List.all_append, List.all_append, List.any_append, hwrite, hexec]
    by_cases huser : e &&& userSupervisorBit = 0
    · simp [huser]
    · have hall : (es.all fun u => u &&& userSupervisorBit ≠ 0) = true := by
        rw [List.all_eq_true]
        exact fun u hu => decide_eq_true ((hupper u hu).2.2.2 huser)
      rw [hall]
      simp

end Machine

end EchOS
