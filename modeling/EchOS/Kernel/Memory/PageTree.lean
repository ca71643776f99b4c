/-
  EchOS.Kernel.Memory.PageTree

  The page tables as a tree: which entries point to a table, which are leaves,
  and the path of indices a virtual address takes.

  A present entry is a pointer in the two upper levels, a 2 MiB leaf or a pointer
  in a page directory, and a 4 KiB leaf in a page table.  A path lists the
  indices last one first, so `path 4 v` identifies `v`'s 4 KiB page and `path 3 v`
  its 2 MiB region.  `translate_eq` reads the processor's walk off the leaves of
  these two paths; nothing later looks at `walk` itself for the physical address.
-/
import EchOS.Kernel.Memory.Paging

namespace EchOS

/-! ## Fields of a word -/

/-- A field of `n` bits at bit `k`, left in place. -/
theorem toNat_and_field (x : Word) {k n : Nat} (h : k + n ≤ 64) :
    (x &&& BitVec.ofNat 64 ((2 ^ n - 1) * 2 ^ k)).toNat = x.toNat / 2 ^ k % 2 ^ n * 2 ^ k := by
  have hlt : (2 ^ n - 1) * 2 ^ k < 2 ^ 64 := by
    have h1 : 2 ^ n * 2 ^ k ≤ 2 ^ 64 := by
      rw [← Nat.pow_add]
      exact Nat.pow_le_pow_right (by decide) (by omega)
    have h2 : (2 ^ n - 1) * 2 ^ k < 2 ^ n * 2 ^ k :=
      Nat.mul_lt_mul_of_pos_right (Nat.sub_lt (Nat.two_pow_pos n) Nat.one_pos) (Nat.two_pow_pos k)
    omega
  rw [BitVec.toNat_and, toNat_ofNat_of_lt hlt]
  apply Nat.eq_of_testBit_eq
  intro i
  rw [Nat.testBit_and, Nat.testBit_mul_two_pow, Nat.testBit_mul_two_pow, Nat.testBit_two_pow_sub_one,
    Nat.testBit_mod_two_pow, Nat.testBit_div_two_pow]
  by_cases hk : k ≤ i
  · have hi : i - k + k = i := by omega
    by_cases hn : i - k < n <;> simp [hk, hn, hi]
  · simp [hk]

theorem and_physAddrMask_toNat (x : Word) :
    (x &&& physAddrMask).toNat = x.toNat / 4096 % 2 ^ 40 * 4096 :=
  toNat_and_field x (k := 12) (n := 40) (by decide)

theorem and_largeOffset_toNat (x : Word) :
    (x &&& (largePageSize - 1#64)).toNat = x.toNat % 2 ^ 21 := by
  have h := toNat_and_field x (k := 0) (n := 21) (by decide)
  rw [Nat.pow_zero, Nat.div_one, Nat.mul_one, Nat.mul_one] at h
  exact h

theorem and_not_largeOffset_toNat (x : Word) :
    (x &&& ~~~(largePageSize - 1#64)).toNat = x.toNat / 2 ^ 21 * 2 ^ 21 := by
  have h := toNat_and_field x (k := 21) (n := 43) (by decide)
  have hmask : BitVec.ofNat 64 ((2 ^ 43 - 1) * 2 ^ 21) = ~~~(largePageSize - 1#64) := by
    simp [largePageSize]
  have hlt : x.toNat / 2 ^ 21 < 2 ^ 43 := by
    have := x.isLt
    omega
  rw [← hmask, h, Nat.mod_eq_of_lt hlt]

theorem and_pageOffset_toNat (x : Word) : (x &&& 0xFFF#64).toNat = x.toNat % 4096 := by
  have h := toNat_and_field x (k := 0) (n := 12) (by decide)
  rw [Nat.pow_zero, Nat.div_one, Nat.mul_one, Nat.mul_one] at h
  exact h

theorem and_pageInRegion_toNat (x : Word) :
    (x &&& 0x1FF000#64).toNat = x.toNat / 4096 % 512 * 4096 :=
  toNat_and_field x (k := 12) (n := 9) (by decide)

/-- A physical address that fits an entry is its own address field. -/
theorem and_physAddrMask_of_aligned {a : Word} (hal : 4096 ∣ a.toNat) (hlt : a.toNat < 2 ^ 52) :
    a &&& physAddrMask = a := by
  apply BitVec.eq_of_toNat_eq
  rw [and_physAddrMask_toNat]
  omega

/-! ## Entries -/

/-- The table an entry points to, in a table at `depth` (0 is the PML4). -/
def entryTable (depth : Nat) (entry : Word) : Option Word :=
  if entry &&& presentBit ≠ 0 ∧ (depth < 2 ∨ depth = 2 ∧ entry &&& pageSizeBit = 0) then
    some (entry &&& physAddrMask)
  else none

/-- The address field of an entry that is a leaf. -/
def entryLeaf (depth : Nat) (entry : Word) : Option Word :=
  if entry &&& presentBit ≠ 0 ∧ (depth = 2 ∧ entry &&& pageSizeBit ≠ 0 ∨ depth = 3) then
    some (entry &&& physAddrMask)
  else none

@[simp] theorem entryTable_zero (depth : Nat) : entryTable depth 0#64 = none := by
  unfold entryTable
  simp

@[simp] theorem entryLeaf_zero (depth : Nat) : entryLeaf depth 0#64 = none := by
  unfold entryLeaf
  simp

theorem entryTable_of_absent {depth : Nat} {entry : Word} (h : entry &&& presentBit = 0) :
    entryTable depth entry = none :=
  if_neg fun h' => h'.1 h

theorem entryLeaf_of_absent {depth : Nat} {entry : Word} (h : entry &&& presentBit = 0) :
    entryLeaf depth entry = none :=
  if_neg fun h' => h'.1 h

/-- A present entry is a pointer or a leaf, not both. -/
theorem entryLeaf_of_entryTable {depth : Nat} {entry a : Word} (h : entryTable depth entry = some a) :
    entryLeaf depth entry = none := by
  unfold entryTable at h
  split at h
  · next hc =>
      refine if_neg fun hl => ?_
      rcases hl.2 with ⟨hd, hps⟩ | hd
      · rcases hc.2 with h2 | ⟨_, h2⟩
        · omega
        · exact hps h2
      · omega
  · cases h

theorem entryTable_eq_some {depth : Nat} {entry a : Word} (h : entryTable depth entry = some a) :
    entry &&& presentBit ≠ 0 ∧ a = entry &&& physAddrMask := by
  unfold entryTable at h
  split at h
  · next hc => exact ⟨hc.1, (Option.some.inj h).symm⟩
  · cases h

/-! ## Paths -/

/-- The index of `v` into its table at `depth`. -/
def indexAt : Nat → Word → Index
  | 0, v => index4 v
  | 1, v => index3 v
  | 2, v => index2 v
  | _, v => index1 v

/-- The first `depth` indices of `v`, the last one first. -/
def path : Nat → Word → List Index
  | 0, _ => []
  | depth + 1, v => indexAt depth v :: path depth v

@[simp] theorem path_length (depth : Nat) (v : Word) : (path depth v).length = depth := by
  induction depth with
  | zero => rfl
  | succ depth ih => rw [path, List.length_cons, ih]

/-- Bits 12 to 47 of a virtual address: its 4 KiB page. -/
def pageNumber (v : Word) : Nat := v.toNat / 4096 % 2 ^ 36

/-- Bits 21 to 47 of a virtual address: its 2 MiB region. -/
def regionNumber (v : Word) : Nat := v.toNat / 2 ^ 21 % 2 ^ 27

theorem index_toNat (v : Word) (k : Nat) : ((v >>> k).setWidth 9).toNat = v.toNat / 2 ^ k % 512 := by
  rw [BitVec.toNat_setWidth, BitVec.toNat_ushiftRight, Nat.shiftRight_eq_div_pow]

theorem index4_eq_iff {v w : Word} :
    index4 v = index4 w ↔ v.toNat / 2 ^ 39 % 512 = w.toNat / 2 ^ 39 % 512 := by
  rw [← BitVec.toNat_inj, index4, index4, index_toNat, index_toNat]

theorem index3_eq_iff {v w : Word} :
    index3 v = index3 w ↔ v.toNat / 2 ^ 30 % 512 = w.toNat / 2 ^ 30 % 512 := by
  rw [← BitVec.toNat_inj, index3, index3, index_toNat, index_toNat]

theorem index2_eq_iff {v w : Word} :
    index2 v = index2 w ↔ v.toNat / 2 ^ 21 % 512 = w.toNat / 2 ^ 21 % 512 := by
  rw [← BitVec.toNat_inj, index2, index2, index_toNat, index_toNat]

theorem index1_eq_iff {v w : Word} :
    index1 v = index1 w ↔ v.toNat / 2 ^ 12 % 512 = w.toNat / 2 ^ 12 % 512 := by
  rw [← BitVec.toNat_inj, index1, index1, index_toNat, index_toNat]

theorem path_succ_eq_iff {depth : Nat} {v w : Word} :
    path (depth + 1) v = path (depth + 1) w ↔
      indexAt depth v = indexAt depth w ∧ path depth v = path depth w := by
  rw [path, path, List.cons.injEq]

theorem path_one_eq_iff {v w : Word} :
    path 1 v = path 1 w ↔ v.toNat / 2 ^ 39 % 2 ^ 9 = w.toNat / 2 ^ 39 % 2 ^ 9 := by
  rw [path_succ_eq_iff]
  exact (and_iff_left rfl).trans index4_eq_iff

theorem path_two_eq_iff {v w : Word} :
    path 2 v = path 2 w ↔ v.toNat / 2 ^ 30 % 2 ^ 18 = w.toNat / 2 ^ 30 % 2 ^ 18 := by
  rw [path_succ_eq_iff, path_one_eq_iff]
  show index3 v = index3 w ∧ _ ↔ _
  rw [index3_eq_iff]
  omega

/-- A path of length 3 is a 2 MiB region. -/
theorem path_three_eq_iff {v w : Word} :
    path 3 v = path 3 w ↔ regionNumber v = regionNumber w := by
  rw [path_succ_eq_iff, path_two_eq_iff]
  show index2 v = index2 w ∧ _ ↔ _
  rw [index2_eq_iff]
  unfold regionNumber
  omega

/-- A path of length 4 is a 4 KiB page. -/
theorem path_four_eq_iff {v w : Word} :
    path 4 v = path 4 w ↔ pageNumber v = pageNumber w := by
  rw [path_succ_eq_iff, path_three_eq_iff]
  show index1 v = index1 w ∧ _ ↔ _
  rw [index1_eq_iff]
  unfold regionNumber pageNumber
  omega

/-- Pages of different regions are different pages. -/
theorem path_three_eq_of_path_four_eq {v w : Word} (h : path 4 v = path 4 w) :
    path 3 v = path 3 w :=
  (List.cons.inj h).2

theorem path_two_eq_of_path_three_eq {v w : Word} (h : path 3 v = path 3 w) :
    path 2 v = path 2 w :=
  (List.cons.inj h).2

theorem path_one_eq_of_path_two_eq {v w : Word} (h : path 2 v = path 2 w) :
    path 1 v = path 1 w :=
  (List.cons.inj h).2

theorem path_ne_of_length_ne {d e : Nat} {v w : Word} (h : d ≠ e) : path d v ≠ path e w :=
  fun heq => h (by simpa using congrArg List.length heq)

/-! ## The tree of a machine -/

namespace Machine

/-- The table at the end of a path. -/
abbrev tableAt (s : Machine) (root : Word) (p : List Index) : Option Word :=
  PointerTree.node entryTable s.mem root p

/-- The entry at the end of a path. -/
abbrev entryAt (s : Machine) (root : Word) (p : List Index) : Option Word :=
  PointerTree.slot entryTable s.mem root p

/-- The address field of the leaf at the end of a path. -/
abbrev leafAt (s : Machine) (root : Word) (p : List Index) : Option Word :=
  PointerTree.leafAt entryTable entryLeaf s.mem root p

/-- A table hangs in a slot that is no leaf. -/
theorem leafAt_of_tableAt {s : Machine} {root : Word} {i : Index} {p : List Index} {a : Word}
    (h : s.tableAt root (i :: p) = some a) : s.leafAt root (i :: p) = none := by
  obtain ⟨b, hb, hnext⟩ := PointerTree.node_cons_eq_some h
  rw [leafAt, PointerTree.leafAt_cons entryLeaf hb]
  exact entryLeaf_of_entryTable hnext

/-- A 2 MiB leaf hides the page's own slot. -/
theorem tableAt_of_leafAt {s : Machine} {root : Word} {i : Index} {p : List Index} {b : Word}
    (h : s.leafAt root (i :: p) = some b) : s.tableAt root (i :: p) = none := by
  cases ht : s.tableAt root (i :: p) with
  | none => rfl
  | some a =>
      rw [leafAt_of_tableAt ht] at h
      cases h

/-- A leaf hangs in a table. -/
theorem tableAt_isSome_of_leafAt {s : Machine} {root : Word} {i : Index} {p : List Index} {b : Word}
    (h : s.leafAt root (i :: p) = some b) : s.tableAt root p ≠ none := by
  obtain ⟨a, ha, _⟩ := PointerTree.leafAt_node_isSome h
  exact ne_of_eq_of_ne ha (Option.some_ne_none a)

theorem tableAt_isSome_of_cons {s : Machine} {root : Word} {i : Index} {p : List Index}
    (h : s.tableAt root (i :: p) ≠ none) : s.tableAt root p ≠ none := by
  rw [← Option.isSome_iff_ne_none] at h ⊢
  exact PointerTree.node_tail_isSome h

/-! ## One level of the walk -/

section Level

variable {s : Machine} {root v a : Word} {d : Nat} (ha : s.tableAt root (path d v) = some a)

include ha

theorem entryAt_path : s.entryAt root (path (d + 1) v) = some (s.mem a (indexAt d v)) :=
  PointerTree.slot_cons ha

theorem tableAt_path : s.tableAt root (path (d + 1) v) = entryTable d (s.mem a (indexAt d v)) := by
  have h := PointerTree.node_cons (i := indexAt d v) ha
  rw [path_length] at h
  exact h

theorem leafAt_path : s.leafAt root (path (d + 1) v) = entryLeaf d (s.mem a (indexAt d v)) := by
  have h := PointerTree.leafAt_cons entryLeaf (i := indexAt d v) ha
  rw [path_length] at h
  exact h

end Level

/-- Below a table that is missing there are no tables. -/
theorem tableAt_path_of_le {s : Machine} {root v : Word} {d e : Nat} (hde : d ≤ e)
    (h : s.tableAt root (path d v) = none) : s.tableAt root (path e v) = none := by
  induction e, hde using Nat.le_induction with
  | base => exact h
  | succ e _ ih =>
      by_contra hsome
      exact tableAt_isSome_of_cons hsome ih

/-- Nor are there leaves. -/
theorem leafAt_path_of_le {s : Machine} {root v : Word} {d e : Nat} (hde : d ≤ e)
    (h : s.tableAt root (path d v) = none) : s.leafAt root (path (e + 1) v) = none := by
  by_contra hsome
  obtain ⟨b, hb⟩ := Option.ne_none_iff_exists'.mp hsome
  exact tableAt_isSome_of_leafAt hb (tableAt_path_of_le hde h)

/-! ## The translation -/

/-- Frame of `v`'s page inside the 2 MiB page with address field `b`. -/
def largeFrame (b v : Word) : Word :=
  (b &&& ~~~(largePageSize - 1#64)) + (v &&& 0x1FF000#64)

/-- The frame that holds `v`'s page. -/
def pageFrame (s : Machine) (root v : Word) : Option Word :=
  match s.leafAt root (path 3 v) with
  | some b => some (largeFrame b v)
  | none => s.leafAt root (path 4 v)

theorem largeFrame_toNat (b v : Word) :
    (largeFrame b v).toNat = b.toNat / 2 ^ 21 * 2 ^ 21 + v.toNat / 4096 % 512 * 4096 := by
  unfold largeFrame
  have h1 := and_not_largeOffset_toNat b
  have h2 := and_pageInRegion_toNat v
  have := b.isLt
  rw [toNat_add_of_lt (by omega), h1, h2]

theorem largeTarget_eq (e v : Word) :
    largeTarget e v = largeFrame (e &&& physAddrMask) v + (v &&& 0xFFF#64) := by
  apply BitVec.eq_of_toNat_eq
  have h1 := largeFrame_toNat (e &&& physAddrMask) v
  have h2 := and_pageOffset_toNat v
  have h3 := and_not_largeOffset_toNat (e &&& physAddrMask)
  have h4 := and_largeOffset_toNat v
  have := (e &&& physAddrMask).isLt
  unfold largeTarget
  rw [toNat_add_of_lt (by omega), toNat_add_of_lt (by omega), h1, h2, h3, h4]
  omega

theorem pageFrame_congr {s : Machine} {root v w : Word} (h : path 4 v = path 4 w) :
    s.pageFrame root v = s.pageFrame root w := by
  have hlow : v.toNat / 4096 % 512 = w.toNat / 4096 % 512 := by
    have := path_four_eq_iff.mp h
    unfold pageNumber at this
    omega
  unfold pageFrame
  rw [path_three_eq_of_path_four_eq h, h]
  cases s.leafAt root (path 3 w) with
  | none => rfl
  | some b =>
      refine congrArg some (BitVec.eq_of_toNat_eq ?_)
      rw [largeFrame_toNat, largeFrame_toNat, hlow]

theorem pageFrame_of_large {s : Machine} {root v b : Word} (h : s.leafAt root (path 3 v) = some b) :
    s.pageFrame root v = some (largeFrame b v) := by
  unfold pageFrame
  rw [h]

theorem pageFrame_of_small {s : Machine} {root v : Word} (h : s.leafAt root (path 3 v) = none) :
    s.pageFrame root v = s.leafAt root (path 4 v) := by
  unfold pageFrame
  rw [h]

/-- Nothing is mapped below a page directory that is missing. -/
theorem pageFrame_of_tableAt {s : Machine} {root v : Word} {d : Nat} (hd : d ≤ 2)
    (h : s.tableAt root (path d v) = none) : s.pageFrame root v = none := by
  rw [pageFrame_of_small (leafAt_path_of_le hd h)]
  exact leafAt_path_of_le (Nat.le_succ_of_le hd) h

end Machine

/-- The processor's translation of an address is its page's frame and the offset
    in the page. -/
theorem translate_eq (s : Machine) (root v : Word) :
    translate s.mem root v = (s.pageFrame root v).map (· + (v &&& 0xFFF#64)) := by
  have hroot : s.tableAt root (path 0 v) = some root := rfl
  unfold translate walk
  simp only []
  -- the PML4 entry
  by_cases h4 : s.mem root (index4 v) &&& presentBit = 0
  · have hno := (Machine.tableAt_path hroot).trans (entryTable_of_absent h4)
    rw [if_pos h4, Machine.pageFrame_of_tableAt (by decide) hno]
    rfl
  rw [if_neg h4]
  have h1 : s.tableAt root (path 1 v) = some (s.mem root (index4 v) &&& physAddrMask) :=
    (Machine.tableAt_path hroot).trans (if_pos ⟨h4, .inl Nat.two_pos⟩)
  generalize s.mem root (index4 v) &&& physAddrMask = pdp at h1 ⊢
  -- the PDP entry
  by_cases h3 : s.mem pdp (index3 v) &&& presentBit = 0
  · have hno := (Machine.tableAt_path h1).trans (entryTable_of_absent h3)
    rw [if_pos h3, Machine.pageFrame_of_tableAt (by decide) hno]
    rfl
  rw [if_neg h3]
  have h2 : s.tableAt root (path 2 v) = some (s.mem pdp (index3 v) &&& physAddrMask) :=
    (Machine.tableAt_path h1).trans (if_pos ⟨h3, .inl (by decide)⟩)
  generalize s.mem pdp (index3 v) &&& physAddrMask = pd at h2 ⊢
  -- the PD entry
  have hleaf3 : s.leafAt root (path 3 v) = entryLeaf 2 (s.mem pd (index2 v)) :=
    Machine.leafAt_path h2
  have htable3 : s.tableAt root (path 3 v) = entryTable 2 (s.mem pd (index2 v)) :=
    Machine.tableAt_path h2
  by_cases hp : s.mem pd (index2 v) &&& presentBit = 0
  · have hleaf4 := Machine.leafAt_path_of_le (Nat.le_refl 3) (htable3.trans (entryTable_of_absent hp))
    rw [if_pos hp, Machine.pageFrame_of_small (hleaf3.trans (entryLeaf_of_absent hp)), hleaf4]
    rfl
  rw [if_neg hp]
  by_cases hps : s.mem pd (index2 v) &&& pageSizeBit = 0
  · -- a page table
    have h3' : s.tableAt root (path 3 v) = some (s.mem pd (index2 v) &&& physAddrMask) :=
      htable3.trans (if_pos ⟨hp, .inr ⟨rfl, hps⟩⟩)
    have hnone3 := Machine.leafAt_of_tableAt h3'
    have hleaf4 : s.leafAt root (path 4 v)
        = entryLeaf 3 (s.mem (s.mem pd (index2 v) &&& physAddrMask) (index1 v)) :=
      Machine.leafAt_path h3'
    rw [if_neg (not_not_intro hps), Machine.pageFrame_of_small hnone3, hleaf4]
    by_cases h1p : s.mem (s.mem pd (index2 v) &&& physAddrMask) (index1 v) &&& presentBit = 0
    · rw [if_pos h1p, entryLeaf_of_absent h1p]
      rfl
    · rw [if_neg h1p, entryLeaf, if_pos ⟨h1p, .inr rfl⟩]
      rfl
  · -- a 2 MiB page
    rw [if_pos hps, Machine.pageFrame_of_large (hleaf3.trans (if_pos ⟨hp, .inl ⟨rfl, hps⟩⟩))]
    show some (largeTarget _ v) = _
    rw [Machine.largeTarget_eq]
    rfl

end EchOS
