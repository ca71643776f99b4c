/-
  EchOS.Kernel.GdtTable

  The GDT that `gdt_entry_add` fills, one entry after the other, in the two frames
  that `kernel_start` allocates: one for the descriptor, one for the entries.
-/
import EchOS.Kernel.Gdt
import EchOS.Kernel.Memory.FlatPaging

namespace EchOS

open FlatMemory

/-! ## Places in the two frames -/

/-- An entry of the GDT has the place of an entry of a page table. -/
theorem gdtSlot_eq (base : Word) {i : Nat} (hi : i < 512) :
    gdtSlot base i = slotAddress base (BitVec.ofNat 9 i) := by
  unfold gdtSlot slotAddress
  rw [BitVec.toNat_ofNat, Nat.mod_eq_of_lt hi]

theorem gdtSlot_subset {base : Word} (hbase : 4096 ∣ base.toNat) {i : Nat} (hi : i < 512) :
    span (gdtSlot base i) (64 / 8) ⊆ span base 4096 := by
  rw [gdtSlot_eq base hi]
  exact slot_subset hbase _

theorem gdtSlot_disjoint {base : Word} (hbase : 4096 ∣ base.toNat) {i j : Nat} (hi : i < 512)
    (hj : j < 512) (hne : i ≠ j) :
    Disjoint (span (gdtSlot base i) (64 / 8)) (span (gdtSlot base j) (64 / 8)) := by
  rw [gdtSlot_eq base hi, gdtSlot_eq base hj]
  refine slot_disjoint hbase hbase fun h => hne ?_
  have hindex := congrArg BitVec.toNat h.2
  rw [BitVec.toNat_ofNat, BitVec.toNat_ofNat] at hindex
  omega

theorem limit_subset {gdt : Word} (hgdt : 4096 ∣ gdt.toNat) : span gdt (16 / 8) ⊆ span gdt 4096 := by
  have hlt := gdt.isLt
  exact span_subset (by omega) (by omega)

theorem base_subset {gdt : Word} (hgdt : 4096 ∣ gdt.toNat) :
    span (gdt + 2#64) (64 / 8) ⊆ span gdt 4096 := by
  have hlt := gdt.isLt
  have htwo : (gdt + 2#64).toNat = gdt.toNat + 2 := toNat_add_of_lt (b := 2#64) (by simp; omega)
  exact span_subset (by omega) (by omega)

/-- The limit ends where the base begins. -/
theorem limit_base_disjoint {gdt : Word} (hgdt : 4096 ∣ gdt.toNat) :
    Disjoint (span (gdt + 2#64) (64 / 8)) (span gdt (16 / 8)) := by
  have hlt := gdt.isLt
  have htwo : (gdt + 2#64).toNat = gdt.toNat + 2 := toNat_add_of_lt (b := 2#64) (by simp; omega)
  exact span_disjoint (by omega) (by omega) (by omega)

/-! ## The table -/

/-- The descriptor at `gdt` has the limit `limit` and the base `base`, and from the base on
    lie `entries`. -/
structure GdtIn (mem : Memory 64) (gdt : Word) (limit : BitVec 16) (base : Word)
    (entries : List Word) : Prop where
  limit_eq : gdtLimit mem gdt = limit
  base_eq : gdtBase mem gdt = base
  entry_eq : ∀ i e, entries[i]? = some e → load 64 mem (gdtSlot base i) = e

namespace GdtIn

variable {mem mem' : Memory 64} {gdt base : Word} {limit : BitVec 16} {entries : List Word}
  (hgdt : 4096 ∣ gdt.toNat) (hbase : 4096 ∣ base.toNat)

include hgdt

/-- The descriptor is filled in: first the limit, then the base. -/
theorem descriptor (mem : Memory 64) (limit : BitVec 16) (base : Word) :
    GdtIn (setGdtBase (setGdtLimit mem gdt limit) gdt base) gdt limit base [] where
  limit_eq := by
    have hkept : load 16 (setGdtBase (setGdtLimit mem gdt limit) gdt base) gdt
        = load 16 (setGdtLimit mem gdt limit) gdt :=
      load_store_of_disjoint _ _ _ (by decide) (by decide) (limit_base_disjoint hgdt)
    exact hkept.trans (load_store_same _ _ _ (by decide) (by decide))
  base_eq := load_store_same _ _ _ (by decide) (by decide)
  entry_eq i e h := by cases h

include hbase

/-- `gdt_entry_add` at the end of the table. -/
theorem add (hne : base ≠ gdt) (h : GdtIn mem gdt limit base entries) {index : Byte}
    (hindex : index.toNat = entries.length) (entry : Word) :
    GdtIn (gdtEntryAdd mem gdt index entry) gdt limit base (entries ++ [entry]) := by
  have hlt := index.isLt
  have hinside := gdtSlot_subset hbase (i := index.toNat) (by omega)
  have hframes := (frame_disjoint hbase hgdt (Ne.symm hne)).mono_left hinside
  unfold gdtEntryAdd
  rw [h.base_eq]
  refine ⟨?_, ?_, fun i e he => ?_⟩
  · rw [← h.limit_eq]
    exact load_store_of_disjoint _ _ _ (by decide) (by decide) (hframes.mono_right (limit_subset hgdt))
  · refine Eq.trans ?_ h.base_eq
    exact load_store_of_disjoint _ _ _ (by decide) (by decide) (hframes.mono_right (base_subset hgdt))
  · by_cases hi : i = index.toNat
    · -- the new entry
      rw [hi, hindex, List.getElem?_concat_length] at he
      cases he
      rw [hi]
      exact load_store_same _ _ _ (by decide) (by decide)
    · have hlen : i < entries.length := by
        have hbound := (List.getElem?_eq_some_iff.mp he).1
        rw [List.length_append, List.length_singleton] at hbound
        omega
      rw [List.getElem?_append_left hlen] at he
      rw [← h.entry_eq i e he]
      exact load_store_of_disjoint _ _ _ (by decide) (by decide)
        (gdtSlot_disjoint hbase (by omega) (by omega) (Ne.symm hi))

/-- The table depends on the bytes of the two frames only. -/
theorem congr (hlen : entries.length ≤ 512) (h : GdtIn mem gdt limit base entries)
    (hdesc : Set.EqOn mem' mem (span gdt 4096)) (hentries : Set.EqOn mem' mem (span base 4096)) :
    GdtIn mem' gdt limit base entries where
  limit_eq := by
    rw [← h.limit_eq]
    exact load_congr (by decide) (by decide) (hdesc.mono (limit_subset hgdt))
  base_eq := by
    refine Eq.trans ?_ h.base_eq
    exact load_congr (by decide) (by decide) (hdesc.mono (base_subset hgdt))
  entry_eq i e he := by
    have hi := (List.getElem?_eq_some_iff.mp he).1
    rw [← h.entry_eq i e he]
    exact load_congr (by decide) (by decide) (hentries.mono (gdtSlot_subset hbase (by omega)))

end GdtIn

end EchOS
