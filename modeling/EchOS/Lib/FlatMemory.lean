/-
  EchOS.Lib.FlatMemory

  A memory with a byte at every address of `w` bits, and values of `m` bits in it,
  little-endian.

  A `span` is a stretch of addresses, which may run over the end of the address
  space.  A store changes its own span and a load depends on its own span, so a
  load sees the last store to its address and none to a disjoint span.
-/
import Mathlib.Algebra.GroupWithZero.Nat
import Mathlib.Data.Set.Function
import Mathlib.Data.Set.Lattice
import Mathlib.Order.CompletePartialOrder

namespace FlatMemory

variable {w m k : Nat}

abbrev Memory (w : Nat) := BitVec w → BitVec 8

/-- How far `x` lies behind `a`. -/
def offset (a x : BitVec w) : Nat := (x - a).toNat

/-- The first `n` addresses from `a` on. -/
def span (a : BitVec w) (n : Nat) : Set (BitVec w) := {x | offset a x < n}

/-- Byte `j` of a value, the lowest first. -/
def byteOf (v : BitVec m) (j : Nat) : BitVec 8 := v.extractLsb' (8 * j) 8

/-- The value of `m` bits at `a`. -/
def load (m : Nat) (mem : Memory w) (a : BitVec w) : BitVec m :=
  (BitVec.iunfoldr (fun i _ => ((), (mem (a + BitVec.ofNat w (i / 8))).getLsbD (i % 8))) ()).2

/-- The memory with `v` at `a`. -/
def store (mem : Memory w) (a : BitVec w) (v : BitVec m) : Memory w :=
  fun x => if offset a x < m / 8 then byteOf v (offset a x) else mem x

/-- The memory with `n` times the byte `b` from `a` on. -/
def fill (mem : Memory w) (a : BitVec w) (n : Nat) (b : BitVec 8) : Memory w :=
  fun x => if offset a x < n then b else mem x

/-! ## Spans -/

theorem offset_add {a : BitVec w} {j : Nat} (hj : j < 2 ^ w) : offset a (a + BitVec.ofNat w j) = j := by
  rw [offset, BitVec.add_comm, BitVec.add_sub_cancel, BitVec.toNat_ofNat, Nat.mod_eq_of_lt hj]

theorem add_offset (a x : BitVec w) : a + BitVec.ofNat w (offset a x) = x := by
  rw [offset, BitVec.ofNat_toNat, BitVec.setWidth_eq, BitVec.add_comm, BitVec.sub_add_cancel]

theorem mem_span {a x : BitVec w} {n : Nat} : x ∈ span a n ↔ offset a x < n := Iff.rfl

theorem add_mem_span {a : BitVec w} {j n : Nat} (hj : j < n) (hn : n ≤ 2 ^ w) :
    a + BitVec.ofNat w j ∈ span a n := by
  rw [mem_span, offset_add (Nat.lt_of_lt_of_le hj hn)]
  exact hj

/-- A span that does not run over the end of the address space. -/
theorem mem_span_iff {a x : BitVec w} {n : Nat} (h : a.toNat + n ≤ 2 ^ w) :
    x ∈ span a n ↔ a.toNat ≤ x.toNat ∧ x.toNat < a.toNat + n := by
  have ha := a.isLt
  have hx := x.isLt
  rw [mem_span, offset, BitVec.toNat_sub]
  by_cases hle : a.toNat ≤ x.toNat
  · have hmod : 2 ^ w - a.toNat + x.toNat = x.toNat - a.toNat + 2 ^ w := by omega
    rw [hmod, Nat.add_mod_right, Nat.mod_eq_of_lt (by omega)]
    omega
  · rw [Nat.mod_eq_of_lt (by omega)]
    omega

theorem span_disjoint {a b : BitVec w} {n l : Nat} (ha : a.toNat + n ≤ 2 ^ w)
    (hb : b.toNat + l ≤ 2 ^ w) (h : a.toNat + n ≤ b.toNat ∨ b.toNat + l ≤ a.toNat) :
    Disjoint (span a n) (span b l) := by
  rw [Set.disjoint_left]
  intro x hxa hxb
  rw [mem_span_iff ha] at hxa
  rw [mem_span_iff hb] at hxb
  omega

theorem span_subset {a b : BitVec w} {n l : Nat} (ha : a.toNat + n ≤ 2 ^ w)
    (h : a.toNat ≤ b.toNat ∧ b.toNat + l ≤ a.toNat + n) : span b l ⊆ span a n := by
  intro x hx
  rw [mem_span_iff (Nat.le_trans h.2 ha)] at hx
  rw [mem_span_iff ha]
  omega

/-- A part of a span, wherever the span lies. -/
theorem span_add_subset {a : BitVec w} {j l n : Nat} (hn : n ≤ 2 ^ w) (h : j + l ≤ n) :
    span (a + BitVec.ofNat w j) l ⊆ span a n := by
  intro x hx
  rw [mem_span] at hx
  rw [← add_offset (a + BitVec.ofNat w j) x, BitVec.add_assoc, ← BitVec.ofNat_add]
  exact add_mem_span (by omega) hn

/-- Two parts of a span, the one behind the other. -/
theorem span_add_disjoint {a : BitVec w} {i j l k : Nat} (h : i + l ≤ j) (hk : j + k ≤ 2 ^ w) :
    Disjoint (span (a + BitVec.ofNat w i) l) (span (a + BitVec.ofNat w j) k) := by
  rw [Set.disjoint_left]
  intro x hi hj
  have hlow : x ∈ span a j := span_add_subset (by omega) h hi
  rw [mem_span] at hj hlow
  rw [← add_offset (a + BitVec.ofNat w j) x, BitVec.add_assoc, ← BitVec.ofNat_add,
    offset_add (by omega)] at hlow
  omega

/-! ## Loads -/

theorem getLsbD_byteOf (v : BitVec m) (j i : Nat) :
    (byteOf v j).getLsbD i = (decide (i < 8) && v.getLsbD (8 * j + i)) :=
  BitVec.getLsbD_extractLsb' _ _ _ _

theorem getLsbD_load (mem : Memory w) (a : BitVec w) {i : Nat} (hi : i < m) :
    (load m mem a).getLsbD i = (mem (a + BitVec.ofNat w (i / 8))).getLsbD (i % 8) :=
  BitVec.iunfoldr_getLsbD (fun _ => ()) ⟨i, hi⟩ fun _ => rfl

/-- A byte of a value is the byte of the memory. -/
theorem byteOf_load (mem : Memory w) (a : BitVec w) {j : Nat} (hj : 8 * j + 8 ≤ m) :
    byteOf (load m mem a) j = mem (a + BitVec.ofNat w j) := by
  apply BitVec.eq_of_getLsbD_eq
  intro i hi
  have hdiv : (8 * j + i) / 8 = j := by omega
  have hmod : (8 * j + i) % 8 = i := by omega
  rw [getLsbD_byteOf, decide_eq_true hi, Bool.true_and, getLsbD_load mem a (by omega), hdiv, hmod]

/-- A load depends on its own span. -/
theorem load_congr {mem mem' : Memory w} {a : BitVec w} (hm : 8 ∣ m) (hw : m / 8 ≤ 2 ^ w)
    (h : Set.EqOn mem mem' (span a (m / 8))) : load m mem a = load m mem' a := by
  apply BitVec.eq_of_getLsbD_eq
  intro i hi
  have hj : i / 8 < m / 8 := by omega
  rw [getLsbD_load mem a hi, getLsbD_load mem' a hi, h (add_mem_span hj hw)]

/-- Memories with the same value at an address agree on its span. -/
theorem eqOn_of_load_eq {mem mem' : Memory w} {a : BitVec w}
    (h : load m mem a = load m mem' a) : Set.EqOn mem mem' (span a (m / 8)) := by
  intro x hx
  rw [mem_span] at hx
  have hj : 8 * offset a x + 8 ≤ m := by omega
  have hbyte := byteOf_load mem a hj
  rw [h, byteOf_load mem' a hj, add_offset] at hbyte
  exact hbyte.symm

/-! ## Stores -/

section Store

variable (mem : Memory w) (a : BitVec w) (v : BitVec m)

/-- A store changes nothing outside its span. -/
theorem store_eqOn : Set.EqOn (store mem a v) mem (span a (m / 8))ᶜ :=
  fun _ hx => if_neg hx

theorem load_store_same (hm : 8 ∣ m) (hw : m / 8 ≤ 2 ^ w) : load m (store mem a v) a = v := by
  apply BitVec.eq_of_getLsbD_eq
  intro i hi
  have hj : i / 8 < m / 8 := by omega
  have hsplit : 8 * (i / 8) + i % 8 = i := by omega
  rw [getLsbD_load _ a hi, store, offset_add (Nat.lt_of_lt_of_le hj hw), if_pos hj, getLsbD_byteOf,
    decide_eq_true (Nat.mod_lt i (by decide)), Bool.true_and, hsplit]

theorem load_store_of_disjoint {b : BitVec w} (hk : 8 ∣ k) (hw : k / 8 ≤ 2 ^ w)
    (h : Disjoint (span a (m / 8)) (span b (k / 8))) :
    load k (store mem a v) b = load k mem b :=
  load_congr hk hw ((store_eqOn mem a v).mono (Set.disjoint_right.mp h))

/-- A store is made byte by byte. -/
theorem store_induct {P : Memory w → Prop} (hw : m / 8 ≤ 2 ^ w) (start : P mem)
    (step : ∀ mem' x b, x ∈ span a (m / 8) → P mem' → P (Function.update mem' x b)) :
    P (store mem a v) := by
  -- the memory after the first `j` bytes
  have hpart : ∀ j, j ≤ m / 8 →
      P fun x => if offset a x < j then byteOf v (offset a x) else mem x := by
    intro j hj
    induction j with
    | zero => exact start
    | succ j ih =>
        have hlt : j < 2 ^ w := by omega
        have hbyte := step _ (a + BitVec.ofNat w j) (byteOf v j) (add_mem_span hj hw) (ih (by omega))
        refine cast (congrArg P (funext fun x => ?_)) hbyte
        rw [Function.update_apply]
        by_cases hx : x = a + BitVec.ofNat w j
        · rw [if_pos hx, hx, offset_add hlt, if_pos (Nat.lt_succ_self j)]
        · have hne : offset a x ≠ j := fun h => hx (h ▸ (add_offset a x).symm)
          rw [if_neg hx]
          exact if_congr (by omega) rfl rfl
  exact hpart _ (Nat.le_refl _)

end Store

section Fill

variable (mem : Memory w) (a : BitVec w) (n : Nat) (b : BitVec 8)

theorem fill_eqOn : Set.EqOn (fill mem a n b) mem (span a n)ᶜ := fun _ hx => if_neg hx

theorem fill_of_mem {x : BitVec w} (hx : x ∈ span a n) : fill mem a n b x = b := if_pos hx

theorem load_fill_of_disjoint {c : BitVec w} (hk : 8 ∣ k) (hw : k / 8 ≤ 2 ^ w)
    (h : Disjoint (span a n) (span c (k / 8))) : load k (fill mem a n b) c = load k mem c :=
  load_congr hk hw ((fill_eqOn mem a n b).mono (Set.disjoint_right.mp h))

/-- Every value in a stretch of zeros is 0. -/
theorem load_fill_zero {c : BitVec w} (hk : 8 ∣ k) (hw : k / 8 ≤ 2 ^ w)
    (h : span c (k / 8) ⊆ span a n) : load k (fill mem a n 0#8) c = 0#k := by
  apply BitVec.eq_of_getLsbD_eq
  intro i hi
  have hj : i / 8 < k / 8 := by omega
  rw [getLsbD_load _ c hi, fill_of_mem mem a n 0#8 (h (add_mem_span hj hw)), BitVec.getLsbD_zero,
    BitVec.getLsbD_zero]

end Fill

end FlatMemory
