/-
  EchOS.Basic

  Machine words, page arithmetic and the ways a run can stop without a result.
-/
import Mathlib.Tactic.Ring
import Mathlib.Data.Nat.Notation

namespace EchOS

/-- `uint64_t`, and every pointer. -/
abbrev Word := BitVec 64

/-- `uint8_t` and `char`. -/
abbrev Byte := BitVec 8

/-- Why a run of the model has no result: the C code would dereference a NULL
    bitmap, index a bitmap outside its words, or still be looping when the
    model's step bound is used up. -/
inductive Abort where
  | nullMap
  | mapBounds
  | outOfFuel
  deriving Repr, DecidableEq

/-- `0xFFFFFFFFFFFFFFFF`, what the frame allocators return when they fail. -/
def noFrame : Word := 0xFFFFFFFFFFFFFFFF#64

/-- `frame_size`, and `page_size` of `paging.h`. -/
def frameSize : Word := 4096#64

/-- `(x & ~0xFFF)`: an address rounded down to its page. -/
def pageBase (a : Word) : Word := a &&& ~~~0xFFF#64

/-- The first `n` bytes from `a` end at or before `top`, without wrapping. -/
def EndsBy (a n : Word) (top : Nat) : Prop := a.toNat + n.toNat ≤ top

/-! ## Words as numbers -/

@[simp] theorem frameSize_toNat : frameSize.toNat = 4096 := rfl

theorem pageBase_toNat (a : Word) : (pageBase a).toNat = a.toNat / 4096 * 4096 := by
  have h : pageBase a = (a >>> 12) <<< 12 := by
    apply BitVec.eq_of_getLsbD_eq
    intro i hi
    unfold pageBase
    rw [show (0xFFF#64 : Word) = BitVec.setWidth 64 (BitVec.allOnes 12) from rfl]
    simp only [BitVec.getLsbD_and, BitVec.getLsbD_not, BitVec.getLsbD_setWidth,
      BitVec.getLsbD_allOnes, BitVec.getLsbD_shiftLeft, BitVec.getLsbD_ushiftRight]
    by_cases hlt : i < 12
    · simp [hlt, hi]
    · have : 12 + (i - 12) = i := by omega
      simp [hlt, hi, this]
  rw [h, BitVec.toNat_shiftLeft, BitVec.toNat_ushiftRight, Nat.shiftLeft_eq,
    Nat.shiftRight_eq_div_pow]
  have := a.isLt
  omega

/-- A multiple of the page size is its own page. -/
theorem pageBase_of_aligned {a : Word} (h : 4096 ∣ a.toNat) : pageBase a = a := by
  apply BitVec.eq_of_toNat_eq
  rw [pageBase_toNat]
  omega

theorem pageBase_aligned (a : Word) : 4096 ∣ (pageBase a).toNat := by
  rw [pageBase_toNat]
  exact Dvd.intro_left _ rfl

theorem toNat_add_of_lt {a b : Word} (h : a.toNat + b.toNat < 2 ^ 64) :
    (a + b).toNat = a.toNat + b.toNat := by
  rw [BitVec.toNat_add, Nat.mod_eq_of_lt h]

theorem toNat_mul_of_lt {a b : Word} (h : a.toNat * b.toNat < 2 ^ 64) :
    (a * b).toNat = a.toNat * b.toNat := by
  rw [BitVec.toNat_mul, Nat.mod_eq_of_lt h]

theorem toNat_ofNat_of_lt {n : Nat} (h : n < 2 ^ 64) : (BitVec.ofNat 64 n).toNat = n := by
  rw [BitVec.toNat_ofNat, Nat.mod_eq_of_lt h]

/-! ## Steps that can fail -/

theorem except_bind_ok {ε α β : Type} {x : Except ε α} {f : α → Except ε β} {b : β}
    (h : x >>= f = .ok b) : ∃ a, x = .ok a ∧ f a = .ok b := by
  cases x with
  | error e => cases h
  | ok a => exact ⟨a, rfl, h⟩

theorem except_ok_ne_error {ε α : Type} {a : α} {e : ε} : (Except.ok a : Except ε α) ≠ .error e := by
  intro h
  cases h

theorem except_bind_ne_error {ε α β : Type} {x : Except ε α} {f : α → Except ε β} {e : ε}
    (hx : x ≠ .error e) (hf : ∀ a, x = .ok a → f a ≠ .error e) : x >>= f ≠ .error e := by
  cases x with
  | error e' => exact fun h => hx (by cases h; rfl)
  | ok a => exact hf a rfl

end EchOS
