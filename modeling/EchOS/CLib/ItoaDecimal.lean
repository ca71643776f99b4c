/-
  EchOS.CLib.ItoaDecimal

  When the text of `itoa` is a decimal representation of its number.

  Reading a decimal text back gives the integer it was made of, so no two integers
  share one.  The text `itoa` leaves is the decimal text of every `int` but the most
  negative one, whose text has characters that are no digits; it still is the text
  of no other `int`.
-/
import EchOS.CLib.ItoaText

namespace EchOS

open CArray (overlay)

/-! ## Reading decimals -/

/-- The value of a decimal digit. -/
def digitValue (c : Byte) : Option Nat :=
  if 48 ≤ c.toNat ∧ c.toNat ≤ 57 then some (c.toNat - 48) else none

/-- One more digit at the end of a number. -/
def appendDigit (value : Nat) (c : Byte) : Option Nat := (digitValue c).map (10 * value + ·)

/-- The number that a text of digits stands for. -/
def readNat (text : List Byte) : Option Nat :=
  if text = [] then none else text.foldlM appendDigit 0

/-- The number that a text stands for, with a minus sign or without. -/
def readDecimal : List Byte → Option Int
  | [] => none
  | c :: text =>
      if c = ch '-' then (readNat text).map fun n => -(n : Int)
      else (readNat (c :: text)).map fun n => (n : Int)

/-- Decimal digits, the first of them 0 only if it is the only one. -/
structure IsNatText (text : List Byte) : Prop where
  ne_nil : text ≠ []
  digits : ∀ c ∈ text, (digitValue c).isSome
  leading : text.head? = some (ch '0') → text = [ch '0']

/-- The same after an optional minus sign. -/
def IsDecimalText (text : List Byte) : Prop :=
  IsNatText text ∨ ∃ digits, text = ch '-' :: digits ∧ IsNatText digits

/-! ## Decimal texts -/

theorem toNat_digitByte {d : Nat} (hd : d < 10) : (digitByte d).toNat = 48 + d := by
  rw [digitByte, BitVec.toNat_ofNat]
  omega

theorem digitValue_digitByte {d : Nat} (hd : d < 10) : digitValue (digitByte d) = some d := by
  rw [digitValue, toNat_digitByte hd, if_pos (by omega), Nat.add_sub_cancel_left]

theorem digitByte_ne_zero {d : Nat} (hd : d < 10) (hne : d ≠ 0) : digitByte d ≠ ch '0' := by
  intro heq
  have h := congrArg BitVec.toNat heq
  rw [toNat_digitByte hd, show (ch '0').toNat = 48 from rfl] at h
  omega

theorem isNatText_natText (n : Nat) : IsNatText (natText n) := by
  unfold natText
  split
  · exact ⟨by decide, by decide, fun _ => rfl⟩
  · next hne =>
      have hdigits := Nat.digits_ne_nil_iff_ne_zero (b := 10).mpr hne
      refine ⟨?_, ?_, ?_⟩
      · simpa using hdigits
      · intro c hc
        rw [List.mem_reverse, List.mem_map] at hc
        obtain ⟨d, hd, rfl⟩ := hc
        rw [digitValue_digitByte (Nat.digits_lt_base (by decide) hd)]
        rfl
      · -- the digit that comes first is the last one of `Nat.digits`
        intro hhead
        exfalso
        rw [List.head?_reverse, List.getLast?_map, List.getLast?_eq_getLast_of_ne_nil hdigits] at hhead
        have hlast := Nat.getLast_digit_ne_zero 10 hne
        have hlt : (Nat.digits 10 n).getLast hdigits < 10 :=
          Nat.digits_lt_base (by decide) (List.getLast_mem hdigits)
        exact digitByte_ne_zero hlt hlast (Option.some.inj hhead)

theorem isDecimalText_decimalText (z : Int) : IsDecimalText (decimalText z) := by
  unfold decimalText
  split
  · exact .inr ⟨_, rfl, isNatText_natText _⟩
  · exact .inl (isNatText_natText _)

/-- The digits of a number, the last one first, are read back from their end. -/
theorem foldrM_digits {digits : List Nat} (h : ∀ d ∈ digits, d < 10) :
    (digits.map digitByte).foldrM (fun c value => appendDigit value c) 0
      = some (Nat.ofDigits 10 digits) := by
  induction digits with
  | nil => rfl
  | cons d digits ih =>
      rw [List.map_cons, List.foldrM_cons, ih fun d hd => h d (List.mem_cons_of_mem _ hd)]
      show appendDigit (Nat.ofDigits 10 digits) (digitByte d) = _
      rw [appendDigit, digitValue_digitByte (h d List.mem_cons_self), Nat.ofDigits_cons]
      exact congrArg some (Nat.add_comm _ _)

theorem readNat_natText (n : Nat) : readNat (natText n) = some n := by
  rw [readNat, if_neg (isNatText_natText n).ne_nil, natText]
  split
  · next hzero => rw [hzero]; rfl
  · have hfold := foldrM_digits fun d (hd : d ∈ Nat.digits 10 n) => Nat.digits_lt_base (by decide) hd
    rw [List.foldlM_reverse, hfold, Nat.ofDigits_digits]

theorem readDecimal_decimalText (z : Int) : readDecimal (decimalText z) = some z := by
  have hread := readNat_natText z.natAbs
  unfold decimalText
  split
  · next hneg =>
      rw [readDecimal, if_pos rfl, hread]
      show some (-(z.natAbs : Int)) = some z
      rw [Int.ofNat_natAbs_of_nonpos (Int.le_of_lt hneg), Int.neg_neg]
  · next hpos =>
      cases htext : natText z.natAbs with
      | nil => exact absurd htext (isNatText_natText _).ne_nil
      | cons c text =>
          -- a minus sign is no digit
          have hc : c ≠ ch '-' := by
            rintro rfl
            have hdigit := (isNatText_natText z.natAbs).digits (ch '-')
              (htext ▸ List.mem_cons_self)
            exact absurd hdigit (by decide)
          rw [htext] at hread
          rw [readDecimal, if_neg hc, hread]
          exact congrArg some (Int.natAbs_of_nonneg (Int.not_lt.mp hpos))

theorem decimalText_injective : Function.Injective decimalText := by
  intro z z' heq
  have h := congrArg readDecimal heq
  rw [readDecimal_decimalText, readDecimal_decimalText] at h
  exact Option.some.inj h

/-! ## The text of `itoa` -/

/-- The remainders of a negative number are no digits. -/
theorem not_isDecimalText_min : ¬ IsDecimalText (itoaText (BitVec.intMin 32)) := by
  have hno : (digitValue (ch '.')).isSome = false := by decide
  rintro (h | ⟨digits, heq, h⟩)
  · exact absurd (h.digits (ch '.') (by decide)) (by rw [hno]; exact Bool.false_ne_true)
  · have hmem : ch '.' ∈ digits := by
      have htail := congrArg List.tail heq
      rw [List.tail_cons] at htail
      rw [← htail]
      decide
    exact absurd (h.digits _ hmem) (by rw [hno]; exact Bool.false_ne_true)

theorem isDecimalText_itoaText_iff (num : BitVec 32) :
    IsDecimalText (itoaText num) ↔ num ≠ BitVec.intMin 32 := by
  constructor
  · rintro h rfl
    exact not_isDecimalText_min h
  · intro h
    rw [itoaText, if_neg h]
    exact isDecimalText_decimalText _

/-- No two numbers share a text, the most negative one included. -/
theorem itoaText_injective : Function.Injective itoaText := by
  intro num num' heq
  have hiff := isDecimalText_itoaText_iff num
  rw [heq, isDecimalText_itoaText_iff num'] at hiff
  -- only the most negative number has a text that is no decimal
  by_cases hmin : num = BitVec.intMin 32
  · by_contra hne
    exact hiff.mp (fun h => hne (hmin.trans h.symm)) hmin
  · have hmin' := hiff.mpr hmin
    rw [itoaText, itoaText, if_neg hmin, if_neg hmin'] at heq
    exact BitVec.eq_of_toInt_eq (decimalText_injective heq)

/-- `itoa` leaves a decimal text of the number and its NUL in `str`. -/
def LeavesDecimal (num : BitVec 32) (str : CString) : Prop :=
  ∃ text, itoa num str 10#32 = .ok (overlay str (text ++ [0#8])) ∧
    (text ++ [0#8]).length ≤ 12 ∧ IsDecimalText text ∧ readDecimal text = some num.toInt

/-- The string at the start of an array. -/
def stringOf (str : CString) : List Byte := str.takeWhile (· ≠ 0#8)

theorem stringOf_text {text : List Byte} (h : 0#8 ∉ text) (str : CString) :
    stringOf (overlay str (text ++ [0#8])) = text := by
  rw [stringOf, overlay, List.append_assoc, takeWhile_text h]
  simp

theorem IsNatText.nul_notMem {text : List Byte} (h : IsNatText text) : 0#8 ∉ text := fun hmem =>
  absurd (h.digits _ hmem) (by decide)

theorem IsDecimalText.nul_notMem {text : List Byte} (h : IsDecimalText text) : 0#8 ∉ text := by
  rcases h with h | ⟨digits, rfl, h⟩
  · exact h.nul_notMem
  · exact List.not_mem_cons_of_ne_of_not_mem (by decide) h.nul_notMem

theorem leavesDecimal_iff (num : BitVec 32) {str : CString} (hfits : 12 ≤ str.length) :
    LeavesDecimal num str ↔ num ≠ BitVec.intMin 32 := by
  rw [← isDecimalText_itoaText_iff]
  constructor
  · -- there is only one string at the start of the buffer
    rintro ⟨text, hrun, -, hdecimal, -⟩
    rw [itoa_text num hfits] at hrun
    have heq := congrArg stringOf (Except.ok.inj hrun)
    rw [stringOf_text (nul_notMem_itoaText num), stringOf_text hdecimal.nul_notMem] at heq
    rwa [heq]
  · intro hdecimal
    have hmin := (isDecimalText_itoaText_iff num).mp hdecimal
    have hlen := itoaText_length_le num
    refine ⟨itoaText num, itoa_text num hfits, ?_, hdecimal, ?_⟩
    · rw [List.length_append, List.length_singleton]
      omega
    · rw [itoaText, if_neg hmin, readDecimal_decimalText]

/-- The most negative `int` gets "-./,),(-*,(". -/
theorem itoa_min_not_decimal :
    (itoa (BitVec.intMin 32) (List.replicate 12 0#8) 10#32).map stringOf
      = .ok [ch '-', ch '.', ch '/', ch ',', ch ')', ch ',', ch '(', ch '-', ch '*', ch ',',
          ch '('] ∧
    ¬ LeavesDecimal (BitVec.intMin 32) (List.replicate 12 0#8) := by
  constructor
  · rw [itoa_text _ (by decide)]
    rfl
  · exact fun h => (leavesDecimal_iff _ (by decide)).mp h rfl

/-- **`itoa` in base 10.**  It leaves the number in decimal exactly if that is not the
    most negative `int`, and the string it leaves is that of no other number. -/
theorem itoa_decimal_iff (num : BitVec 32) {str : CString} (hfits : 12 ≤ str.length) :
    (LeavesDecimal num str ↔ num ≠ BitVec.intMin 32) ∧
    ∀ (num' : BitVec 32) (str' out out' : CString), 12 ≤ str'.length →
      itoa num str 10#32 = .ok out → itoa num' str' 10#32 = .ok out' →
      stringOf out = stringOf out' → num = num' := by
  constructor
  · exact leavesDecimal_iff num hfits
  · intro num' str' out out' hfits' hrun hrun' heq
    rw [itoa_text num hfits] at hrun
    rw [itoa_text num' hfits'] at hrun'
    cases hrun
    cases hrun'
    rw [stringOf_text (nul_notMem_itoaText num), stringOf_text (nul_notMem_itoaText num')] at heq
    exact itoaText_injective heq

/-- -120 in a buffer of 32 bytes. -/
theorem itoa_decimal_iff_negative : LeavesDecimal (-120#32) (List.replicate 32 0#8) :=
  (itoa_decimal_iff _ (by decide)).1.mpr (by decide)

end EchOS
