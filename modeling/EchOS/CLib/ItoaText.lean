/-
  EchOS.CLib.ItoaText

  What `itoa` leaves in its buffer for base 10: the decimal text of the number,
  except that the most negative `int` stays negative when it is negated, so the
  remainders of its digits are negative too.
-/
import EchOS.CLib.Itoa
import Mathlib.Data.Nat.Digits.Defs
import Mathlib.Data.Nat.Digits.Lemmas

namespace EchOS

open CArray (Fault read write overlay)

/-- The byte of a decimal digit. -/
def digitByte (d : Nat) : Byte := BitVec.ofNat 8 (48 + d)

/-- A natural number in decimal. -/
def natText (n : Nat) : List Byte :=
  if n = 0 then [ch '0'] else ((Nat.digits 10 n).map digitByte).reverse

/-- An integer in decimal, with a minus sign if it is negative. -/
def decimalText (z : Int) : List Byte :=
  if z < 0 then ch '-' :: natText z.natAbs else natText z.natAbs

/-! ## `reverse_string` -/

/-- The bytes of `temp` from `left - 1` down are stored one after the other. -/
theorem reverseString_loop (temp s : CString) :
    ∀ (left : Nat) (data : List Byte), left ≤ temp.length → data.length + left ≤ s.length →
      reverseString.loop temp left data.length (overlay s data)
        = .ok (overlay s (data ++ (temp.take left).reverse)) := by
  intro left
  induction left with
  | zero =>
      intro data _ _
      simp [reverseString.loop]
  | succ left ih =>
      intro data htemp hs
      have hread : read temp left = .ok temp[left] :=
        CArray.read_of_drop (List.drop_eq_getElem_cons htemp)
      have hrest := ih (data ++ [temp[left]]) (by omega) (by simp; omega)
      rw [List.length_append, List.length_singleton] at hrest
      rw [List.take_add_one, List.getElem?_eq_getElem htemp, Option.toList_some,
        List.reverse_append, List.reverse_singleton, ← List.append_assoc]
      simp only [reverseString.loop, hread]
      show (write (overlay s data) data.length temp[left] >>= _) = _
      rw [CArray.write_overlay (by omega)]
      exact hrest

/-- `reverse_string` on a string that is not empty, with room for the terminator. -/
theorem reverseString_text {text : List Byte} (hnul : 0#8 ∉ text) (hne : text ≠ [])
    {str : CString} (hfits : text.length + 1 ≤ str.length) (slack : Nat) :
    reverseString (slack + 1) (overlay str (text ++ [0#8]))
      = .ok (overlay str (text.reverse ++ [0#8])) := by
  have hs : overlay str (text ++ [0#8]) = text ++ 0#8 :: str.drop (text.length + 1) := by
    simp [overlay]
  have htemp : overlay (List.replicate (text.length + (slack + 1)) 0#8) (text ++ [0#8])
      = text ++ 0#8 :: List.replicate slack 0#8 := by
    simp [overlay]
    omega
  have hlen : text.length ≠ 0 := fun h => hne (List.eq_nil_of_length_eq_zero h)
  have hloop := reverseString_loop (text ++ 0#8 :: List.replicate slack 0#8)
    (overlay str (text ++ [0#8])) text.length []
    (by simp) (by rw [CArray.length_overlay] <;> simp <;> omega)
  rw [List.take_left, List.nil_append, CArray.overlay_append (List.length_reverse)] at hloop
  rw [reverseString, hs, strlen_text hnul]
  simp only [bind, Except.bind]
  rw [if_neg hlen, strcpy_text hnul _ (by simp), htemp, ← hs]
  exact hloop

/-! ## The digits -/

/-- The byte that the loop of `itoa` stores for the last digit. -/
def lastDigit (num : BitVec 32) : Byte :=
  (num.srem 10#32 + (ch '0').zeroExtend 32).setWidth 8

/-- The digits of a number of at most `count` digits, the last one first. -/
def digitsOf : (count : Nat) → BitVec 32 → Option (List Byte)
  | 0, num => if num = 0#32 then some [] else none
  | count + 1, num =>
      if num = 0#32 then some []
      else (digitsOf count (num.sdiv 10#32)).map (lastDigit num :: ·)

/-- The loop of `itoa` stores the digits. -/
theorem itoa_loop (str : CString) :
    ∀ (count fuel : Nat) (num : BitVec 32) (data digits : List Byte), count < fuel →
      digitsOf count num = some digits → data.length + digits.length ≤ str.length →
      itoa.loop 10#32 fuel num data.length (overlay str data)
        = .ok (data.length + digits.length, overlay str (data ++ digits)) := by
  intro count
  induction count with
  | zero =>
      intro fuel num data digits hfuel hdigits _
      obtain ⟨fuel, rfl⟩ := Nat.exists_eq_add_one_of_ne_zero (show fuel ≠ 0 by omega)
      rw [digitsOf] at hdigits
      split at hdigits
      · next hzero =>
          cases hdigits
          simp [itoa.loop, hzero]
      · cases hdigits
  | succ count ih =>
      intro fuel num data digits hfuel hdigits hfits
      obtain ⟨fuel, rfl⟩ := Nat.exists_eq_add_one_of_ne_zero (show fuel ≠ 0 by omega)
      rw [digitsOf] at hdigits
      rw [itoa.loop]
      split at hdigits
      · next hzero =>
          cases hdigits
          rw [if_pos hzero, List.append_nil]
          rfl
      · next hne =>
          obtain ⟨rest, hrest, rfl⟩ := Option.map_eq_some_iff.mp hdigits
          rw [List.length_cons] at hfits
          -- one turn stores the last digit behind the ones already there
          have hloop := ih fuel (num.sdiv 10#32) (data ++ [lastDigit num]) rest (by omega) hrest
            (by rw [List.length_append, List.length_singleton]; omega)
          rw [List.length_append, List.length_singleton, List.append_assoc,
            List.singleton_append] at hloop
          rw [if_neg hne]
          show (write (overlay str data) data.length (lastDigit num) >>= _) = _
          rw [CArray.write_overlay (by omega), List.length_cons, ← Nat.add_assoc,
            Nat.add_right_comm]
          exact hloop

theorem length_digitsOf :
    ∀ (count : Nat) {num : BitVec 32} {digits : List Byte},
      digitsOf count num = some digits → digits.length ≤ count := by
  intro count
  induction count with
  | zero =>
      intro num digits h
      rw [digitsOf] at h
      split at h <;> cases h
      exact Nat.le_refl _
  | succ count ih =>
      intro num digits h
      rw [digitsOf] at h
      split at h
      · cases h
        exact Nat.zero_le _
      · obtain ⟨rest, hrest, rfl⟩ := Option.map_eq_some_iff.mp h
        exact Nat.succ_le_succ (ih hrest)

/-- Signed division by ten of a number that is not negative. -/
theorem signed_ofNat {n : Nat} (hn : n < 2 ^ 31) :
    (BitVec.ofNat 32 n).sdiv 10#32 = BitVec.ofNat 32 (n / 10) ∧
    lastDigit (BitVec.ofNat 32 n) = digitByte (n % 10) := by
  have hnat : (BitVec.ofNat 32 n).toNat = n := by
    rw [BitVec.toNat_ofNat, Nat.mod_eq_of_lt (by omega)]
  have hmsb : (BitVec.ofNat 32 n).msb = false := by
    rw [BitVec.msb_eq_decide, hnat]
    exact decide_eq_false (by omega)
  have hten : (10#32).msb = false := by decide
  constructor
  · apply BitVec.eq_of_toNat_eq
    rw [BitVec.sdiv_eq, hmsb, hten]
    have hten' : (10#32).toNat = 10 := rfl
    simp only [BitVec.udiv_eq, BitVec.toNat_udiv, hnat, hten', BitVec.toNat_ofNat]
    omega
  · have hrem : ((BitVec.ofNat 32 n).srem 10#32).toNat = n % 10 := by
      rw [BitVec.srem_eq, hmsb, hten]
      simp only [BitVec.toNat_umod, hnat]
      rfl
    have hzero : ((ch '0').zeroExtend 32).toNat = 48 := rfl
    apply BitVec.eq_of_toNat_eq
    rw [lastDigit, BitVec.toNat_setWidth, BitVec.toNat_add, hrem, hzero, digitByte,
      BitVec.toNat_ofNat]
    omega

/-- The digits of a number that is not negative. -/
theorem digitsOf_ofNat :
    ∀ (count n : Nat), n < 10 ^ count → n < 2 ^ 31 →
      digitsOf count (BitVec.ofNat 32 n) = some ((Nat.digits 10 n).map digitByte) := by
  intro count
  induction count with
  | zero =>
      intro n hcount _
      obtain rfl : n = 0 := by omega
      simp [digitsOf]
  | succ count ih =>
      intro n hcount hn
      rcases Nat.eq_zero_or_pos n with rfl | hpos
      · simp [digitsOf]
      · have hne : BitVec.ofNat 32 n ≠ 0#32 := by
          intro heq
          have := congrArg BitVec.toNat heq
          simp only [BitVec.toNat_ofNat] at this
          omega
        obtain ⟨hdiv, hlast⟩ := signed_ofNat hn
        have hrest := ih (n / 10) (by rw [Nat.pow_succ] at hcount; omega) (by omega)
        rw [digitsOf, if_neg hne, hdiv, hrest, hlast, Nat.digits_def' (by decide) hpos]
        rfl

/-- What the loop stores for the most negative `int`: its remainders are negative. -/
def minDigits : List Byte :=
  [ch '(', ch ',', ch '*', ch '-', ch '(', ch ',', ch ')', ch ',', ch '/', ch '.']

theorem digitsOf_min : digitsOf 10 (BitVec.intMin 32) = some minDigits := by
  decide

/-! ## `itoa` -/

/-- The text `itoa` leaves for base 10. -/
def itoaText (num : BitVec 32) : List Byte :=
  if num = BitVec.intMin 32 then ch '-' :: minDigits.reverse else decimalText num.toInt

theorem natText_length_le {n : Nat} (hn : n < 2 ^ 31) : (natText n).length ≤ 10 := by
  unfold natText
  split
  · decide
  · rw [List.length_reverse, List.length_map]
    exact (Nat.digits_length_le_iff (by decide) n).mpr (by omega)

theorem nul_notMem_natText (n : Nat) : 0#8 ∉ natText n := by
  unfold natText
  split
  · decide
  · intro hmem
    rw [List.mem_reverse, List.mem_map] at hmem
    obtain ⟨d, hd, heq⟩ := hmem
    have hlt := Nat.digits_lt_base (by decide) hd
    have := congrArg BitVec.toNat heq
    rw [digitByte, BitVec.toNat_ofNat, BitVec.toNat_ofNat] at this
    omega

section Text

variable (num : BitVec 32)

theorem natAbs_toInt_lt (h : num ≠ BitVec.intMin 32) : num.toInt.natAbs < 2 ^ 31 := by
  have hne : num.toNat ≠ 2 ^ 31 := fun heq => h (BitVec.eq_of_toNat_eq heq)
  rw [BitVec.toInt_eq_toNat_cond]
  split <;> omega

theorem itoaText_length_le : (itoaText num).length ≤ 11 := by
  unfold itoaText
  split
  · decide
  · next h =>
      have := natText_length_le (natAbs_toInt_lt num h)
      unfold decimalText
      split
      · rw [List.length_cons]
        omega
      · omega

theorem nul_notMem_itoaText : 0#8 ∉ itoaText num := by
  unfold itoaText
  split
  · decide
  · have := nul_notMem_natText num.toInt.natAbs
    unfold decimalText
    split
    · exact List.not_mem_cons_of_ne_of_not_mem (by decide) this
    · exact this

end Text

/-- From the digits on: the sign, the terminator, and the reversal. -/
theorem itoa_tail {str : CString} {digits : List Byte} {negative : Bool}
    (hnul : 0#8 ∉ digits) (hne : digits ≠ []) (hfits : digits.length + 2 ≤ str.length) :
    (do
      let str' ← if negative then write (overlay str digits) digits.length (ch '-')
        else .ok (overlay str digits)
      let str' ← write str' (if negative then digits.length + 1 else digits.length) 0#8
      reverseString 1 str')
      = .ok (overlay str ((if negative then ch '-' :: digits.reverse else digits.reverse)
          ++ [0#8])) := by
  cases negative with
  | false =>
      simp only [Bool.false_eq_true, if_false]
      show (write (overlay str digits) digits.length 0#8 >>= _) = _
      rw [CArray.write_overlay (by omega)]
      exact reverseString_text hnul hne (by omega) 0
  | true =>
      simp only [if_true]
      rw [CArray.write_overlay (by omega)]
      have hlen : (digits ++ [ch '-']).length < str.length := by
        rw [List.length_append, List.length_singleton]
        omega
      have hwrite := CArray.write_overlay hlen 0#8
      rw [List.length_append, List.length_singleton] at hwrite
      show (write (overlay str (digits ++ [ch '-'])) (digits.length + 1) 0#8 >>= _) = _
      rw [hwrite]
      -- the '-' stored last comes first after the reversal
      have hnul' : 0#8 ∉ digits ++ [ch '-'] := by
        rw [List.mem_append, not_or]
        exact ⟨hnul, by decide⟩
      have hrev := reverseString_text hnul' (List.append_ne_nil_of_right_ne_nil _ (by decide)) hlen 0
      rw [List.reverse_append] at hrev
      exact hrev

/-- The digits of a number that is not zero, and the sign they get, are its text. -/
theorem exists_digits {num : BitVec 32} (hne : num ≠ 0#32) :
    ∃ digits, digitsOf 10 (if num.slt 0#32 then -num else num) = some digits ∧ digits ≠ [] ∧
      itoaText num = (if num.slt 0#32 then ch '-' :: digits.reverse else digits.reverse) := by
  have hslt : num.slt 0#32 = decide (num.toInt < 0) := by
    rw [BitVec.slt_eq_decide, BitVec.toInt_zero]
  -- -2^31 is its own negation, so its digits are remainders of a negative number
  by_cases hmin : num = BitVec.intMin 32
  · subst hmin
    exact ⟨minDigits, digitsOf_min, by decide, by decide⟩
  · have hlt := natAbs_toInt_lt num hmin
    have habs : num.toInt.natAbs ≠ 0 := by
      rw [ne_eq, Int.natAbs_eq_zero]
      exact fun h => hne (BitVec.eq_of_toInt_eq (h.trans BitVec.toInt_zero.symm))
    have hnum : (if num.slt 0#32 then -num else num) = BitVec.ofNat 32 num.toInt.natAbs := by
      apply BitVec.eq_of_toNat_eq
      have hcond := BitVec.toInt_eq_toNat_cond num
      have := num.isLt
      rw [hslt, BitVec.toNat_ofNat]
      by_cases hneg : num.toInt < 0
      · rw [decide_eq_true hneg, if_pos rfl, BitVec.toNat_neg]
        split at hcond <;> omega
      · rw [decide_eq_false hneg, if_neg Bool.false_ne_true]
        split at hcond <;> omega
    refine ⟨_, hnum ▸ digitsOf_ofNat 10 _ (by omega) hlt, ?_, ?_⟩
    · rw [ne_eq, List.map_eq_nil_iff]
      exact Nat.digits_ne_nil_iff_ne_zero.mpr habs
    rw [itoaText, if_neg hmin, decimalText, natText, if_neg habs, hslt]
    by_cases hneg : num.toInt < 0
    · rw [if_pos hneg, decide_eq_true hneg, if_pos rfl]
    · rw [if_neg hneg, decide_eq_false hneg, if_neg Bool.false_ne_true]

/-- `itoa` stores the text and its terminator. -/
theorem itoa_text (num : BitVec 32) {str : CString} (hfits : 12 ≤ str.length) :
    itoa num str 10#32 = .ok (overlay str (itoaText num ++ [0#8])) := by
  unfold itoa
  by_cases hzero : num = 0#32
  · subst hzero
    rw [if_pos rfl]
    exact strcpy_text (by decide : 0#8 ∉ [ch '0']) [0#8] (by simp; omega)
  · obtain ⟨digits, hdigits, hne, htext⟩ := exists_digits hzero
    have hlen := length_digitsOf 10 hdigits
    -- the reversed digits are a suffix of the text
    have hnul : 0#8 ∉ digits := by
      have h := nul_notMem_itoaText num
      rw [htext] at h
      intro hmem
      split at h
      · exact h (List.mem_cons_of_mem _ (List.mem_reverse.mpr hmem))
      · exact h (List.mem_reverse.mpr hmem)
    rw [if_neg hzero]
    simp only [beq_self_eq_true, Bool.and_true]
    have hloop := itoa_loop str 10 33 _ [] digits (by decide) hdigits
      (by rw [List.length_nil]; omega)
    rw [List.nil_append, List.length_nil, Nat.zero_add, CArray.overlay_nil] at hloop
    rw [hloop, htext]
    exact itoa_tail hnul hne (by omega)

end EchOS
