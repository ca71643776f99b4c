/-
  EchOS.CLib.Compare

  `strcmp` and `memcmp` of `lib/string`, and when they order bytes as unsigned values.

  Both read no further than they may: the longer of two strings differs from the
  shorter one at its NUL at the latest.  But their bytes are of type `char`, which is
  signed, so a difference between a byte below 0x80 and one at or above it has the
  wrong sign.
-/
import EchOS.CLib.StringReads

namespace EchOS

open CArray (Fault read)

/-- A read of one of the two arrays. -/
inductive Operand where
  | first (i : Nat)
  | second (i : Nat)
  deriving Repr, DecidableEq

/-- The loop of `strcmp` and of `memcmp`, with `left` bytes to go. -/
def compareLoop (s1 s2 : CString) : (left i : Nat) → Logged Operand Fault Int
  | 0, _ => pure 0
  | left + 1, i => do
      let c1 ← loggedRead .first s1 i
      let c2 ← loggedRead .second s2 i
      if c1 = c2 then compareLoop s1 s2 left (i + 1)
      else if c1.slt c2 then pure (-1)
      else pure 1

/-- `strcmp` -/
def strcmp (s1 s2 : CString) : Logged Operand Fault Int := do
  let length ← loggedStrlen .first 0 s1
  let length2 ← loggedStrlen .second 0 s2
  if length2 > length then do
    let length ← loggedStrlen .second 0 s2
    compareLoop s1 s2 length 0
  else compareLoop s1 s2 length 0

/-- `memcmp` -/
def memcmp (str1 str2 : CString) (length : Nat) : Logged Operand Fault Int :=
  compareLoop str1 str2 length 0

/-! ## Orders of bytes -/

/-- The sign of a result is that of the lexicographic comparison by unsigned byte. -/
structure SignOf (result : Int) (s t : List Byte) : Prop where
  neg : result < 0 ↔ s < t
  zero : result = 0 ↔ s = t
  pos : 0 < result ↔ t < s

/-- What the loop makes of two arrays, one of which does not go on where the other ends
    unless they have differed before. -/
def signedCompare : List Byte → List Byte → Int
  | a :: s, b :: t => if a = b then signedCompare s t else if a.slt b then -1 else 1
  | _, _ => 0

/-- Neither array ends before they differ, unless both do. -/
def Comparable : List Byte → List Byte → Prop
  | [], [] => True
  | a :: s, b :: t => a = b → Comparable s t
  | _, _ => False

/-- Where the arrays first differ, both bytes are below 0x80 or both are not. -/
def SameSide : List Byte → List Byte → Prop
  | a :: s, b :: t => if a = b then SameSide s t else (a.toNat < 0x80 ↔ b.toNat < 0x80)
  | _, _ => True

/-- Two comparable arrays are the same, differ in their first bytes, or go on being
    comparable behind an equal one. -/
@[elab_as_elim]
theorem comparable_induction {motive : List Byte → List Byte → Prop} (nil : motive [] [])
    (differ : ∀ {a b : Byte} (s t : List Byte), a ≠ b → motive (a :: s) (b :: t))
    (same : ∀ (a : Byte) (s t : List Byte), motive s t → motive (a :: s) (a :: t))
    {s : List Byte} : ∀ {t : List Byte}, Comparable s t → motive s t := by
  induction s with
  | nil =>
      intro t h
      cases t with
      | nil => exact nil
      | cons b t => exact h.elim
  | cons a s ih =>
      intro t h
      cases t with
      | nil => exact h.elim
      | cons b t =>
          by_cases hab : a = b
          · subst hab
            exact same a s t (ih (h rfl))
          · exact differ s t hab

/-- Signed and unsigned order agree on the same side of 0x80. -/
theorem slt_iff_lt_iff {a b : Byte} (h : a ≠ b) :
    (a.slt b = true ↔ a < b) ↔ (a.toNat < 0x80 ↔ b.toNat < 0x80) := by
  have hne : a.toNat ≠ b.toNat := fun heq => h (BitVec.eq_of_toNat_eq heq)
  have ha := BitVec.toInt_eq_toNat_cond a
  have hb := BitVec.toInt_eq_toNat_cond b
  have hlt := a.isLt
  have hlt' := b.isLt
  rw [BitVec.slt_iff_toInt_lt, BitVec.lt_def]
  split at ha <;> split at hb <;> omega

theorem byte_lt_irrefl (a : Byte) : ¬ a < a := by
  rw [BitVec.lt_def]
  exact Nat.lt_irrefl _

theorem signOf_congr {s t s' t' : List Byte} (hlt : s < t ↔ s' < t') (heq : s = t ↔ s' = t')
    (hgt : t < s ↔ t' < s') (result : Int) : SignOf result s t ↔ SignOf result s' t' :=
  ⟨fun h => ⟨h.neg.trans hlt, h.zero.trans heq, h.pos.trans hgt⟩,
    fun h => ⟨h.neg.trans hlt.symm, h.zero.trans heq.symm, h.pos.trans hgt.symm⟩⟩

theorem signOf_cons_iff (a : Byte) (s t : List Byte) (result : Int) :
    SignOf result (a :: s) (a :: t) ↔ SignOf result s t := by
  have hlt : ∀ s t : List Byte, a :: s < a :: t ↔ s < t := fun s t => by
    rw [List.cons_lt_cons_iff, or_iff_right (byte_lt_irrefl a), and_iff_right rfl]
  exact signOf_congr (hlt s t) (List.cons_inj_right a) (hlt t s) result

theorem signOf_of_ne {a b : Byte} (h : a ≠ b) (s t : List Byte) :
    SignOf (if a.slt b then -1 else 1) (a :: s) (b :: t) ↔ (a.slt b = true ↔ a < b) := by
  have hlt : ∀ {a b : Byte} {s t : List Byte}, a ≠ b → (a :: s < b :: t ↔ a < b) := fun h => by
    rw [List.cons_lt_cons_iff, or_iff_left fun hand => h hand.1]
  have hne : a :: s ≠ b :: t := fun heq => h (List.head_eq_of_cons_eq heq)
  have htotal : ¬ a < b ↔ b < a := by
    have hnat : a.toNat ≠ b.toNat := fun heq => h (BitVec.eq_of_toNat_eq heq)
    rw [BitVec.lt_def, BitVec.lt_def]
    omega
  have hgt : b :: t < a :: s ↔ ¬ a < b := by rw [hlt h.symm, htotal]
  -- unequal bytes are ordered one way or the other, so one of the two results is right
  split
  · next hslt =>
      constructor
      · intro hsign
        exact iff_of_true hslt ((hlt h).mp (hsign.neg.mp (by decide)))
      · intro hiff
        have hab := hiff.mp hslt
        exact ⟨iff_of_true (by decide) ((hlt h).mpr hab), iff_of_false (by decide) hne,
          iff_of_false (by decide) (by rw [hgt]; exact not_not_intro hab)⟩
  · next hslt =>
      constructor
      · intro hsign
        exact iff_of_false hslt (hgt.mp (hsign.pos.mp (by decide)))
      · intro hiff
        have hab := fun hab => hslt (hiff.mpr hab)
        exact ⟨iff_of_false (by decide) (by rw [hlt h]; exact hab), iff_of_false (by decide) hne,
          iff_of_true (by decide) (hgt.mpr hab)⟩

/-- The sign of the comparison is right exactly on the same side of 0x80. -/
theorem signOf_signedCompare_iff {s t : List Byte} (h : Comparable s t) :
    SignOf (signedCompare s t) s t ↔ SameSide s t := by
  refine comparable_induction ?nil (fun s t hab => ?differ) (fun a s t ih => ?same) h
  case nil =>
    refine iff_of_true ⟨?_, ?_, ?_⟩ trivial
    · exact iff_of_false (by decide) (List.not_lt_nil [])
    · exact iff_of_true rfl rfl
    · exact iff_of_false (by decide) (List.not_lt_nil [])
  case differ =>
    rw [signedCompare, SameSide, if_neg hab, if_neg hab, signOf_of_ne hab, slt_iff_lt_iff hab]
  case same => rwa [signedCompare, SameSide, if_pos rfl, if_pos rfl, signOf_cons_iff]

/-! ## The loop -/

/-- With `n` bytes to go the loop comes to a difference, or there is none. -/
def Covers : (n : Nat) → List Byte → List Byte → Prop
  | 0, s, t => s = t
  | n + 1, a :: s, b :: t => a = b → Covers n s t
  | _, _, _ => False

/-- Only the first bytes of the two arrays are read. -/
def Operand.Inside (n m : Nat) : Operand → Prop
  | .first i => i < n
  | .second i => i < m

/-- Reads of the first `n` and `m` bytes. -/
abbrev ReadsInside {α : Type} (n m : Nat) (x : Logged Operand Fault α) : Prop :=
  x.Within (Operand.Inside n m) (fun _ => false) 0

theorem signedCompare_self (s : List Byte) : signedCompare s s = 0 := by
  induction s with
  | nil => rfl
  | cons a s ih => rw [signedCompare, if_pos rfl, ih]

theorem signedCompare_eq_zero_iff {s t : List Byte} (h : Comparable s t) :
    signedCompare s t = 0 ↔ s = t := by
  refine comparable_induction ?nil (fun s t hab => ?differ) (fun a s t ih => ?same) h
  case nil => exact iff_of_true rfl rfl
  case differ =>
    rw [signedCompare, if_neg hab]
    refine iff_of_false ?_ fun heq => hab (List.head_eq_of_cons_eq heq)
    split <;> decide
  case same => rwa [signedCompare, if_pos rfl, List.cons_inj_right]

/-- A turn of the loop, given what the rest does when the bytes are equal. -/
theorem compareLoop_turn {s1 s2 : CString} {left i n m : Nat} {a b : Byte} {result : Int}
    (hread1 : read s1 i = .ok a) (hread2 : read s2 i = .ok b) (hn : i < n) (hm : i < m)
    (hrest : a = b → (compareLoop s1 s2 left (i + 1)).result = .ok result ∧
      ReadsInside n m (compareLoop s1 s2 left (i + 1))) :
    (compareLoop s1 s2 (left + 1) i).result
      = .ok (if a = b then result else if a.slt b then -1 else 1) ∧
    ReadsInside n m (compareLoop s1 s2 (left + 1) i) := by
  have hfirst : Operand.Inside n m (.first i) := hn
  have hsecond : Operand.Inside n m (.second i) := hm
  rw [compareLoop]
  constructor
  · rw [Logged.result_bind, result_loggedRead, hread1]
    show Logged.result (loggedRead Operand.second s2 i >>= _) = _
    rw [Logged.result_bind, result_loggedRead, hread2]
    show Logged.result (if a = b then _ else _) = _
    split
    · next hab => exact (hrest hab).1
    · split <;> rfl
  · refine .bind_free (within_loggedRead (fun _ => rfl) hfirst s1) fun c1 hc1 => ?_
    refine .bind_free (within_loggedRead (fun _ => rfl) hsecond s2) fun c2 hc2 => ?_
    rw [result_loggedRead, hread1] at hc1
    rw [result_loggedRead, hread2] at hc2
    cases hc1
    cases hc2
    -- nothing is read behind a difference
    exact .ite (fun hab => (hrest hab).2) fun _ => .ite (fun _ => .pure) fun _ => .pure

theorem compareLoop_covers {s1 s2 : CString} (left : Nat) :
    ∀ (i : Nat) (s t rest rest' : List Byte), s1.drop i = s ++ rest → s2.drop i = t ++ rest' →
      Covers left s t → (compareLoop s1 s2 left i).result = .ok (signedCompare s t) ∧
        ReadsInside (i + s.length) (i + t.length) (compareLoop s1 s2 left i) := by
  induction left with
  | zero =>
      intro i s t rest rest' hs ht h
      obtain rfl : s = t := h
      rw [signedCompare_self]
      exact ⟨rfl, .pure⟩
  | succ left ih =>
      intro i s t rest rest' hs ht h
      cases s with
      | nil => exact h.elim
      | cons a s =>
          cases t with
          | nil => exact h.elim
          | cons b t =>
              have hin : ∀ n, i < i + (n + 1) := fun n => Nat.lt_add_of_pos_right (Nat.succ_pos n)
              refine compareLoop_turn (CArray.read_of_drop hs) (CArray.read_of_drop ht)
                (hin s.length) (hin t.length) fun hab => ?_
              have hrest := ih (i + 1) s t rest rest' (CArray.drop_succ_of_drop hs)
                (CArray.drop_succ_of_drop ht) (h hab)
              rwa [Nat.add_assoc, Nat.add_assoc, Nat.add_comm 1, Nat.add_comm 1] at hrest

/-! ## Strings and blocks -/

/-- A NUL is a difference from every longer string, so the longer length is enough, and
    so is the shorter one with the NUL. -/
theorem covers_nul (text : List Byte) : ∀ (text' : List Byte) (n : Nat),
    0#8 ∉ text → 0#8 ∉ text' →
      n = max text.length text'.length ∨ n = min text.length text'.length + 1 →
      Covers n (text ++ [0#8]) (text' ++ [0#8]) := by
  induction text with
  | nil =>
      intro text' n hnul hnul' hn
      cases text' with
      | nil =>
          rcases hn with rfl | rfl
          · exact rfl
          · exact fun _ => rfl
      | cons b text' =>
          -- the NUL is a difference
          obtain ⟨m, rfl⟩ : ∃ m, n = m + 1 := ⟨n - 1, by simp at hn; omega⟩
          exact fun heq => absurd (heq ▸ List.mem_cons_self) hnul'
  | cons a text ih =>
      intro text' n hnul hnul' hn
      cases text' with
      | nil =>
          obtain ⟨m, rfl⟩ : ∃ m, n = m + 1 := ⟨n - 1, by simp at hn; omega⟩
          exact fun heq => absurd (heq ▸ List.mem_cons_self) hnul
      | cons b text' =>
          rw [List.length_cons, List.length_cons] at hn
          obtain ⟨m, rfl⟩ := Nat.exists_eq_add_one_of_ne_zero (show n ≠ 0 by omega)
          exact fun _ => ih text' m (fun h => hnul (List.mem_cons_of_mem _ h))
            (fun h => hnul' (List.mem_cons_of_mem _ h)) (by omega)

theorem covers_of_length (n : Nat) : ∀ s t : List Byte, s.length = n → t.length = n →
    Covers n s t := by
  induction n with
  | zero =>
      intro s t hs ht
      rw [List.eq_nil_of_length_eq_zero hs, List.eq_nil_of_length_eq_zero ht]
      exact rfl
  | succ n ih =>
      intro s t hs ht
      obtain ⟨a, s, rfl⟩ := List.exists_cons_of_length_eq_add_one hs
      obtain ⟨b, t, rfl⟩ := List.exists_cons_of_length_eq_add_one ht
      exact fun _ => ih s t (Nat.succ.inj hs) (Nat.succ.inj ht)

theorem comparable_self (s : List Byte) : Comparable s s := by
  induction s with
  | nil => exact trivial
  | cons a s ih => exact fun _ => ih

theorem comparable_of_covers (n : Nat) : ∀ s t : List Byte, Covers n s t → Comparable s t := by
  induction n with
  | zero =>
      intro s t h
      obtain rfl : s = t := h
      exact comparable_self s
  | succ n ih =>
      intro s t h
      cases s with
      | nil => exact h.elim
      | cons a s =>
          cases t with
          | nil => exact h.elim
          | cons b t => exact fun hab => ih s t (h hab)

/-- The NULs at their ends do not change the order of two strings. -/
theorem lt_nul_iff (text : List Byte) : ∀ text' : List Byte, 0#8 ∉ text → 0#8 ∉ text' →
    (text ++ [0#8] < text' ++ [0#8] ↔ text < text') := by
  have hzero : ∀ {c : Byte} {text : List Byte}, 0#8 ∉ c :: text → 0 < c.toNat := fun h =>
    Nat.pos_of_ne_zero fun heq =>
      h ((BitVec.eq_of_toNat_eq (y := 0#8) heq) ▸ List.mem_cons_self)
  induction text with
  | nil =>
      intro text' hnul hnul'
      cases text' with
      | nil => exact iff_of_false (by decide) (List.not_lt_nil [])
      | cons b text' =>
          refine iff_of_true ?_ (List.nil_lt_cons b text')
          exact List.cons_lt_cons_iff.mpr (.inl (hzero hnul'))
  | cons a text ih =>
      intro text' hnul hnul'
      cases text' with
      | nil =>
          refine iff_of_false (fun h => ?_) (List.not_lt_nil _)
          rcases List.cons_lt_cons_iff.mp h with h | ⟨rfl, -⟩
          · exact absurd h (Nat.not_lt_zero _)
          · exact hnul List.mem_cons_self
      | cons b text' =>
          rw [List.cons_append, List.cons_append, List.cons_lt_cons_iff, List.cons_lt_cons_iff,
            ih text' (fun h => hnul (List.mem_cons_of_mem _ h))
              (fun h => hnul' (List.mem_cons_of_mem _ h))]

/-! ## `strcmp` and `memcmp` -/

/-- `strcmp` has a result of the right sign, and reads up to the two NULs. -/
def StrcmpRight (text tail text' tail' : List Byte) : Prop :=
  ∃ result, (strcmp (text ++ 0#8 :: tail) (text' ++ 0#8 :: tail')).result = .ok result ∧
    SignOf result text text' ∧ ReadsInside (text.length + 1) (text'.length + 1)
      (strcmp (text ++ 0#8 :: tail) (text' ++ 0#8 :: tail'))

/-- `memcmp` has a result of the right sign, and reads the first `length` bytes. -/
def MemcmpRight (s t : List Byte) (length : Nat) : Prop :=
  ∃ result, (memcmp s t length).result = .ok result ∧
    SignOf result (s.take length) (t.take length) ∧ ReadsInside length length (memcmp s t length)

section Strings

variable {text text' : List Byte} (tail tail' : List Byte) (hnul : 0#8 ∉ text)
  (hnul' : 0#8 ∉ text')

include hnul hnul'

/-- The loop on two strings, for both bounds. -/
theorem compareLoop_strings {n : Nat}
    (hn : n = max text.length text'.length ∨ n = min text.length text'.length + 1) :
    (compareLoop (text ++ 0#8 :: tail) (text' ++ 0#8 :: tail') n 0).result
      = .ok (signedCompare (text ++ [0#8]) (text' ++ [0#8])) ∧
    ReadsInside (text.length + 1) (text'.length + 1)
      (compareLoop (text ++ 0#8 :: tail) (text' ++ 0#8 :: tail') n 0) := by
  have hloop := compareLoop_covers n 0 (text ++ [0#8]) (text' ++ [0#8]) tail tail'
    (List.append_cons text 0#8 tail) (List.append_cons text' 0#8 tail')
    (covers_nul text text' n hnul hnul' hn)
  rwa [Nat.zero_add, Nat.zero_add, List.length_append, List.length_append,
    List.length_singleton] at hloop

/-- What `strcmp` returns and reads. -/
theorem strcmp_strings :
    (strcmp (text ++ 0#8 :: tail) (text' ++ 0#8 :: tail')).result
      = .ok (signedCompare (text ++ [0#8]) (text' ++ [0#8])) ∧
    ReadsInside (text.length + 1) (text'.length + 1)
      (strcmp (text ++ 0#8 :: tail) (text' ++ 0#8 :: tail')) := by
  have hfirst : ReadsInside (text.length + 1) (text'.length + 1)
      (loggedStrlen Operand.first 0 (text ++ 0#8 :: tail)) :=
    within_loggedStrlen (fun _ => rfl) text 0 fun j _ hj => by
      show j < text.length + 1
      omega
  have hsecond : ReadsInside (text.length + 1) (text'.length + 1)
      (loggedStrlen Operand.second 0 (text' ++ 0#8 :: tail')) :=
    within_loggedStrlen (fun _ => rfl) text' 0 fun j _ hj => by
      show j < text'.length + 1
      omega
  -- the bound of the loop is the longer length
  have hloop : ∀ n, n = max text.length text'.length → _ := fun n hn =>
    compareLoop_strings tail tail' hnul hnul' (.inl hn)
  have hright : text'.length > text.length → text'.length = max text.length text'.length :=
    fun hlt => (Nat.max_eq_right (Nat.le_of_lt hlt)).symm
  have hleft : ¬ text'.length > text.length → text.length = max text.length text'.length :=
    fun hge => (Nat.max_eq_left (Nat.not_lt.mp hge)).symm
  rw [strcmp]
  constructor
  · rw [Logged.result_bind, result_loggedStrlen, strlen_text hnul]
    show Logged.result (loggedStrlen Operand.second 0 _ >>= _) = _
    rw [Logged.result_bind, result_loggedStrlen, strlen_text hnul']
    show Logged.result (if text'.length > text.length then _ else _) = _
    split
    · next hlt =>
        -- the second length is taken once more
        rw [Logged.result_bind, result_loggedStrlen, strlen_text hnul']
        exact (hloop _ (hright hlt)).1
    · next hge => exact (hloop _ (hleft hge)).1
  · refine .bind_free hfirst fun length hlength => .bind_free hsecond fun length2 hlength2 => ?_
    rw [result_loggedStrlen, strlen_text hnul] at hlength
    rw [result_loggedStrlen, strlen_text hnul'] at hlength2
    cases hlength
    cases hlength2
    refine .ite (fun hlt => .bind_free hsecond fun length hlength => ?_) fun hge => ?_
    · rw [result_loggedStrlen, strlen_text hnul'] at hlength
      cases hlength
      exact (hloop _ (hright hlt)).2
    · exact (hloop _ (hleft hge)).2

/-- `memcmp` of the shorter string and its NUL returns the same. -/
theorem memcmp_strings :
    (memcmp (text ++ 0#8 :: tail) (text' ++ 0#8 :: tail')
      (min text.length text'.length + 1)).result
      = .ok (signedCompare (text ++ [0#8]) (text' ++ [0#8])) :=
  (compareLoop_strings tail tail' hnul hnul' (.inr rfl)).1

theorem strcmpRight_iff : StrcmpRight text tail text' tail' ↔
    SameSide (text ++ [0#8]) (text' ++ [0#8]) := by
  obtain ⟨hresult, hreads⟩ := strcmp_strings tail tail' hnul hnul'
  have hcovers := covers_nul text text' _ hnul hnul' (.inl rfl)
  rw [← signOf_signedCompare_iff (comparable_of_covers _ _ _ hcovers)]
  -- the order of the texts is that of the texts with their NULs
  have hsign := signOf_congr (lt_nul_iff text text' hnul hnul').symm
    (List.append_left_inj [0#8]).symm (lt_nul_iff text' text hnul' hnul).symm
  constructor
  · rintro ⟨result, hresult', h, -⟩
    rw [hresult] at hresult'
    cases hresult'
    exact (hsign _).mp h
  · exact fun h => ⟨_, hresult, (hsign _).mpr h, hreads⟩

end Strings

section Blocks

variable {s t : List Byte} {length : Nat} (hs : length ≤ s.length) (ht : length ≤ t.length)

include hs ht

/-- What `memcmp` returns and reads. -/
theorem memcmp_blocks :
    (memcmp s t length).result = .ok (signedCompare (s.take length) (t.take length)) ∧
    ReadsInside length length (memcmp s t length) := by
  have hlen := List.length_take_of_le hs
  have hlen' := List.length_take_of_le ht
  have hloop := compareLoop_covers length 0 _ _ (s.drop length) (t.drop length)
    (List.take_append_drop length s).symm (List.take_append_drop length t).symm
    (covers_of_length length _ _ hlen hlen')
  rwa [hlen, hlen', Nat.zero_add] at hloop

/-- `memcmp` returns 0 exactly if the blocks are the same. -/
theorem memcmp_eq_zero_iff :
    ∃ result, (memcmp s t length).result = .ok result ∧
      (result = 0 ↔ s.take length = t.take length) := by
  have hcovers := covers_of_length length _ _ (List.length_take_of_le hs)
    (List.length_take_of_le ht)
  exact ⟨_, (memcmp_blocks hs ht).1, signedCompare_eq_zero_iff (comparable_of_covers _ _ _ hcovers)⟩

theorem memcmpRight_iff :
    MemcmpRight s t length ↔ SameSide (s.take length) (t.take length) := by
  obtain ⟨hresult, hreads⟩ := memcmp_blocks hs ht
  have hcovers := covers_of_length length _ _ (List.length_take_of_le hs)
    (List.length_take_of_le ht)
  rw [← signOf_signedCompare_iff (comparable_of_covers _ _ _ hcovers)]
  constructor
  · rintro ⟨result, hresult', h, -⟩
    rw [hresult] at hresult'
    cases hresult'
    exact h
  · exact fun h => ⟨_, hresult, h, hreads⟩

end Blocks

/-- The empty string against "\x80": `strcmp` and `memcmp` say it is the greater one. -/
theorem strcmp_not_unsigned :
    (strcmp [0#8] [0x80#8, 0#8]).result = .ok 1 ∧
    (memcmp [0#8] [0x80#8, 0#8] 1).result = .ok 1 ∧
    ¬ StrcmpRight [] [] [0x80#8] [] ∧ ¬ MemcmpRight [0#8] [0x80#8, 0#8] 1 := by
  refine ⟨rfl, rfl, ?_, ?_⟩
  · rintro ⟨result, hresult, h, -⟩
    cases hresult
    exact absurd (h.pos.mp (by decide)) (by decide)
  · rintro ⟨result, hresult, h, -⟩
    cases hresult
    exact absurd (h.pos.mp (by decide)) (by decide)

/-- **`strcmp` and `memcmp`.**  Both return and read no further than they may.  They have
    the sign of the comparison by unsigned byte exactly if the bytes at the first
    difference are on the same side of 0x80, and `strcmp` is always `memcmp` of the
    shorter string and its NUL. -/
theorem compare_unsigned_iff (s t : List Byte) :
    (∀ tail tail' : List Byte, 0#8 ∉ s → 0#8 ∉ t →
      (StrcmpRight s tail t tail' ↔ SameSide (s ++ [0#8]) (t ++ [0#8])) ∧
      ReadsInside (s.length + 1) (t.length + 1) (strcmp (s ++ 0#8 :: tail) (t ++ 0#8 :: tail')) ∧
      ∃ result, (strcmp (s ++ 0#8 :: tail) (t ++ 0#8 :: tail')).result = .ok result ∧
        (memcmp (s ++ 0#8 :: tail) (t ++ 0#8 :: tail') (min s.length t.length + 1)).result
          = .ok result) ∧
    ∀ length : Nat, length ≤ s.length → length ≤ t.length →
      (MemcmpRight s t length ↔ SameSide (s.take length) (t.take length)) ∧
      ReadsInside length length (memcmp s t length) := by
  constructor
  · intro tail tail' hnul hnul'
    obtain ⟨hresult, hreads⟩ := strcmp_strings tail tail' hnul hnul'
    exact ⟨strcmpRight_iff tail tail' hnul hnul', hreads, _, hresult,
      memcmp_strings tail tail' hnul hnul'⟩
  · exact fun length hs ht => ⟨memcmpRight_iff hs ht, (memcmp_blocks hs ht).2⟩

/-- "ab" and "b", and the first bytes of two blocks. -/
theorem compare_unsigned_iff_ascii :
    StrcmpRight [ch 'a', ch 'b'] [] [ch 'b'] [] ∧
    MemcmpRight [0x90#8, 0x85#8, 1#8] [0x90#8, 0xFF#8] 2 :=
  ⟨((compare_unsigned_iff _ _).1 _ _ (by decide) (by decide)).1.mpr (by simp [SameSide]; decide),
    ((compare_unsigned_iff _ _).2 _ (by decide) (by decide)).1.mpr (by simp [SameSide])⟩

end EchOS
