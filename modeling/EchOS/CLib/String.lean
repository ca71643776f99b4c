/-
  EchOS.CLib.String

  `strlen`, `memcpy` and `strcpy` of `lib/string`, on char arrays.
-/
import EchOS.Basic
import EchOS.Lib.CArray

namespace EchOS

open CArray (Fault read write overlay)

/-- A char array. -/
abbrev CString := List Byte

/-- The byte of an ASCII character. -/
def ch (c : Char) : Byte := BitVec.ofNat 8 c.toNat

/-- `strlen`: the number of bytes before the first NUL of the array. -/
def strlen : CString → Except Fault Nat
  | [] => .error .outOfBounds
  | c :: str => if c = 0#8 then .ok 0 else (strlen str).map (· + 1)

/-- The loop of `memcpy` on arrays that do not overlap, with `left` bytes to go. -/
def memcpy.loop (src : CString) : (left counter : Nat) → CString → Except Fault CString
  | 0, _, dest => .ok dest
  | left + 1, counter, dest => do
      let c ← read src counter
      let dest ← write dest counter c
      memcpy.loop src left (counter + 1) dest

/-- `memcpy` -/
def memcpy (dest src : CString) (length : Nat) : Except Fault CString :=
  memcpy.loop src length 0 dest

/-- `strcpy` -/
def strcpy (dest src : CString) : Except Fault CString := do
  let length ← strlen src
  memcpy dest src (length + 1)

/-! ## What they compute -/

theorem strlen_text {text : List Byte} (h : 0#8 ∉ text) (rest : CString) :
    strlen (text ++ 0#8 :: rest) = .ok text.length := by
  induction text with
  | nil => simp [strlen]
  | cons c text ih =>
      have hc : c ≠ 0#8 := fun heq => h (heq ▸ List.mem_cons_self)
      rw [List.cons_append, strlen, if_neg hc, ih fun hmem => h (List.mem_cons_of_mem _ hmem)]
      rfl

/-- `strlen` of an array with a NUL. -/
theorem strlen_takeWhile {s : CString} (h : 0#8 ∈ s) :
    strlen s = .ok (s.takeWhile (· ≠ 0#8)).length := by
  induction s with
  | nil => cases h
  | cons c s ih =>
      rw [strlen]
      by_cases hc : c = 0#8
      · simp [hc]
      · rw [if_neg hc, ih ((List.mem_cons.mp h).resolve_left (Ne.symm hc)),
          List.takeWhile_cons_of_pos (by simpa using hc)]
        rfl

theorem strlen_eq_error {s : CString} (h : 0#8 ∉ s) : strlen s = .error .outOfBounds := by
  induction s with
  | nil => rfl
  | cons c s ih =>
      have hc : c ≠ 0#8 := fun heq => h (heq ▸ List.mem_cons_self)
      rw [strlen, if_neg hc, ih fun hmem => h (List.mem_cons_of_mem _ hmem)]
      rfl

theorem takeWhile_text {text : List Byte} (h : 0#8 ∉ text) (rest : CString) :
    (text ++ rest).takeWhile (· ≠ 0#8) = text ++ rest.takeWhile (· ≠ 0#8) :=
  List.takeWhile_append_of_pos fun _ hc => decide_eq_true fun heq => h (heq ▸ hc)

theorem memcpy_loop (dest : CString) (data tail rest : CString)
    (hfits : (data ++ tail).length ≤ dest.length) :
    memcpy.loop (data ++ tail ++ rest) tail.length data.length (overlay dest data)
      = .ok (overlay dest (data ++ tail)) := by
  induction tail generalizing data with
  | nil => simp [memcpy.loop]
  | cons c tail ih =>
      -- the next byte is `c`, and the bytes before it are already copied
      have hread : read (data ++ c :: tail ++ rest) data.length = .ok c :=
        CArray.read_of_drop (by rw [List.append_assoc, List.drop_left]; rfl)
      have hlt : data.length < dest.length := by
        rw [List.length_append, List.length_cons] at hfits
        omega
      have hrest := ih (data ++ [c]) (by simpa using hfits)
      rw [List.length_append, List.length_singleton, List.append_assoc data,
        List.singleton_append] at hrest
      simp only [List.length_cons, memcpy.loop, hread]
      show (write (overlay dest data) data.length c >>= _) = _
      rw [CArray.write_overlay hlt]
      exact hrest

/-- A copy that does not fit has no result. -/
theorem memcpy_loop_error {src : CString} (left : Nat) : ∀ (counter : Nat) (dest : CString),
    counter ≤ dest.length → dest.length < counter + left → counter + left ≤ src.length →
      memcpy.loop src left counter dest = .error .outOfBounds := by
  induction left with
  | zero => exact fun counter dest hle hlt => absurd hlt (Nat.not_lt.mpr hle)
  | succ left ih =>
      intro counter dest hle hlt hsrc
      have hread : read src counter = .ok src[counter] :=
        CArray.read_of_drop (List.drop_eq_getElem_cons (by omega))
      rw [memcpy.loop, hread]
      show (write dest counter src[counter] >>= _) = _
      rcases Nat.eq_or_lt_of_le hle with heq | hlt'
      -- the destination ends here
      · rw [write, if_neg (by omega)]
        rfl
      · rw [write, if_pos hlt']
        exact ih (counter + 1) _ (by rwa [List.length_set]) (by rw [List.length_set]; omega)
          (by omega)

/-- Copying a string copies its bytes and its NUL. -/
theorem strcpy_text {text : List Byte} (h : 0#8 ∉ text) (rest : CString) {dest : CString}
    (hfits : text.length + 1 ≤ dest.length) :
    strcpy dest (text ++ 0#8 :: rest) = .ok (overlay dest (text ++ [0#8])) := by
  have hcopy := memcpy_loop dest [] (text ++ [0#8]) rest (by simpa using hfits)
  rw [List.nil_append, List.length_append, List.append_assoc, List.singleton_append] at hcopy
  rw [strcpy, strlen_text h]
  exact hcopy

/-- Without room for the NUL the copy has no result. -/
theorem strcpy_error {text : List Byte} (h : 0#8 ∉ text) (rest : CString) {dest : CString}
    (hfull : dest.length ≤ text.length) :
    strcpy dest (text ++ 0#8 :: rest) = .error .outOfBounds := by
  rw [strcpy, strlen_text h]
  refine memcpy_loop_error (text.length + 1) 0 dest (Nat.zero_le _) (by omega) ?_
  rw [List.length_append, List.length_cons]
  omega

end EchOS
