/-
  EchOS.CLib.ReverseString

  What `reverse_string` of `lib/string/itoa.c` accesses.

  Here the code logs every access to its string and to the local array `temp`, and its
  counters are machine words.  `temp` is declared with `strlen(s)` bytes, so the NUL that
  `strcpy` copies lands behind it for every string; that is the only access that leaves
  an array.  `slack` is the number of bytes behind `temp` that take such a write; with a
  slack of 0 every access is checked against the declared length.
-/
import EchOS.CLib.ItoaText
import EchOS.CLib.StringReads

namespace EchOS

open CArray (Fault read write overlay)

/-- What `reverse_string` does with its arrays. -/
inductive ReverseAccess where
  | declare (length : Nat)
  | tempRead (i : Nat)
  | tempWrite (i : Nat)
  | string (i : Nat)
  deriving Repr, DecidableEq

/-! ## The code -/

/-- The loop of `reverse_string`. -/
def loggedReverseString.loop (temp : CString) (length : Word) :
    (fuel : Nat) → (c1 c2 : Word) → CString → Logged ReverseAccess Fault CString
  | 0, _, _, _ => Logged.lift (.error .outOfFuel)
  | fuel + 1, c1, c2, s =>
      if c1 ≤ length then do
        let c ← loggedRead .tempRead temp c2.toNat
        let s ← loggedWrite .string s c1.toNat c
        loggedReverseString.loop temp length fuel (c1 + 1#64) (c2 - 1#64) s
      else pure s

/-- `reverse_string` with its log. -/
def loggedReverseString (slack fuel : Nat) (s : CString) : Logged ReverseAccess Fault CString := do
  let length ← loggedStrlen .string 0 s
  -- `strlen(s) - 1`, the last index
  let length := BitVec.ofNat 64 length - 1#64
  -- `char temp[length + 1]` has no room for the NUL
  Logged.log (.declare (length + 1#64).toNat)
  let temp ← loggedStrcpy .string .tempWrite
    (List.replicate ((length + 1#64).toNat + slack) 0#8) s
  loggedReverseString.loop temp length fuel 0#64 length s

/-- It stays in its arrays, comes to an end, and leaves the string reversed, with its
    terminator and what lies behind. -/
structure ReversesInPlace (text tail : List Byte) (run : Logged ReverseAccess Fault CString) :
    Prop where
  temp : ∀ length i, .declare length ∈ run.events → .tempWrite i ∈ run.events → i < length
  string : ∀ i, .string i ∈ run.events → i ≤ text.length
  reversed : run.result = .ok (text.reverse ++ 0#8 :: tail)

/-- The same for a `temp` of `n` bytes, but for a write to `temp[n]`. -/
def ReverseAccess.Allowed (n : Nat) : ReverseAccess → Prop
  | .declare length => length = n
  | .tempRead i => i < n
  | .tempWrite i => i ≤ n
  | .string i => i ≤ n

/-- Only such accesses. -/
abbrev ReverseBounded {α : Type} (n : Nat) (run : Logged ReverseAccess Fault α) : Prop :=
  run.Within (ReverseAccess.Allowed n) (fun _ => false) 0

/-! ## The loop -/

/-- With `left` bytes to go the loop does what `reverseString.loop` does, and accesses `temp`
    below its declared length. -/
theorem loggedReverse_loop (temp : CString) {n : Nat} (hpos : 0 < n) (hlt : n < 2 ^ 64)
    (left : Nat) : ∀ (fuel : Nat) (s : CString), left ≤ n → left < fuel →
      (loggedReverseString.loop temp (BitVec.ofNat 64 n - 1#64) fuel (BitVec.ofNat 64 (n - left))
        (BitVec.ofNat 64 left - 1#64) s).result = reverseString.loop temp left (n - left) s ∧
      ReverseBounded n (loggedReverseString.loop temp (BitVec.ofNat 64 n - 1#64) fuel
        (BitVec.ofNat 64 (n - left)) (BitVec.ofNat 64 left - 1#64) s) := by
  have hpred : ∀ m, BitVec.ofNat 64 (m + 1) - 1#64 = BitVec.ofNat 64 m := fun m => by
    rw [BitVec.ofNat_add, BitVec.add_sub_cancel]
  obtain ⟨m, rfl⟩ := Nat.exists_eq_add_one_of_ne_zero (Nat.pos_iff_ne_zero.mp hpos)
  rw [hpred]
  induction left with
  | zero =>
      intro fuel s _ hfuel
      obtain ⟨fuel, rfl⟩ := Nat.exists_eq_add_one_of_ne_zero (show fuel ≠ 0 by omega)
      -- `c1` is past the last index; `c2` has wrapped by now, but is not read
      have hend : ¬ BitVec.ofNat 64 (m + 1 - 0) ≤ BitVec.ofNat 64 m := by
        rw [BitVec.le_def, BitVec.toNat_ofNat, BitVec.toNat_ofNat]
        omega
      rw [loggedReverseString.loop, if_neg hend]
      exact ⟨rfl, .pure⟩
  | succ left ih =>
      intro fuel s hleft hfuel
      obtain ⟨fuel, rfl⟩ := Nat.exists_eq_add_one_of_ne_zero (show fuel ≠ 0 by omega)
      have hgo : BitVec.ofNat 64 (m + 1 - (left + 1)) ≤ BitVec.ofNat 64 m := by
        rw [BitVec.le_def, BitVec.toNat_ofNat, BitVec.toNat_ofNat]
        omega
      have hc1 : (BitVec.ofNat 64 (m + 1 - (left + 1))).toNat = m + 1 - (left + 1) :=
        toNat_ofNat_of_lt (by omega)
      have hc2 : (BitVec.ofNat 64 left).toNat = left := toNat_ofNat_of_lt (by omega)
      have hnext : BitVec.ofNat 64 (m + 1 - (left + 1)) + 1#64 = BitVec.ofNat 64 (m + 1 - left) := by
        rw [← BitVec.ofNat_add]
        congr 1
        omega
      have hnext' : m + 1 - (left + 1) + 1 = m + 1 - left := by omega
      rw [loggedReverseString.loop, if_pos hgo, hpred, hc1, hc2, hnext]
      -- the result is the simple loop's, and both indices lie in their arrays
      constructor
      · rw [reverseString.loop, hnext']
        simp only [Logged.result_bind, result_loggedRead, result_loggedWrite]
        refine bind_congr fun c => bind_congr fun s => ?_
        exact (ih fuel s (by omega) (by omega)).1
      · refine .bind_free (within_loggedRead (fun _ => rfl) ?_ temp) fun c _ => ?_
        · show left < m + 1
          omega
        refine .bind_free (within_loggedWrite (fun _ => rfl) ?_ s c) fun s _ => ?_
        · show m + 1 - (left + 1) ≤ m + 1
          omega
        exact (ih fuel s (by omega) (by omega)).2

/-! ## `reverse_string` -/

/-- What `reverse_string` does once it has the length of its string. -/
def loggedReverseString.rest (slack fuel : Nat) (s : CString) (n : Nat) :
    Logged ReverseAccess Fault CString := do
  Logged.log (.declare (BitVec.ofNat 64 n).toNat)
  let temp ← loggedStrcpy .string .tempWrite
    (List.replicate ((BitVec.ofNat 64 n).toNat + slack) 0#8) s
  loggedReverseString.loop temp (BitVec.ofNat 64 n - 1#64) fuel 0#64 (BitVec.ofNat 64 n - 1#64) s

/-- The array is declared with the length of the string. -/
theorem loggedReverseString_eq (slack fuel : Nat) (s : CString) :
    loggedReverseString slack fuel s
      = loggedStrlen .string 0 s >>= loggedReverseString.rest slack fuel s := by
  simp only [loggedReverseString, BitVec.sub_add_cancel]
  rfl

section Reverse

variable {text : List Byte} (tail : List Byte) (hnul : 0#8 ∉ text)

include hnul

theorem result_reverse_rest (slack fuel : Nat) :
    (loggedReverseString slack fuel (text ++ 0#8 :: tail)).result
      = (loggedReverseString.rest slack fuel (text ++ 0#8 :: tail) text.length).result := by
  rw [loggedReverseString_eq, Logged.result_bind, result_loggedStrlen, strlen_text hnul]
  rfl

/-- The results are those of `reverseString`. -/
theorem result_loggedReverseString (hne : text ≠ []) (hlt : text.length < 2 ^ 64) (slack : Nat)
    {fuel : Nat} (hfuel : text.length < fuel) :
    (loggedReverseString slack fuel (text ++ 0#8 :: tail)).result
      = reverseString slack (text ++ 0#8 :: tail) := by
  have hlen : text.length ≠ 0 := fun h => hne (List.eq_nil_of_length_eq_zero h)
  have hloop := fun temp => (loggedReverse_loop temp (Nat.pos_of_ne_zero hlen) hlt text.length fuel
    (text ++ 0#8 :: tail) (Nat.le_refl _) hfuel).1
  rw [Nat.sub_self] at hloop
  rw [result_reverse_rest tail hnul, loggedReverseString.rest, toNat_ofNat_of_lt hlt,
    reverseString, strlen_text hnul]
  show _ = if text.length = 0 then _ else _
  rw [if_neg hlen]
  simp only [Logged.result_bind, Logged.result_log, result_loggedStrcpy]
  show (strcpy _ _ >>= _) = _
  exact bind_congr hloop

/-- The NUL is written behind the array. -/
theorem reverse_overruns (slack fuel : Nat) : ∃ length,
    .declare length ∈ (loggedReverseString slack fuel (text ++ 0#8 :: tail)).events ∧
    .tempWrite length ∈ (loggedReverseString slack fuel (text ++ 0#8 :: tail)).events := by
  have hle : (BitVec.ofNat 64 text.length).toNat ≤ text.length := by
    rw [BitVec.toNat_ofNat]
    exact Nat.mod_le _ _
  have hstrlen : (loggedStrlen ReverseAccess.string 0 (text ++ 0#8 :: tail)).result
      = .ok text.length := by
    rw [result_loggedStrlen, strlen_text hnul]
  -- what follows `strlen` is logged, since the string has an end
  have hrest := Logged.next_events_subset_bind hstrlen
    (loggedReverseString.rest slack fuel (text ++ 0#8 :: tail))
  rw [← loggedReverseString_eq] at hrest
  refine ⟨_, hrest (Logged.events_subset_bind _ _ List.mem_cons_self), hrest ?_⟩
  -- the copy gets to the end of the array, whatever lies behind it
  refine Logged.next_events_subset_bind (x := Logged.log _) rfl _
    (Logged.events_subset_bind _ _ (Logged.next_events_subset_bind hstrlen _ ?_))
  refine mem_loggedMemcpy_loop (text.length + 1) 0 _ (Nat.zero_le _) (by omega) ?_ ?_
  · rw [List.length_replicate]
    exact Nat.le_add_right _ _
  · rw [List.length_append, List.length_cons]
    omega

theorem reverse_bounded (hne : text ≠ []) (hlt : text.length < 2 ^ 64) (slack : Nat)
    {fuel : Nat} (hfuel : text.length < fuel) :
    ReverseBounded text.length (loggedReverseString slack fuel (text ++ 0#8 :: tail)) := by
  have hlen : text.length ≠ 0 := fun h => hne (List.eq_nil_of_length_eq_zero h)
  have hstring : ∀ j, j ≤ text.length → (ReverseAccess.string j).Allowed text.length :=
    fun _ hj => hj
  have hwrite : ∀ j, j ≤ text.length → (ReverseAccess.tempWrite j).Allowed text.length :=
    fun _ hj => hj
  rw [loggedReverseString_eq]
  refine .bind_free (within_loggedStrlen (fun _ => rfl) text 0 fun j _ hj =>
    hstring j (by omega)) fun n hn => ?_
  rw [result_loggedStrlen, strlen_text hnul] at hn
  cases hn
  refine .bind_free (.log (toNat_ofNat_of_lt hlt) rfl) fun _ _ => ?_
  refine .bind_free (within_loggedStrcpy (fun _ => rfl) (fun _ => rfl) hnul tail _ hstring hwrite)
    fun temp _ => ?_
  have hloop := (loggedReverse_loop temp (Nat.pos_of_ne_zero hlen) hlt text.length fuel
    (text ++ 0#8 :: tail) (Nat.le_refl _) hfuel).2
  rwa [Nat.sub_self] at hloop

/-- With every index checked the copy has no result. -/
theorem reverse_checked (fuel : Nat) :
    (loggedReverseString 0 fuel (text ++ 0#8 :: tail)).result = .error .outOfBounds := by
  have hcopy : strcpy (List.replicate ((BitVec.ofNat 64 text.length).toNat + 0) 0#8)
      (text ++ 0#8 :: tail) = .error .outOfBounds := by
    refine strcpy_error hnul tail ?_
    rw [List.length_replicate, BitVec.toNat_ofNat]
    exact Nat.mod_le _ _
  rw [result_reverse_rest tail hnul, loggedReverseString.rest]
  simp only [Logged.result_bind, Logged.result_log, result_loggedStrcpy, hcopy]
  rfl

/-- With room behind the array the string is reversed. -/
theorem reverse_reverses (hne : text ≠ []) (hlt : text.length < 2 ^ 64) (slack : Nat)
    {fuel : Nat} (hfuel : text.length < fuel) :
    (loggedReverseString (slack + 1) fuel (text ++ 0#8 :: tail)).result
      = .ok (text.reverse ++ 0#8 :: tail) := by
  have hs : overlay (text ++ 0#8 :: tail) (text ++ [0#8]) = text ++ 0#8 :: tail := by
    simp [overlay]
  have hrev : reverseString (slack + 1) (overlay (text ++ 0#8 :: tail) (text ++ [0#8]))
      = .ok (overlay (text ++ 0#8 :: tail) (text.reverse ++ [0#8])) :=
    reverseString_text hnul hne (by simp) slack
  rw [hs] at hrev
  rw [result_loggedReverseString tail hnul hne hlt (slack + 1) hfuel, hrev]
  simp [overlay]

end Reverse

/-- For the string "7" the array has one byte, and `temp[1]` is written. -/
theorem reverse_string_digit :
    .declare 1 ∈ (loggedReverseString 1 2 [ch '7', 0#8]).events ∧
    .tempWrite 1 ∈ (loggedReverseString 1 2 [ch '7', 0#8]).events ∧
    ¬ ReversesInPlace [ch '7'] [] (loggedReverseString 1 2 [ch '7', 0#8]) := by
  have hdeclare : .declare 1 ∈ (loggedReverseString 1 2 [ch '7', 0#8]).events := by decide
  have hwrite : .tempWrite 1 ∈ (loggedReverseString 1 2 [ch '7', 0#8]).events := by decide
  exact ⟨hdeclare, hwrite, fun h => Nat.lt_irrefl 1 (h.temp 1 1 hdeclare hwrite)⟩

/-- **`reverse_string` leaves its array.**  For every string that is not empty, however many
    bytes lie behind `temp`, a byte is written behind the declared length, and with checked
    indices there is no result.  The NUL at `temp[strlen(s)]` is the only access outside an
    array, and if there is a byte for it the string is reversed in place. -/
theorem reverse_string_overruns {text : List Byte} (hnul : 0#8 ∉ text) (hne : text ≠ [])
    (tail : List Byte) :
    (∀ slack fuel, ¬ ReversesInPlace text tail
      (loggedReverseString slack fuel (text ++ 0#8 :: tail))) ∧
    (∀ fuel, (loggedReverseString 0 fuel (text ++ 0#8 :: tail)).result = .error .outOfBounds) ∧
    (text.length < 2 ^ 64 → ∀ slack fuel, text.length < fuel →
      (∀ access ∈ (loggedReverseString slack fuel (text ++ 0#8 :: tail)).events,
        access.Allowed text.length) ∧
      (0 < slack → (loggedReverseString slack fuel (text ++ 0#8 :: tail)).result
        = .ok (text.reverse ++ 0#8 :: tail))) := by
  refine ⟨fun slack fuel h => ?_, reverse_checked tail hnul, fun hlt slack fuel hfuel => ?_⟩
  · obtain ⟨length, hdeclare, hwrite⟩ := reverse_overruns tail hnul slack fuel
    exact Nat.lt_irrefl length (h.temp length length hdeclare hwrite)
  · refine ⟨(reverse_bounded tail hnul hne hlt slack hfuel).allowed, fun hslack => ?_⟩
    obtain ⟨slack, rfl⟩ := Nat.exists_eq_add_one_of_ne_zero (Nat.pos_iff_ne_zero.mp hslack)
    exact reverse_reverses tail hnul hne hlt slack hfuel

/-- "321" and what lies behind it, with a byte to spare behind `temp`. -/
theorem reverse_string_overruns_digits :
    ¬ ReversesInPlace [ch '3', ch '2', ch '1'] [ch 'x']
      (loggedReverseString 1 4 [ch '3', ch '2', ch '1', 0#8, ch 'x']) ∧
    (loggedReverseString 1 4 [ch '3', ch '2', ch '1', 0#8, ch 'x']).result
      = .ok [ch '1', ch '2', ch '3', 0#8, ch 'x'] :=
  have h := reverse_string_overruns (by decide : 0#8 ∉ [ch '3', ch '2', ch '1']) (by decide) [ch 'x']
  ⟨h.1 1 4, (h.2.2 (by decide) 1 4 (by decide)).2 (by decide)⟩

end EchOS
