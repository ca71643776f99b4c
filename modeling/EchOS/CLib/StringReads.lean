/-
  EchOS.CLib.StringReads

  Accesses to char arrays that are logged, one by one and by `strlen`, `memcpy` and
  `strcpy`.
-/
import EchOS.CLib.String
import EchOS.Lib.Logged

namespace EchOS

open CArray (Fault read write)

variable {Event : Type}

/-- `str[i]` -/
def loggedRead (event : Nat → Event) (str : CString) (i : Nat) : Logged Event Fault Byte := do
  Logged.log (event i)
  Logged.lift (read str i)

/-- `strlen(str)`, from `str[i]` on. -/
def loggedStrlen (event : Nat → Event) : (i : Nat) → (str : CString) → Logged Event Fault Nat
  | i, [] => do
      Logged.log (event i)
      Logged.lift (.error .outOfBounds)
  | i, c :: str => do
      Logged.log (event i)
      if c = 0#8 then pure 0
      else do
        let length ← loggedStrlen event (i + 1) str
        pure (length + 1)

/-- `dest[i] = c` -/
def loggedWrite (event : Nat → Event) (dest : CString) (i : Nat) (c : Byte) :
    Logged Event Fault CString := do
  Logged.log (event i)
  Logged.lift (write dest i c)

/-- The loop of `memcpy`. -/
def loggedMemcpy.loop (srcEvent destEvent : Nat → Event) (src : CString) :
    (left counter : Nat) → CString → Logged Event Fault CString
  | 0, _, dest => pure dest
  | left + 1, counter, dest => do
      let c ← loggedRead srcEvent src counter
      let dest ← loggedWrite destEvent dest counter c
      loggedMemcpy.loop srcEvent destEvent src left (counter + 1) dest

/-- `memcpy` -/
def loggedMemcpy (srcEvent destEvent : Nat → Event) (dest src : CString) (length : Nat) :
    Logged Event Fault CString :=
  loggedMemcpy.loop srcEvent destEvent src length 0 dest

/-- `strcpy` -/
def loggedStrcpy (srcEvent destEvent : Nat → Event) (dest src : CString) :
    Logged Event Fault CString := do
  let length ← loggedStrlen srcEvent 0 src
  loggedMemcpy srcEvent destEvent dest src (length + 1)

@[simp] theorem result_loggedRead (event : Nat → Event) (str : CString) (i : Nat) :
    (loggedRead event str i).result = read str i := rfl

@[simp] theorem result_loggedStrlen (event : Nat → Event) (i : Nat) (str : CString) :
    (loggedStrlen event i str).result = strlen str := by
  induction str generalizing i with
  | nil => rfl
  | cons c str ih =>
      rw [loggedStrlen, strlen, Logged.result_bind, Logged.result_log]
      show Logged.result (if c = 0#8 then _ else _) = _
      rw [Logged.result_ite, Logged.result_bind, ih]
      cases strlen str <;> rfl

@[simp] theorem result_loggedWrite (event : Nat → Event) (dest : CString) (i : Nat) (c : Byte) :
    (loggedWrite event dest i c).result = write dest i c := rfl

theorem result_loggedMemcpy_loop (srcEvent destEvent : Nat → Event) (src : CString) (left : Nat) :
    ∀ (counter : Nat) (dest : CString),
      (loggedMemcpy.loop srcEvent destEvent src left counter dest).result
        = memcpy.loop src left counter dest := by
  induction left with
  | zero => exact fun _ _ => rfl
  | succ left ih =>
      intro counter dest
      simp only [loggedMemcpy.loop, Logged.result_bind, result_loggedRead, result_loggedWrite, ih]
      rfl

@[simp] theorem result_loggedStrcpy (srcEvent destEvent : Nat → Event) (dest src : CString) :
    (loggedStrcpy srcEvent destEvent dest src).result = strcpy dest src := by
  simp only [loggedStrcpy, loggedMemcpy, Logged.result_bind, result_loggedStrlen,
    result_loggedMemcpy_loop]
  rfl

/-- The loop of `memcpy` writes to every index it comes to, inside the destination or, for
    the first one, behind it. -/
theorem mem_loggedMemcpy_loop {srcEvent destEvent : Nat → Event} {src : CString} {k : Nat}
    (left : Nat) : ∀ (counter : Nat) (dest : CString), counter ≤ k → k < counter + left →
      k ≤ dest.length → k < src.length →
      destEvent k ∈ (loggedMemcpy.loop srcEvent destEvent src left counter dest).events := by
  induction left with
  | zero => exact fun counter _ hle hlt => absurd hlt (Nat.not_lt.mpr hle)
  | succ left ih =>
      intro counter dest hle hlt hdest hsrc
      have hcounter : counter < src.length := Nat.lt_of_le_of_lt hle hsrc
      have hread : read src counter = .ok src[counter] :=
        CArray.read_of_drop (List.drop_eq_getElem_cons hcounter)
      refine Logged.next_events_subset_bind (x := loggedRead srcEvent src counter) hread _ ?_
      rcases Nat.eq_or_lt_of_le hle with rfl | hlt'
      -- the index of this turn: the write is logged even if it fails
      · exact Logged.events_subset_bind _ _ (Logged.events_subset_bind _ _ List.mem_cons_self)
      -- a later index: this turn still writes inside the destination
      · have hwrite : write dest counter src[counter] = .ok (dest.set counter src[counter]) :=
          if_pos (Nat.lt_of_lt_of_le hlt' hdest)
        refine Logged.next_events_subset_bind
          (x := loggedWrite destEvent dest counter src[counter]) hwrite _ ?_
        exact ih (counter + 1) _ hlt' (by omega) (by rwa [List.length_set]) hsrc

section Within

variable {allowed : Event → Prop} {kind : Event → Bool} {event : Nat → Event}
  (hkind : ∀ i, kind (event i) = false)

include hkind

theorem within_loggedRead {i : Nat} (h : allowed (event i)) (str : CString) :
    (loggedRead event str i).Within allowed kind 0 :=
  .bind_free (.log h (hkind i)) fun _ _ => .lift

theorem within_loggedWrite {i : Nat} (h : allowed (event i)) (dest : CString) (c : Byte) :
    (loggedWrite event dest i c).Within allowed kind 0 :=
  .bind_free (.log h (hkind i)) fun _ _ => .lift

/-- `strlen` stops at the NUL. -/
theorem within_loggedStrlen {tail : CString} (text : List Byte) :
    ∀ i, (∀ j, i ≤ j → j ≤ i + text.length → allowed (event j)) →
      (loggedStrlen event i (text ++ 0#8 :: tail)).Within allowed kind 0 := by
  induction text with
  | nil =>
      intro i h
      refine .bind_free (.log (h i (Nat.le_refl _) (Nat.le_refl _)) (hkind i)) fun _ _ => ?_
      exact .ite (fun _ => .pure) fun h => absurd rfl h
  | cons c text ih =>
      intro i h
      refine .bind_free (.log (h i (Nat.le_refl _) (Nat.le_add_right _ _)) (hkind i)) fun _ _ => ?_
      refine .ite (fun _ => .pure) fun _ => .bind_free (ih (i + 1) fun j hle hle' => ?_) fun _ _ => .pure
      rw [List.length_cons] at h
      exact h j (by omega) (by omega)

variable {event' : Nat → Event} (hkind' : ∀ i, kind (event' i) = false)

include hkind'

theorem within_loggedMemcpy_loop {src : CString} (left : Nat) : ∀ (counter : Nat) (dest : CString),
    (∀ j, j < counter + left → allowed (event j)) → (∀ j, j < counter + left → allowed (event' j)) →
      (loggedMemcpy.loop event event' src left counter dest).Within allowed kind 0 := by
  induction left with
  | zero => exact fun _ _ _ _ => .pure
  | succ left ih =>
      intro counter dest h h'
      have hcounter : counter < counter + (left + 1) := Nat.lt_add_of_pos_right (Nat.succ_pos left)
      refine .bind_free (within_loggedRead hkind (h counter hcounter) src) fun c _ => ?_
      refine .bind_free (within_loggedWrite hkind' (h' counter hcounter) dest c) fun dest _ => ?_
      exact ih (counter + 1) dest (fun j hj => h j (by omega)) fun j hj => h' j (by omega)

/-- `strcpy` reads and writes up to the NUL. -/
theorem within_loggedStrcpy {text : List Byte} (hnul : 0#8 ∉ text) (tail dest : CString)
    (h : ∀ j, j ≤ text.length → allowed (event j)) (h' : ∀ j, j ≤ text.length → allowed (event' j)) :
    (loggedStrcpy event event' dest (text ++ 0#8 :: tail)).Within allowed kind 0 := by
  refine .bind_free (within_loggedStrlen hkind text 0 fun j _ hj => h j (by omega)) fun n hn => ?_
  rw [result_loggedStrlen, strlen_text hnul] at hn
  cases hn
  exact within_loggedMemcpy_loop hkind hkind' _ 0 dest (fun j hj => h j (by omega))
    fun j hj => h' j (by omega)

end Within

end EchOS
