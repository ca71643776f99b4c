/-
  EchOS.CLib.VsprintfReads

  `vsprintf` reads its format up to the NUL and no further, comes to an end, and
  fetches at most one argument for each '%'.

  Here the code logs every read of the format, those of `strlen` among them, and every
  argument it fetches; its results are those of `vsprintf` (`logged_result`).  In a
  turn the index only moves past characters that were found to be no NUL.
-/
import EchOS.CLib.StringReads
import EchOS.CLib.VsprintfRenders
import EchOS.CLib.VsprintfScan

namespace EchOS

open CArray (Fault read)

/-- What `vsprintf` does with its format and its arguments. -/
inductive Access where
  | format (i : Nat)
  | fetch
  deriving Repr, DecidableEq

/-- `va_arg` -/
def fetch {α : Type} (va : List VaArg → Except Fault (α × List VaArg)) (arg : List VaArg) :
    Logged Access Fault (α × List VaArg) := do
  Logged.log .fetch
  Logged.lift (va arg)

/-! ## The code -/

/-- The switch on the character after a '%'. -/
def loggedDirective (format : CString) (st : VsState) : Logged Access Fault VsState := do
  let c ← loggedRead .format format st.i
  if c = ch 'c' then do
    let value ← fetch vaInt st.arg
    pure ({ st with i := st.i + 1, arg := value.2 }.put (value.1.setWidth 8))
  else if c = ch 'd' then do
    let value ← fetch vaInt st.arg
    let temp ← Logged.lift (itoa value.1 st.temp 10#32)
    Logged.lift ({ st with i := st.i + 1, arg := value.2, temp }.putString temp)
  else if c = ch 'x' then do
    let value ← fetch vaInt st.arg
    let temp ← Logged.lift (x32toa value.1 st.temp)
    Logged.lift ({ st with i := st.i + 1, arg := value.2, temp }.putString temp)
  else if c = ch 'l' then do
    -- long
    let c ← loggedRead .format format (st.i + 1)
    if c = ch 'l' then do
      -- long long
      let c ← loggedRead .format format (st.i + 2)
      if c = ch 'x' then do
        let value ← fetch vaUint64 st.arg
        let temp ← Logged.lift (x64toa value.1 st.temp)
        Logged.lift ({ st with i := st.i + 3, arg := value.2, temp }.putString temp)
      else pure { st with i := st.i + 2 }
    else pure { st with i := st.i + 1 }
  else if c = ch 's' then do
    let value ← fetch vaString st.arg
    Logged.lift ({ st with i := st.i + 1, arg := value.2 }.putString value.1)
  else pure st

/-- The loop body up to there. -/
def loggedSpecial (format : CString) (st : VsState) : Logged Access Fault VsState := do
  let c ← loggedRead .format format st.i
  if c = ch '%' then loggedDirective format { st with i := st.i + 1 } else pure st

/-- The rest of the loop body. -/
def loggedCopyNext (format : CString) (st : VsState) : Logged Access Fault VsState := do
  let c ← loggedRead .format format st.i
  pure { st.put c with i := st.i + 1 }

/-- The loop of `vsprintf`. -/
def loggedLoop (format : CString) : (fuel : Nat) → VsState → Logged Access Fault VsState
  | 0, _ => Logged.lift (.error .outOfFuel)
  | fuel + 1, st => do
      let length ← loggedStrlen .format 0 format
      if st.i < length then do
        let st ← loggedSpecial format st
        let st ← loggedCopyNext format st
        loggedLoop format fuel st
      else pure st

/-- `vsprintf` with its log. -/
def loggedVsprintf (str : Nat → Byte) (format : CString) (arg : List VaArg) :
    Logged Access Fault ((Nat → Byte) × Nat) := do
  let st ← loggedLoop format format.length
    { i := 0, arg, temp := List.replicate 32 0#8, str, written := 0 }
  pure (st.str, st.written)

/-! ## Its results -/

@[simp] theorem result_fetch {α : Type} (va : List VaArg → Except Fault (α × List VaArg))
    (arg : List VaArg) : (fetch va arg).result = va arg := rfl

theorem result_loggedDirective (format : CString) (st : VsState) :
    (loggedDirective format st).result = vsprintf.directive format st := by
  simp only [loggedDirective, Logged.result_bind, Logged.result_ite, Logged.result_pure,
    Logged.result_lift, result_loggedRead, result_fetch]
  rfl

theorem result_loggedSpecial (format : CString) (st : VsState) :
    (loggedSpecial format st).result = vsprintf.special format st := by
  simp only [loggedSpecial, Logged.result_bind, Logged.result_ite, Logged.result_pure,
    result_loggedRead, result_loggedDirective]
  rfl

theorem result_loggedCopyNext (format : CString) (st : VsState) :
    (loggedCopyNext format st).result = vsprintf.copyNext format st := by
  simp only [loggedCopyNext, Logged.result_bind, Logged.result_pure, result_loggedRead]
  rfl

theorem result_loggedLoop (format : CString) (fuel : Nat) (st : VsState) :
    (loggedLoop format fuel st).result = vsprintf.loop format fuel st := by
  induction fuel generalizing st with
  | zero => rfl
  | succ fuel ih =>
      simp only [loggedLoop, Logged.result_bind, Logged.result_ite, Logged.result_pure,
        result_loggedStrlen, result_loggedSpecial, result_loggedCopyNext, ih]
      rfl

theorem logged_result (str : Nat → Byte) (format : CString) (arg : List VaArg) :
    (loggedVsprintf str format arg).result = vsprintf str format arg := by
  simp only [loggedVsprintf, Logged.result_bind, Logged.result_pure, result_loggedLoop]
  rfl

/-! ## Its accesses -/

/-- An access to no more than the first `n + 1` characters of the format. -/
def Access.UpTo (n : Nat) : Access → Prop
  | .format i => i ≤ n
  | .fetch => True

def Access.isFetch : Access → Bool
  | .format _ => false
  | .fetch => true

/-- The format is read up to its NUL, and at most `n` arguments are fetched. -/
abbrev Bounded {α : Type} (chars : List Byte) (n : Nat) (x : Logged Access Fault α) : Prop :=
  x.Within (Access.UpTo chars.length) Access.isFetch n

section Accesses

variable {chars tail : List Byte} {st : VsState}

theorem bounded_loggedRead (format : CString) {i : Nat} (hi : i ≤ chars.length) :
    Bounded chars 0 (loggedRead .format format i) :=
  within_loggedRead (fun _ => rfl) hi format

/-- The one fetch of a directive. -/
theorem bounded_fetch {α β : Type} (va : List VaArg → Except Fault (α × List VaArg))
    (arg : List VaArg) {next : α × List VaArg → Logged Access Fault β}
    (hnext : ∀ value, Bounded chars 0 (next value)) : Bounded chars 1 (fetch va arg >>= next) := by
  have hfetch : Bounded chars 1 (fetch va arg) :=
    .bind (n := 0) (.log_kind trivial) fun _ _ => .lift
  exact hfetch.bind fun value _ => hnext value

/-- A character that is no NUL lies before the NUL. -/
theorem lt_of_read {i : Nat} {c : Byte} (hi : i ≤ chars.length)
    (hread : read (chars ++ 0#8 :: tail) i = .ok c) (hc : c ≠ 0#8) : i < chars.length := by
  refine Nat.lt_of_le_of_ne hi fun heq => hc ?_
  have hdrop : (chars ++ 0#8 :: tail).drop i = 0#8 :: tail := by rw [heq, List.drop_left]
  rw [CArray.read_of_drop hdrop] at hread
  exact (Except.ok.inj hread).symm

theorem bounded_loggedDirective (hi : st.i ≤ chars.length) :
    Bounded chars 1 (loggedDirective (chars ++ 0#8 :: tail) st) := by
  have hl : ch 'l' ≠ 0#8 := by decide
  have hput : ∀ {st : VsState} {s : CString}, Bounded chars 0 (Logged.lift (st.putString s)) := .lift
  refine .bind_free (bounded_loggedRead _ hi) fun c hread => ?_
  refine .ite (fun _ => bounded_fetch _ _ fun _ => .pure) fun _ => ?_
  refine .ite (fun _ => bounded_fetch _ _ fun _ => .bind_free .lift fun _ _ => .lift) fun _ => ?_
  refine .ite (fun _ => bounded_fetch _ _ fun _ => .bind_free .lift fun _ _ => .lift) fun _ => ?_
  refine .ite (fun hc => ?_) fun _ => .ite (fun _ => bounded_fetch _ _ fun _ => .lift) fun _ => .pure
  -- an 'l' is no NUL, so there is a character behind it
  have hi1 := lt_of_read hi hread (hc ▸ hl)
  refine .bind_free (bounded_loggedRead _ hi1) fun c hread => .ite (fun hc => ?_) fun _ => .pure
  have hi2 := lt_of_read hi1 hread (hc ▸ hl)
  refine .bind_free (bounded_loggedRead _ hi2) fun c _ => .ite (fun _ => ?_) fun _ => .pure
  exact bounded_fetch _ _ fun _ => .bind_free .lift fun _ _ => .lift

theorem count_drop_succ {i : Nat} (hi : i < chars.length) (c : Byte) :
    (chars.drop i).count c = (if chars[i] = c then 1 else 0) + (chars.drop (i + 1)).count c := by
  rw [List.drop_eq_getElem_cons hi, List.count_cons, Nat.add_comm]
  simp only [beq_iff_eq]

/-- A turn fetches an argument only behind a '%'. -/
theorem bounded_loggedSpecial (hi : st.i < chars.length) :
    Bounded chars (if chars[st.i] = ch '%' then 1 else 0)
      (loggedSpecial (chars ++ 0#8 :: tail) st) := by
  have hdrop := drop_format tail (Nat.le_of_lt hi)
  rw [List.drop_eq_getElem_cons hi] at hdrop
  refine .bind_free (bounded_loggedRead _ (Nat.le_of_lt hi)) fun c hc => ?_
  rw [result_loggedRead, CArray.read_of_drop hdrop] at hc
  cases hc
  split
  · exact bounded_loggedDirective hi
  · exact .pure

/-- Where the index is after the special part of a turn. -/
theorem special_moves {st' : VsState} (hi : st.i < chars.length) (htemp : TempOk st.temp)
    (h : vsprintf.special (chars ++ 0#8 :: tail) st = .ok st') :
    st.i ≤ st'.i ∧ st'.i ≤ chars.length ∧ TempOk st'.temp := by
  have hskip := scanTurn_skip_le (chars.drop st.i)
  rw [List.length_drop] at hskip
  -- `scanTurn` tells how far a turn moves on, whatever it reads
  cases hread : (scanTurn (chars.drop st.i)).directive with
  | none =>
      rw [special_of_none tail hi hread] at h
      cases h
      exact ⟨Nat.le_add_right _ _, by show st.i + _ ≤ _; omega, htemp⟩
  | some d =>
      rcases special_of_some tail hi htemp hread with
        ⟨fault, hfault, _⟩ | ⟨a, arg, text, temp', _, hemit, hok⟩
      · rw [hfault] at h
        cases h
      · rw [hok] at h
        cases h
        obtain ⟨hmoved, -, htemp'⟩ := VsState.putAll_frame
          { st with i := st.i + (scanTurn (chars.drop st.i)).skip, arg, temp := temp' } text
        rw [hmoved, htemp']
        exact ⟨Nat.le_add_right _ _, by show st.i + _ ≤ _; omega,
          Directive.emit_tempOk htemp hemit⟩

theorem bounded_loggedLoop (hnul : 0#8 ∉ chars) (tail : List Byte) (fuel : Nat) :
    ∀ st : VsState, TempOk st.temp → Bounded chars ((chars.drop st.i).count (ch '%'))
      (loggedLoop (chars ++ 0#8 :: tail) fuel st) := by
  induction fuel with
  | zero => exact fun _ _ => .lift
  | succ fuel ih =>
      intro st htemp
      have hstrlen : Bounded chars 0 (loggedStrlen .format 0 (chars ++ 0#8 :: tail)) :=
        within_loggedStrlen (fun _ => rfl) chars 0 fun j _ hj => by rwa [Nat.zero_add] at hj
      refine .bind_free hstrlen fun length hlength => ?_
      rw [result_loggedStrlen, strlen_text hnul] at hlength
      cases hlength
      refine .ite (fun hi => ?_) fun _ => .pure
      rw [count_drop_succ hi]
      refine .bind (bounded_loggedSpecial hi) fun st1 hspecial => ?_
      rw [result_loggedSpecial] at hspecial
      obtain ⟨hle, hle', htemp'⟩ := special_moves hi htemp hspecial
      have hcopy : Bounded chars 0 (loggedCopyNext (chars ++ 0#8 :: tail) st1) :=
        .bind_free (bounded_loggedRead _ hle') fun _ _ => .pure
      refine .bind_free hcopy fun st2 hst2 => ?_
      rw [result_loggedCopyNext] at hst2
      obtain ⟨c, -, hst2⟩ := except_bind_ok hst2
      cases hst2
      -- what is left is a part of what was left before
      refine (ih { st1.put c with i := st1.i + 1 } htemp').mono ?_
      exact (List.drop_sublist_drop_left chars (Nat.succ_le_succ hle)).count_le _

end Accesses

/-! ## It comes to an end -/

theorem read_ne_outOfFuel {α : Type} (a : List α) (i : Nat) : CArray.read a i ≠ .error .outOfFuel := by
  intro h
  unfold CArray.read at h
  split at h <;> cases h

theorem strlen_ne_outOfFuel (s : CString) : strlen s ≠ .error .outOfFuel := by
  by_cases h : 0#8 ∈ s
  · rw [strlen_takeWhile h]
    exact except_ok_ne_error
  · rw [strlen_eq_error h]
    intro h
    cases h

theorem vaInt_ne_outOfFuel (arg : List VaArg) : vaInt arg ≠ .error .outOfFuel := by
  intro h
  unfold vaInt at h
  split at h <;> cases h

theorem vaUint64_ne_outOfFuel (arg : List VaArg) : vaUint64 arg ≠ .error .outOfFuel := by
  intro h
  unfold vaUint64 at h
  split at h <;> cases h

theorem vaString_ne_outOfFuel (arg : List VaArg) : vaString arg ≠ .error .outOfFuel := by
  intro h
  unfold vaString at h
  split at h <;> cases h

theorem putString_ne_outOfFuel (st : VsState) (s : CString) :
    st.putString s ≠ .error .outOfFuel :=
  except_bind_ne_error (strlen_ne_outOfFuel s) fun _ _ => except_ok_ne_error

theorem directive_ne_outOfFuel (format : CString) {st : VsState} (htemp : TempOk st.temp) :
    vsprintf.directive format st ≠ .error .outOfFuel := by
  have hlen := htemp.length
  refine except_bind_ne_error (read_ne_outOfFuel _ _) fun c _ => ?_
  split
  · exact except_bind_ne_error (vaInt_ne_outOfFuel _) fun _ _ => except_ok_ne_error
  split
  · refine except_bind_ne_error (vaInt_ne_outOfFuel _) fun value _ => ?_
    rw [itoa_text value.1 (by omega)]
    exact putString_ne_outOfFuel _ _
  split
  · refine except_bind_ne_error (vaInt_ne_outOfFuel _) fun value _ => ?_
    rw [x32toa_text value.1 (by omega)]
    exact putString_ne_outOfFuel _ _
  split
  · refine except_bind_ne_error (read_ne_outOfFuel _ _) fun c _ => ?_
    split
    · refine except_bind_ne_error (read_ne_outOfFuel _ _) fun c _ => ?_
      split
      · refine except_bind_ne_error (vaUint64_ne_outOfFuel _) fun value _ => ?_
        rw [x64toa_text value.1 (by omega)]
        exact putString_ne_outOfFuel _ _
      · exact except_ok_ne_error
    · exact except_ok_ne_error
  split
  · exact except_bind_ne_error (vaString_ne_outOfFuel _) fun _ _ => putString_ne_outOfFuel _ _
  · exact except_ok_ne_error

theorem special_ne_outOfFuel (format : CString) {st : VsState} (htemp : TempOk st.temp) :
    vsprintf.special format st ≠ .error .outOfFuel := by
  refine except_bind_ne_error (read_ne_outOfFuel _ _) fun c _ => ?_
  split
  · exact directive_ne_outOfFuel format htemp
  · exact except_ok_ne_error

/-- Every turn moves the index on. -/
theorem loop_ne_outOfFuel {chars : List Byte} (hnul : 0#8 ∉ chars) (tail : List Byte) (fuel : Nat) :
    ∀ st : VsState, TempOk st.temp → chars.length - st.i < fuel →
      vsprintf.loop (chars ++ 0#8 :: tail) fuel st ≠ .error .outOfFuel := by
  induction fuel with
  | zero => exact fun _ _ h => absurd h (Nat.not_lt_zero _)
  | succ fuel ih =>
      intro st htemp hfuel
      rw [vsprintf.loop, strlen_text hnul]
      show (if st.i < chars.length then _ else _) ≠ _
      split
      · next hi =>
          refine except_bind_ne_error (special_ne_outOfFuel _ htemp) fun st1 hspecial => ?_
          obtain ⟨hle, -, htemp'⟩ := special_moves hi htemp hspecial
          refine except_bind_ne_error ?_ fun st2 hcopy => ?_
          · exact except_bind_ne_error (read_ne_outOfFuel _ _) fun _ _ => except_ok_ne_error
          · obtain ⟨c, -, hcopy⟩ := except_bind_ok hcopy
            cases hcopy
            refine ih _ htemp' ?_
            show chars.length - (st1.i + 1) < fuel
            omega
      · exact except_ok_ne_error

/-- **`vsprintf` stays in its format.**  For every format up to its NUL, whatever lies
    behind it, and every argument list: the logged code has the results of `vsprintf`,
    it comes to an end, it reads no character behind the NUL, and it fetches no more
    arguments than there are '%'s. -/
theorem vsprintf_stays_in_format {chars : List Byte} (hnul : 0#8 ∉ chars) (tail : List Byte)
    (str : Nat → Byte) (arg : List VaArg) :
    (loggedVsprintf str (chars ++ 0#8 :: tail) arg).result
      = vsprintf str (chars ++ 0#8 :: tail) arg ∧
    vsprintf str (chars ++ 0#8 :: tail) arg ≠ .error .outOfFuel ∧
    (∀ i, .format i ∈ (loggedVsprintf str (chars ++ 0#8 :: tail) arg).events → i ≤ chars.length) ∧
    (loggedVsprintf str (chars ++ 0#8 :: tail) arg).events.countP Access.isFetch
      ≤ chars.count (ch '%') := by
  have hbounded : Bounded chars (chars.count (ch '%'))
      (loggedVsprintf str (chars ++ 0#8 :: tail) arg) := by
    have hloop := bounded_loggedLoop hnul tail (chars ++ 0#8 :: tail).length
      { i := 0, arg, temp := List.replicate 32 0#8, str, written := 0 } tracks_zero.toTempOk
    exact hloop.bind (n := 0) fun _ _ => .pure
  refine ⟨logged_result _ _ _, ?_, fun i hi => hbounded.allowed _ hi, hbounded.count⟩
  refine except_bind_ne_error (loop_ne_outOfFuel hnul tail _ _ tracks_zero.toTempOk ?_) fun _ _ =>
    except_ok_ne_error
  show chars.length - 0 < (chars ++ 0#8 :: tail).length
  rw [List.length_append, List.length_cons]
  omega

/-- "%ll" and then something behind its NUL. -/
theorem vsprintf_stays_in_format_cut :
    (loggedVsprintf (fun _ => 0#8) [ch '%', ch 'l', ch 'l', 0#8, ch 'x'] []).events.countP
      Access.isFetch ≤ 1 :=
  (vsprintf_stays_in_format (by decide : 0#8 ∉ [ch '%', ch 'l', ch 'l']) [ch 'x'] _ []).2.2.2

end EchOS
