/-
  EchOS.CLib.VsprintfTexts

  What `vsprintf` writes for one directive, and when that is its own text.

  `vsprintf.turns` runs the loop and keeps what each turn writes.  The text of a
  directive depends on the arguments of other directives in two ways: the argument
  it gets is the next one left, which is another's if directives before it were
  swallowed, and %x prints what they left in `temp` (`Undisturbed`).
-/
import EchOS.CLib.ItoaDecimal
import EchOS.CLib.VsprintfMisreads

namespace EchOS

open CArray (Fault)

/-! ## The text of each turn -/

/-- What a turn of the loop writes: for what stands at `start`, and the copy of the
    next character. -/
structure TurnText where
  start : Nat
  text : List Byte
  copied : List Byte

/-- The characters written since `st`. -/
def VsState.since (st st' : VsState) : List Byte :=
  (List.range' st.written (st'.written - st.written)).map st'.str

/-- The loop of `vsprintf`, with what each turn writes. -/
def vsprintf.turns (format : CString) : (fuel : Nat) → VsState → Except Fault (List TurnText)
  | 0, _ => .error .outOfFuel
  | fuel + 1, st => do
      let length ← strlen format
      if st.i < length then do
        let special ← vsprintf.special format st
        let next ← vsprintf.copyNext format special
        let turns ← vsprintf.turns format fuel next
        .ok (⟨st.i, st.since special, special.since next⟩ :: turns)
      else .ok []

/-- The text of the turn that starts at `p`; none is written there if none does. -/
def textOf (turns : List TurnText) (p : Nat) : List Byte :=
  ((turns.find? fun turn => turn.start = p).map TurnText.text).getD []

/-- The characters that `vsprintf` writes for what stands at `p` in the format. -/
def vsprintf.textAt (format : CString) (arg : List VaArg) (p : Nat) : Except Fault (List Byte) := do
  let turns ← vsprintf.turns format format.length
    { i := 0, arg, temp := List.replicate 32 0#8, str := fun _ => 0#8, written := 0 }
  .ok (textOf turns p)

theorem VsState.Wrote.since {st st' : VsState} {str : Nat → Byte} {out more : List Byte}
    (h : st.Wrote str out) (h' : st'.Wrote str (out ++ more)) : st.since st' = more := by
  unfold VsState.since
  rw [h.written, h'.written, h'.str_eq, List.length_append, Nat.add_sub_cancel_left]
  refine List.ext_getElem (by simp) fun k hk hk' => ?_
  simp [stored, hk']

/-! ## The arguments that the turns need -/

/-- Every directive gets an argument of its type. -/
def Fits : List Directive → List VaArg → Prop
  | [], _ => True
  | _ :: _, [] => False
  | d :: ds, a :: arg => (d.render a).isSome ∧ Fits ds arg

/-- Whether the directives before the `j`-th leave a character behind the first 8 of
    `temp`. -/
def dirtyAt : Bool → List Directive → List VaArg → (j : Nat) → Bool
  | dirty, d :: ds, a :: arg, j + 1 => dirtyAt (d.dirties a dirty) ds arg j
  | dirty, _, _, _ => dirty

theorem Fits.exists_arg {ds : List Directive} {arg : List VaArg} (h : Fits ds arg) {j : Nat}
    {d : Directive} (hd : ds[j]? = some d) : ∃ a, arg[j]? = some a ∧ (d.render a).isSome := by
  induction ds generalizing arg j with
  | nil => cases hd
  | cons e ds ih =>
      cases arg with
      | nil => exact h.elim
      | cons a arg =>
          cases j with
          | zero =>
              cases hd
              exact ⟨a, rfl, h.1⟩
          | succ j => exact ih h.2 hd

/-- The code has a text for the arguments that fit. -/
theorem isSome_emit (d : Directive) (a : VaArg) (temp : CString) :
    (d.emit a temp).isSome = (d.render a).isSome := by
  cases d <;> cases a <;> try rfl
  next value =>
    show (if _ then some _ else none).isSome = (if _ then some _ else none).isSome
    split <;> rfl

theorem Tracks.emit {d : Directive} {a : VaArg} {temp temp' : CString} {dirty : Bool}
    {text : List Byte} (h : Tracks temp dirty) (hemit : d.emit a temp = some (text, temp')) :
    Tracks temp' (d.dirties a dirty) := by
  have hrender : (d.render a).isSome := by rw [← isSome_emit d a temp, hemit]; rfl
  obtain ⟨_, hrender⟩ := Option.isSome_iff_exists.mp hrender
  obtain ⟨_, _, hemit', htracks, -⟩ := emit_render h hrender
  rw [hemit] at hemit'
  cases hemit'
  exact htracks

/-- The result of the turns that read the directives `seen`: each writes what the code
    has for its directive, and nothing is written at other places. -/
def TurnsAs (seen : List Seen) (arg : List VaArg) (dirty : Bool) :
    Except Fault (List TurnText) → Prop
  | .error _ => ¬ Fits (seen.map Seen.directive) arg
  | .ok turns => Fits (seen.map Seen.directive) arg ∧
      (∀ p, (∀ x ∈ seen, x.start ≠ p) → textOf turns p = []) ∧
      ∀ j x a, seen[j]? = some x → arg[j]? = some a → ∃ temp temp',
        Tracks temp (dirtyAt dirty (seen.map Seen.directive) arg j) ∧
          x.directive.emit a temp = some (textOf turns x.start, temp')

theorem textOf_cons (turn : TurnText) (turns : List TurnText) (p : Nat) :
    textOf (turn :: turns) p = if turn.start = p then turn.text else textOf turns p := by
  unfold textOf
  rw [List.find?_cons]
  by_cases h : turn.start = p <;> simp [h]

theorem TurnsAs.nil (arg : List VaArg) (dirty : Bool) : TurnsAs [] arg dirty (.ok []) :=
  ⟨trivial, fun _ _ => rfl, fun _ _ _ hx => nomatch hx⟩

/-- No argument fits a directive for which the code has no text. -/
theorem TurnsAs.fault {seen : List Seen} {arg : List VaArg} {dirty : Bool} {x : Seen}
    {temp : CString} (h : ∀ a rest, arg = a :: rest → x.directive.emit a temp = none)
    (fault : Fault) : TurnsAs (x :: seen) arg dirty (.error fault) := by
  cases arg with
  | nil => exact not_false
  | cons a arg =>
      rintro ⟨hrender, -⟩
      rw [← isSome_emit x.directive a temp, h a arg rfl] at hrender
      cases hrender

theorem TurnsAs.other {seen : List Seen} {arg : List VaArg} {dirty : Bool}
    {result : Except Fault (List TurnText)} (h : TurnsAs seen arg dirty result) {turn : TurnText}
    (htext : turn.text = []) (hlater : ∀ x ∈ seen, turn.start < x.start) :
    TurnsAs seen arg dirty (result.map (turn :: ·)) := by
  cases result with
  | error fault => exact h
  | ok turns =>
      obtain ⟨hfits, hnone, hsome⟩ := h
      refine ⟨hfits, fun p hp => ?_, fun j x a hx ha => ?_⟩
      · rw [textOf_cons]
        split
        · exact htext
        · exact hnone p hp
      · rw [textOf_cons, if_neg (Nat.ne_of_lt (hlater x (List.mem_of_getElem? hx)))]
        exact hsome j x a hx ha

theorem TurnsAs.directive {seen : List Seen} {arg : List VaArg} {dirty : Bool} {d : Directive}
    {a : VaArg} {result : Except Fault (List TurnText)}
    (h : TurnsAs seen arg (d.dirties a dirty) result) {turn : TurnText} {temp temp' : CString}
    (htemp : Tracks temp dirty) (hemit : d.emit a temp = some (turn.text, temp'))
    (hlater : ∀ x ∈ seen, turn.start < x.start) :
    TurnsAs (⟨turn.start, d⟩ :: seen) (a :: arg) dirty (result.map (turn :: ·)) := by
  have hrender : (d.render a).isSome := by rw [← isSome_emit d a temp, hemit]; rfl
  cases result with
  | error fault => exact fun hfits => h hfits.2
  | ok turns =>
      obtain ⟨hfits, hnone, hsome⟩ := h
      refine ⟨⟨hrender, hfits⟩, fun p hp => ?_, fun j x a' hx ha' => ?_⟩
      · rw [textOf_cons, if_neg (hp _ List.mem_cons_self)]
        exact hnone p fun x hx => hp x (List.mem_cons_of_mem _ hx)
      · cases j with
        | zero =>
            cases hx
            cases ha'
            rw [textOf_cons, if_pos rfl]
            exact ⟨temp, temp', htemp, hemit⟩
        | succ j =>
            rw [textOf_cons, if_neg (Nat.ne_of_lt (hlater x (List.mem_of_getElem? hx)))]
            exact hsome j x a' hx ha'

/-! ## The turns of a run -/

/-- With at most `fuel` characters left the code does what the directives left ask for. -/
def TurnsRest (chars : List Byte) (str : Nat → Byte) (fuel : Nat) : Prop :=
  ∀ (n : Nat) (st : VsState) (out : List Byte) (dirty : Bool), Tracks st.temp dirty →
    st.Wrote str out → (chars.drop st.i).length ≤ fuel → (chars.drop st.i).length < n →
    TurnsAs (scan fuel st.i (chars.drop st.i)) st.arg dirty
      (vsprintf.turns (chars ++ [0#8]) n st)

section Turns

variable {chars : List Byte} (hnul : 0#8 ∉ chars)

include hnul

theorem turns_turn {st special next : VsState} (hi : st.i < chars.length)
    (hspecial : vsprintf.special (chars ++ [0#8]) st = .ok special)
    (hnext : vsprintf.copyNext (chars ++ [0#8]) special = .ok next) (fuel : Nat) :
    vsprintf.turns (chars ++ [0#8]) (fuel + 1) st
      = (vsprintf.turns (chars ++ [0#8]) fuel next).map
          (⟨st.i, st.since special, special.since next⟩ :: ·) := by
  rw [vsprintf.turns, strlen_text hnul]
  show (if st.i < chars.length then _ else _) = _
  rw [if_pos hi, hspecial]
  show (vsprintf.copyNext _ special >>= _) = _
  rw [hnext]
  rfl

theorem turns_fault {st : VsState} {fault : Fault} (hi : st.i < chars.length)
    (hspecial : vsprintf.special (chars ++ [0#8]) st = .error fault) (fuel : Nat) :
    vsprintf.turns (chars ++ [0#8]) (fuel + 1) st = .error fault := by
  rw [vsprintf.turns, strlen_text hnul]
  show (if st.i < chars.length then _ else _) = _
  rw [if_pos hi, hspecial]
  rfl

theorem turns_end {st : VsState} (hi : chars.length ≤ st.i) (fuel : Nat) :
    vsprintf.turns (chars ++ [0#8]) (fuel + 1) st = .ok [] := by
  rw [vsprintf.turns, strlen_text hnul]
  exact if_neg (Nat.not_lt.mpr hi)

/-- Whatever the special part of a turn writes, the rest starts behind the character that
    is copied then. -/
theorem TurnsRest.copied {str : Nat → Byte} {fuel n : Nat} (ih : TurnsRest chars str fuel)
    {st special : VsState} {out text : List Byte} {dirty : Bool} (hi : st.i < chars.length)
    (hfuel : chars.length - st.i ≤ fuel + 1) (hn : chars.length - st.i < n + 1)
    (hwrote : st.Wrote str out) (hspecial : vsprintf.special (chars ++ [0#8]) st = .ok special)
    (hmoved : special.i = st.i + (scanTurn (chars.drop st.i)).skip)
    (htext : special.Wrote str (out ++ text)) (htemp : Tracks special.temp dirty) :
    ∃ turn result, turn.start = st.i ∧ turn.text = text ∧
      vsprintf.turns (chars ++ [0#8]) (n + 1) st = result.map (turn :: ·) ∧
      TurnsAs (scan fuel (st.i + ((scanTurn (chars.drop st.i)).skip + 1))
        ((chars.drop st.i).drop ((scanTurn (chars.drop st.i)).skip + 1)))
        special.arg dirty result := by
  have hskip := scanTurn_skip_le (chars.drop st.i)
  rw [List.length_drop] at hskip
  obtain ⟨c, hcopy⟩ := exists_copyNext [] (show special.i ≤ chars.length by omega)
  have hput := htext.put c
  have hnext : VsState.Wrote { special.put c with i := special.i + 1 } str
    (out ++ text ++ [c]) := ⟨hput.str_eq, hput.written⟩
  refine ⟨_, _, rfl, hwrote.since htext, turns_turn hnul hi hspecial hcopy n, ?_⟩
  rw [List.drop_drop, ← Nat.add_assoc, ← hmoved]
  refine ih n _ _ dirty htemp hnext ?_ ?_
  · show (chars.drop (special.i + 1)).length ≤ fuel
    rw [List.length_drop]
    omega
  · show (chars.drop (special.i + 1)).length < n
    rw [List.length_drop]
    omega

/-- One more turn. -/
theorem TurnsRest.turn {str : Nat → Byte} {fuel : Nat} (ih : TurnsRest chars str fuel) :
    TurnsRest chars str (fuel + 1) := by
  intro n st out dirty htemp hwrote hfuel hn
  obtain ⟨n, rfl⟩ := Nat.exists_eq_add_one_of_ne_zero (show n ≠ 0 by omega)
  rw [List.length_drop] at hfuel hn
  rcases Nat.lt_or_ge st.i chars.length with hi | hi
  · rw [scan_succ (by rw [ne_eq, List.drop_eq_nil_iff]; omega)]
    have hlater : ∀ x ∈ scan fuel (st.i + ((scanTurn (chars.drop st.i)).skip + 1))
        ((chars.drop st.i).drop ((scanTurn (chars.drop st.i)).skip + 1)),
        st.i < x.start := fun x hx => by
      have := (scan_drop _ _ _ hx).1
      omega
    cases hread : (scanTurn (chars.drop st.i)).directive with
    | none =>
        -- the special part only moves on, and writes nothing
        have hmoved : VsState.Wrote { st with i := st.i + (scanTurn (chars.drop st.i)).skip } str
            (out ++ []) := by
          rw [List.append_nil]
          exact hwrote.moved _ _ _
        obtain ⟨turn, result, hstart, htext, hturns, h⟩ := ih.copied hnul hi hfuel hn hwrote
          (special_of_none [] hi hread) rfl hmoved htemp
        rw [hturns]
        exact h.other htext (by rw [hstart]; exact hlater)
    | some d =>
        rcases special_of_some [] hi htemp.toTempOk hread with
          ⟨fault, hspecial, hnone⟩ | ⟨a, arg, text, temp', harg, hemit, hspecial⟩
        · rw [turns_fault hnul hi hspecial]
          exact .fault hnone fault
        · obtain ⟨hmoved, harg', htemp'⟩ := VsState.putAll_frame
            { st with i := st.i + (scanTurn (chars.drop st.i)).skip, arg, temp := temp' } text
          have htracks : Tracks temp' (d.dirties a dirty) := htemp.emit hemit
          obtain ⟨turn, result, hstart, rfl, hturns, h⟩ := ih.copied hnul hi hfuel hn hwrote
            hspecial hmoved ((hwrote.moved _ _ _).putAll text) (by rw [htemp']; exact htracks)
          rw [harg'] at h
          have hdirective := h.directive htemp hemit (by rw [hstart]; exact hlater)
          rw [hstart] at hdirective
          rw [hturns, harg]
          exact hdirective
  · rw [List.drop_eq_nil_of_le hi, scan_nil, turns_end hnul hi]
    exact .nil _ _

theorem turns_as (str : Nat → Byte) (fuel : Nat) : TurnsRest chars str fuel := by
  induction fuel with
  | zero =>
      intro n st out dirty htemp hwrote hfuel hn
      obtain ⟨n, rfl⟩ := Nat.exists_eq_add_one_of_ne_zero (show n ≠ 0 by omega)
      rw [List.length_drop] at hfuel
      rw [turns_end hnul (by omega)]
      exact .nil _ _
  | succ fuel ih => exact ih.turn hnul

end Turns

/-! ## The text of a directive -/

/-- The texts of a whole run. -/
theorem exists_turns {chars : List Byte} (hnul : 0#8 ∉ chars) (arg : List VaArg) :
    ∃ result, TurnsAs (seenIn chars) arg false result ∧
      ∀ p, vsprintf.textAt (chars ++ [0#8]) arg p = result.map (textOf · p) := by
  refine ⟨_, turns_as hnul (fun _ => 0#8) chars.length (chars ++ [0#8]).length
    { i := 0, arg, temp := List.replicate 32 0#8, str := fun _ => 0#8, written := 0 } [] false
    tracks_zero ⟨rfl, rfl⟩ (Nat.le_refl _) ?_, fun p => ?_⟩
  · rw [List.length_append]
    exact Nat.lt_succ_self _
  · rfl

/-- A directive formatted alone. -/
theorem exists_turns_alone (d : Directive) (a : VaArg) :
    ∃ result, TurnsAs [⟨0, d⟩] [a] false result ∧
      ∀ p, vsprintf.textAt (formatOf [.directive d]) [a] p = result.map (textOf · p) := by
  have hseen : seenIn ([Piece.directive d].flatMap Piece.text) = [⟨0, d⟩] := by
    cases d <;> decide
  have hturns := exists_turns (nul_notMem_pieces [.directive d]) [a]
  rwa [hseen] at hturns

/-- The texts of a directive in two runs, the second with a clean `temp`. -/
theorem emit_eq_iff {d : Directive} {x a : VaArg} {temp temp' clean clean' : CString}
    {dirty : Bool} {text text' : List Byte} (htemp : Tracks temp dirty)
    (hclean : Tracks clean false) (hx : d.emit x temp = some (text, temp'))
    (ha : d.emit a clean = some (text', clean')) :
    text = text' ↔ d.render x = d.render a ∧ (d = .hex → dirty = false) := by
  unfold Directive.emit at hx
  split at hx
  · next value =>
      cases a <;> cases ha
      cases hx
      simp [Directive.render]
  -- %d: the texts are those of the numbers, right or wrong
  · next value =>
      cases a <;> cases ha
      cases hx
      simp [Directive.render, itoaText_injective.eq_iff, decimalText_injective.eq_iff,
        BitVec.toInt_inj]
  -- %x: all that may differ behind the 8 digits is what was left over
  · next value =>
      cases a <;> cases ha
      cases hx
      next value' =>
        have hlen : (hexText 8 value.toNat).length = (hexText 8 value'.toNat).length := by
          rw [length_hexText, length_hexText]
        rw [hclean.residue_iff.mpr rfl, ← htemp.residue_iff]
        constructor
        · intro heq
          obtain ⟨hdigits, hresidue⟩ := List.append_inj heq hlen
          exact ⟨congrArg some hdigits, fun _ => hresidue⟩
        · rintro ⟨hrender, hresidue⟩
          rw [hresidue rfl, Option.some.inj hrender]
  · next value =>
      cases a <;> cases ha
      cases hx
      simp [Directive.render]
  · next value =>
      cases a with
      | int value' => cases ha
      | uint64 value' => cases ha
      | string value' =>
          rw [Directive.emit] at ha
          split at hx
          · next hmem =>
              split at ha
              · next hmem' =>
                  cases hx
                  cases ha
                  simp [Directive.render, hmem, hmem']
              · cases ha
          · cases hx
  · cases hx

/-- The directive `here` writes the same for both argument lists, and the same as when
    it is formatted alone with `a`. -/
def OwnText (F : List Piece) (here : Seen) (a : VaArg) (arg arg' : List VaArg) : Prop :=
  ∃ text, vsprintf.textAt (formatOf F) arg here.start = .ok text ∧
    vsprintf.textAt (formatOf F) arg' here.start = .ok text ∧
    vsprintf.textAt (formatOf [.directive here.directive]) [a] 0 = .ok text

/-- What a directive with the argument `a` needs to write its own text: arguments that
    fit what is read, an empty text if it is swallowed, and else an argument with the
    text of its own and, for %x, nothing left over. -/
structure Undisturbed (F : List Piece) (here : Seen) (a : VaArg) (arg : List VaArg) : Prop where
  fits : Fits ((seenIn (F.flatMap Piece.text)).map Seen.directive) arg
  swallowed : here ∉ seenIn (F.flatMap Piece.text) → here.directive.render a = some []
  seen : ∀ j x, (seenIn (F.flatMap Piece.text))[j]? = some here → arg[j]? = some x →
    here.directive.render x = here.directive.render a ∧ (here.directive = .hex →
      dirtyAt false ((seenIn (F.flatMap Piece.text)).map Seen.directive) arg j = false)

/-- Only a %s can have an empty text. -/
theorem emit_eq_nil_iff {d : Directive} {a : VaArg} {temp temp' : CString} {text : List Byte}
    (hemit : d.emit a temp = some (text, temp')) : text = [] ↔ d.render a = some [] := by
  unfold Directive.emit at hemit
  split at hemit
  · cases hemit
    simp [Directive.render]
  · next value =>
      cases hemit
      rw [← List.length_eq_zero_iff, length_itoaText, List.length_eq_zero_iff]
      simp [Directive.render]
  · next value =>
      cases hemit
      have hlen := length_hexText 8 value.toNat
      simp [Directive.render, ← List.length_eq_zero_iff, hlen]
  · next value =>
      cases hemit
      simp [Directive.render]
  · next value =>
      split at hemit
      · next hmem =>
          cases hemit
          simp [Directive.render, hmem]
      · cases hemit
  · cases hemit

/-- The text of a directive in one run. -/
theorem own_text_iff {F : List Piece} {here : Seen} (hhere : here ∈ directivesIn F) (a : VaArg)
    (arg : List VaArg) :
    (∃ text, vsprintf.textAt (formatOf F) arg here.start = .ok text ∧
      vsprintf.textAt (formatOf [.directive here.directive]) [a] 0 = .ok text) ↔
    Undisturbed F here a arg := by
  obtain ⟨result, hresult, htext⟩ := exists_turns (nul_notMem_pieces F) arg
  obtain ⟨alone, halone, haloneText⟩ := exists_turns_alone here.directive a
  have hformat : vsprintf.textAt (formatOf F) arg here.start = result.map (textOf · here.start) :=
    htext here.start
  rw [hformat, haloneText]
  cases result with
  | error fault =>
      refine iff_of_false ?_ fun h => hresult h.fits
      rintro ⟨text, h, -⟩
      cases h
  | ok turns =>
      obtain ⟨hfits, hnone, hsome⟩ := hresult
      -- the argument it gets where it is read
      have hget : ∀ j, (seenIn (F.flatMap Piece.text))[j]? = some here →
          ∃ x, arg[j]? = some x ∧ (here.directive.render x).isSome := fun j hj =>
        hfits.exists_arg (by rw [List.getElem?_map, hj]; rfl)
      cases alone with
      | error fault =>
          refine iff_of_false (by rintro ⟨text, -, h⟩; cases h) fun h => halone ⟨?_, trivial⟩
          by_cases hmem : here ∈ seenIn (F.flatMap Piece.text)
          · obtain ⟨j, hj⟩ := List.getElem?_of_mem hmem
            obtain ⟨x, hx, hrender⟩ := hget j hj
            rwa [← (h.seen j x hj hx).1]
          · rw [h.swallowed hmem]
            rfl
      | ok own =>
          obtain ⟨clean, clean', hclean, hown⟩ := halone.2.2 0 ⟨0, here.directive⟩ a rfl rfl
          simp only [Except.map, Except.ok.injEq, exists_eq_left']
          rw [eq_comm]
          constructor
          · intro heq
            refine ⟨hfits, fun hmem => ?_, fun j x hj hx => ?_⟩
            · -- nothing is read where it stands
              have hempty := hnone here.start fun x hx hstart =>
                hmem (seen_eq_of_start hhere hx hstart ▸ hx)
              rw [heq] at hempty
              exact (emit_eq_nil_iff hown).mp hempty
            · obtain ⟨temp, temp', htemp, hemit⟩ := hsome j here x hj hx
              exact (emit_eq_iff htemp hclean hemit hown).mp heq
          · intro h
            by_cases hmem : here ∈ seenIn (F.flatMap Piece.text)
            · obtain ⟨j, hj⟩ := List.getElem?_of_mem hmem
              obtain ⟨x, hx, -⟩ := hget j hj
              obtain ⟨temp, temp', htemp, hemit⟩ := hsome j here x hj hx
              exact (emit_eq_iff htemp hclean hemit hown).mpr (h.seen j x hj hx)
            · rw [hnone here.start fun x hx hstart =>
                hmem (seen_eq_of_start hhere hx hstart ▸ hx)]
              exact ((emit_eq_nil_iff hown).mpr (h.swallowed hmem)).symm

/-- In a separated format every directive gets its own argument. -/
theorem undisturbed_iff_of_separated {F : List Piece} (hsep : Separated .turn F) {k : Nat}
    {here : Seen} {a : VaArg} {arg : List VaArg} (hhere : (directivesIn F)[k]? = some here)
    (ha : arg[k]? = some a) (hfits : Fits ((directivesIn F).map Seen.directive) arg) :
    Undisturbed F here a arg ↔ (here.directive = .hex →
      dirtyAt false ((directivesIn F).map Seen.directive) arg k = false) := by
  have hseen := seenIn_of_separated hsep
  constructor
  · intro h hhex
    rw [← hseen] at hhere ⊢
    exact (h.seen k a hhere ha).2 hhex
  · intro h
    refine ⟨by rwa [hseen], fun hmem => ?_, fun j x hj hx => ?_⟩
    · rw [hseen] at hmem
      exact absurd (List.mem_of_getElem? hhere) hmem
    · obtain rfl := seenIn_inj hj (hseen ▸ hhere)
      rw [ha] at hx
      cases hx
      exact ⟨rfl, by rwa [hseen]⟩

/-- "%llx %x." prints what is left of the first number behind the second. -/
theorem hex_text_leaks :
    (vsprintf.textAt (formatOf [.directive .longHex, .lit ⟨ch ' ', by decide⟩, .directive .hex,
        .lit ⟨ch '.', by decide⟩]) [.uint64 0xFFFFFFFF#64, .int 1#32] 5
      = .ok [ch '0', ch '0', ch '0', ch '0', ch '0', ch '0', ch '0', ch '1', ch 'F', ch 'F', ch 'F',
          ch 'F', ch 'F', ch 'F', ch 'F', ch 'F']) ∧
    ¬ OwnText [.directive .longHex, .lit ⟨ch ' ', by decide⟩, .directive .hex,
        .lit ⟨ch '.', by decide⟩] ⟨5, .hex⟩ (.int 1#32)
      [.uint64 0#64, .int 1#32] [.uint64 0xFFFFFFFF#64, .int 1#32] := by
  have hleak : vsprintf.textAt (formatOf [.directive .longHex, .lit ⟨ch ' ', by decide⟩,
      .directive .hex, .lit ⟨ch '.', by decide⟩]) [.uint64 0xFFFFFFFF#64, .int 1#32] 5
      = .ok [ch '0', ch '0', ch '0', ch '0', ch '0', ch '0', ch '0', ch '1', ch 'F', ch 'F', ch 'F',
          ch 'F', ch 'F', ch 'F', ch 'F', ch 'F'] := by rfl
  refine ⟨hleak, ?_⟩
  rintro ⟨text, -, h, halone⟩
  have hown : vsprintf.textAt (formatOf [.directive .hex]) [.int 1#32] 0
      = .ok [ch '0', ch '0', ch '0', ch '0', ch '0', ch '0', ch '0', ch '1'] := by rfl
  rw [hleak] at h
  rw [hown] at halone
  cases h
  exact absurd (Except.ok.inj halone) (by decide)

/-- **When the text of a directive depends on its own argument only.**  For every format,
    directive and two argument lists that agree at it: exactly if it is undisturbed in
    both runs.  In a separated format it is, except that %x must not find anything
    left over. -/
theorem directive_text_own_iff (F : List Piece) :
    (∀ (k : Nat) (here : Seen) (a : VaArg) (arg arg' : List VaArg),
      (directivesIn F)[k]? = some here → arg[k]? = some a → arg'[k]? = some a →
      (OwnText F here a arg arg' ↔ Undisturbed F here a arg ∧ Undisturbed F here a arg')) ∧
    (Separated .turn F → ∀ (k : Nat) (here : Seen) (a : VaArg) (arg arg' : List VaArg),
      (directivesIn F)[k]? = some here → arg[k]? = some a → arg'[k]? = some a →
      Fits ((directivesIn F).map Seen.directive) arg →
      Fits ((directivesIn F).map Seen.directive) arg' →
      (OwnText F here a arg arg' ↔ (here.directive = .hex →
        dirtyAt false ((directivesIn F).map Seen.directive) arg k = false ∧
        dirtyAt false ((directivesIn F).map Seen.directive) arg' k = false))) := by
  have hown : ∀ (k : Nat) (here : Seen) (a : VaArg) (arg arg' : List VaArg),
      (directivesIn F)[k]? = some here →
      (OwnText F here a arg arg' ↔ Undisturbed F here a arg ∧ Undisturbed F here a arg') := by
    intro k here a arg arg' hhere
    have hmem := List.mem_of_getElem? hhere
    rw [← own_text_iff hmem, ← own_text_iff hmem]
    constructor
    · rintro ⟨text, h, h', halone⟩
      exact ⟨⟨text, h, halone⟩, text, h', halone⟩
    · -- the text of the directive alone is the same for both
      rintro ⟨⟨text, h, halone⟩, text', h', halone'⟩
      rw [halone] at halone'
      cases halone'
      exact ⟨text, h, h', halone⟩
  refine ⟨fun k here a arg arg' hhere _ _ => hown k here a arg arg' hhere, ?_⟩
  intro hsep k here a arg arg' hhere ha ha' hfits hfits'
  rw [hown k here a arg arg' hhere, undisturbed_iff_of_separated hsep hhere ha hfits,
    undisturbed_iff_of_separated hsep hhere ha' hfits']
  exact forall_and.symm

/-- "%s:%x." with two strings before the number. -/
theorem directive_text_own_iff_string :
    OwnText [.directive .string, .lit ⟨ch ':', by decide⟩, .directive .hex,
        .lit ⟨ch '.', by decide⟩] ⟨3, .hex⟩ (.int 1#32)
      [.string [ch 'a', 0#8], .int 1#32] [.string [ch 'b', ch 'c', 0#8], .int 1#32] :=
  ((directive_text_own_iff _).2 (by simp [Separated]) 1 _ _ _ _ rfl rfl rfl
    (by exact ⟨rfl, rfl, trivial⟩) (by exact ⟨rfl, rfl, trivial⟩)).mpr fun _ => ⟨rfl, rfl⟩

end EchOS
