/-
  EchOS.CLib.VsprintfMisreads

  Every format that is not separated is misread for some arguments.

  The arguments are chosen so that no directive's text starts with a character that
  could be taken for the next one of the format, and so that whatever is left in
  `temp` is a row of '7's.  The output then differs from the text at the first place
  where the code goes wrong, except that a row of literal '7's or 'l's can put the
  difference off for as long as it lasts (`run_ahead`, `run_behind`).
-/
import EchOS.CLib.VsprintfRenders
import EchOS.CLib.VsprintfScan

namespace EchOS

open CArray (Fault read overlay)

/-! ## Output is only added to -/

section Extends

variable {format : CString} {st st' : VsState} {str : Nat → Byte} {out : List Byte}

theorem loop_extends (fuel : Nat) : ∀ {st : VsState} {out : List Byte},
    vsprintf.loop format fuel st = .ok st' → st.Wrote str out →
      ∃ more, st'.Wrote str (out ++ more) := by
  induction fuel with
  | zero =>
      intro st out h _
      cases h
  | succ fuel ih =>
      intro st out h hst
      obtain ⟨length, _, h⟩ := except_bind_ok h
      split at h
      · obtain ⟨st1, hspecial, h⟩ := except_bind_ok h
        obtain ⟨st2, hcopy, h⟩ := except_bind_ok h
        -- the text grows in the special part, in the copy and in the turns after it
        obtain ⟨more1, hst1⟩ := special_extends hspecial hst
        obtain ⟨more2, hst2⟩ := copyNext_extends hcopy hst1
        obtain ⟨more3, hst3⟩ := ih h hst2
        exact ⟨more1 ++ more2 ++ more3, by simpa only [List.append_assoc] using hst3⟩
      · injection h with h
        exact ⟨[], by rw [← h, List.append_nil]; exact hst⟩

theorem run_extends {mode : Mode} {fuel : Nat} (h : mode.run format fuel st = .ok st')
    (hst : st.Wrote str out) : ∃ more, st'.Wrote str (out ++ more) := by
  cases mode with
  | turn => exact loop_extends fuel h hst
  | half => exact loop_extends fuel h hst
  | copy =>
      obtain ⟨st1, hcopy, h⟩ := except_bind_ok h
      obtain ⟨more1, hst1⟩ := copyNext_extends hcopy hst
      obtain ⟨more2, hst2⟩ := loop_extends fuel h hst1
      exact ⟨more1 ++ more2, by simpa only [List.append_assoc] using hst2⟩

end Extends

/-- The run does not end with `text` written over `str`. -/
def Misses (result : Except Fault VsState) (str : Nat → Byte) (text : List Byte) : Prop :=
  ∀ st, result = .ok st → ¬ st.Wrote str text

/-- A run that has written something else already misses the text. -/
theorem misses_of_not_prefix {format : CString} {mode : Mode} {fuel : Nat} {st : VsState}
    {str : Nat → Byte} {out text : List Byte} (hst : st.Wrote str out) (h : ¬ out <+: text) :
    Misses (mode.run format fuel st) str text := by
  intro st' hrun htext
  obtain ⟨more, hst'⟩ := run_extends hrun hst
  refine h ⟨more, stored_inj ?_ (hst'.str_eq.symm.trans htext.str_eq)⟩
  rw [← hst'.written, htext.written]

/-- In particular a run whose next character is another one than the text's. -/
theorem misses_of_ne {format : CString} {mode : Mode} {fuel : Nat} {st : VsState}
    {str : Nat → Byte} {out more rest : List Byte} {c e : Byte}
    (hst : st.Wrote str (out ++ c :: more)) (hne : c ≠ e) :
    Misses (mode.run format fuel st) str (out ++ e :: rest) := by
  refine misses_of_not_prefix hst fun hprefix => hne ?_
  rw [List.prefix_append_right_inj, List.cons_prefix_cons] at hprefix
  exact hprefix.1

/-! ## The arguments -/

def Directive.sample : Directive → VaArg
  | .char | .dec | .hex => .int 100000097#32
  | .longHex => .uint64 0x0777777777777777#64
  | .string => .string [ch 'a', 0#8]

def Directive.sampleText : Directive → List Byte
  | .char | .string => [ch 'a']
  | .dec => ch '1' :: [0, 0, 0, 0, 0, 0, 9, 7].map digitByte
  | .hex => ch '0' :: [ch '5', ch 'F', ch '5', ch 'E', ch '1', ch '6', ch '1']
  | .longHex => ch '0' :: List.replicate 15 (ch '7')

def sampleArgs : List Piece → List VaArg
  | [] => []
  | .directive d :: F => d.sample :: sampleArgs F
  | _ :: F => sampleArgs F

def sampleText : List Piece → List Byte
  | [] => []
  | .lit c :: F => c.1 :: sampleText F
  | .percent :: F => ch '%' :: sampleText F
  | .directive d :: F => d.sampleText ++ sampleText F

theorem decimalText_sample :
    decimalText (100000097#32).toInt = Directive.dec.sampleText := by
  have hdigits : Nat.digits 10 100000097 = [7, 9, 0, 0, 0, 0, 0, 0, 1] := by norm_num
  rw [show (100000097#32).toInt = 100000097 by decide, decimalText, if_neg (by decide), natText,
    if_neg (by decide), show (100000097 : Int).natAbs = 100000097 from rfl, hdigits]
  rfl

theorem render_sample (d : Directive) : d.render d.sample = some d.sampleText := by
  cases d with
  | char => decide
  | dec =>
      rw [← decimalText_sample]
      rfl
  | hex => decide
  | longHex => decide
  | string => decide

theorem render_sampleArgs (F : List Piece) : render F (sampleArgs F) = some (sampleText F) := by
  induction F with
  | nil => rfl
  | cons piece F ih =>
      cases piece with
      | lit c =>
          rw [sampleArgs, render, ih]
          · rfl
          · intro d heq
            cases heq
      | percent =>
          rw [sampleArgs, render, ih]
          · rfl
          · intro d heq
            cases heq
      | directive d =>
          rw [sampleArgs, render, render_sample, Option.bind_some, ih]
          rfl

/-- The arguments left are samples, and what `temp` holds behind its first 8
    characters is a row of '7's. -/
structure Sampled (st : VsState) : Prop where
  arg : ∀ a ∈ st.arg, ∃ d : Directive, a = d.sample
  temp : TempOk st.temp
  residue : ∃ n, residue st.temp = List.replicate n (ch '7')

theorem itoaText_sample : itoaText 100000097#32 = Directive.dec.sampleText := by
  rw [(itoaText_eq_iff _).mpr (by decide), decimalText_sample]

/-- What a directive that is fed a sample writes, and leaves. -/
theorem emit_sample {d d' : Directive} {temp temp' : CString} {text : List Byte}
    (htemp : TempOk temp) {n : Nat} (hresidue : residue temp = List.replicate n (ch '7'))
    (hemit : d.emit d'.sample temp = some (text, temp')) :
    text = d.sampleText ++ (if d = .hex then residue temp else []) ∧ TempOk temp' ∧
      ∃ n, residue temp' = List.replicate n (ch '7') := by
  have htemp' := Directive.emit_tempOk htemp hemit
  obtain ⟨a, ha, hd'⟩ : ∃ a, d'.sample = a ∧ (a = .int 100000097#32 ∨
      a = .uint64 0x0777777777777777#64 ∨ a = .string [ch 'a', 0#8]) := by
    cases d' <;> exact ⟨_, rfl, by simp [Directive.sample]⟩
  rw [ha] at hemit
  -- a sample of another type leaves the directive without a result
  cases d with
  | char =>
      rcases hd' with rfl | rfl | rfl <;> cases hemit
      exact ⟨by rw [if_neg (by decide), List.append_nil]; decide, htemp', n, hresidue⟩
  | dec =>
      rcases hd' with rfl | rfl | rfl <;> cases hemit
      refine ⟨by rw [itoaText_sample]; rfl, htemp', 1, ?_⟩
      rw [residue, drop_overlay, itoaText_sample]
      rfl
  | hex =>
      rcases hd' with rfl | rfl | rfl <;> cases hemit
      refine ⟨by rw [if_pos rfl]; congr 1, htemp', n, ?_⟩
      rw [residue_overlay_short (length_hexText 8 _).le]
      exact hresidue
  | longHex =>
      rcases hd' with rfl | rfl | rfl <;> cases hemit
      refine ⟨by rw [if_neg (by decide), List.append_nil]; decide, htemp', 8, ?_⟩
      rw [residue_hexText16 htemp]
      decide
  | string =>
      rcases hd' with rfl | rfl | rfl <;> cases hemit
      exact ⟨by rw [if_neg (by decide), List.append_nil]; decide, htemp', n, hresidue⟩

/-- A directive in a sampled state: no result, or the sample's text and what %x adds. -/
theorem directive_sampled {format rest : CString} (st : VsState) {str : Nat → Byte}
    (out : List Byte) (hst : Sampled st) (hwrote : st.Wrote str out) (d : Directive)
    (hdrop : format.drop st.i = d.text ++ rest) :
    (∃ fault, vsprintf.directive format st = .error fault) ∨
    ∃ st' arg, ∃ a, st.arg = a :: arg ∧ vsprintf.directive format st = .ok st' ∧
      Sampled st' ∧ st'.i = st.i + d.text.length ∧ st'.arg = arg ∧
      st'.Wrote str (out ++ d.sampleText ++ (if d = .hex then residue st.temp else [])) := by
  rcases directive_emit st d hdrop hst.temp with ⟨fault, h, _⟩ | ⟨a, arg, text, temp', harg, hemit, h⟩
  · exact .inl ⟨fault, h⟩
  · obtain ⟨n, hresidue⟩ := hst.residue
    obtain ⟨d', rfl⟩ := hst.arg a (harg ▸ List.mem_cons_self)
    obtain ⟨rfl, htemp', hresidue'⟩ := emit_sample hst.temp hresidue hemit
    -- copying the text changes neither the arguments nor `temp`
    obtain ⟨hi, harg', htempEq⟩ := VsState.putAll_frame { st with
      i := st.i + d.text.length, arg, temp := temp' } (d.sampleText
        ++ (if d = .hex then residue st.temp else []))
    have hmoved : VsState.Wrote { st with i := st.i + d.text.length, arg, temp := temp' }
      str out := ⟨hwrote.str_eq, hwrote.written⟩
    refine .inr ⟨_, arg, _, harg, h, ⟨?_, ?_, ?_⟩, hi, harg', ?_⟩
    · rw [harg']
      exact fun b hb => hst.arg b (harg ▸ List.mem_cons_of_mem _ hb)
    · rw [htempEq]
      exact htemp'
    · rw [htempEq]
      exact hresidue'
    · rw [List.append_assoc]
      exact hmoved.putAll _

/-- The sample texts start with 'a', '0' or '1'. -/
theorem exists_head_sampleText (d : Directive) :
    ∃ c more, d.sampleText = c :: more ∧ (c = ch 'a' ∨ c = ch '0' ∨ c = ch '1') := by
  cases d
  · exact ⟨_, _, rfl, .inl rfl⟩
  · exact ⟨_, _, rfl, .inr (.inr rfl)⟩
  · exact ⟨_, _, rfl, .inr (.inl rfl)⟩
  · exact ⟨_, _, rfl, .inr (.inl rfl)⟩
  · exact ⟨_, _, rfl, .inl rfl⟩

/-! ## The first difference -/

section Misreads

variable {chars : List Byte} (hnul : 0#8 ∉ chars) {str : Nat → Byte}

include hnul

/-- A directive is read where the text has a character that no sample starts with. -/
theorem directive_misses {st : VsState} {out rest' : List Byte} {rest : CString} {e : Byte}
    (hsampled : Sampled st) (d : Directive) (hrest : rest ≠ [])
    (hdrop : (chars ++ [0#8]).drop st.i = ch '%' :: (d.text ++ rest)) (hwrote : st.Wrote str out)
    (he : e ∉ [ch 'a', ch '0', ch '1']) (fuel : Nat) :
    Misses (Mode.turn.run (chars ++ [0#8]) (fuel + 1) st) str (out ++ e :: rest') := by
  have hmoved : Sampled { st with i := st.i + 1 } :=
    ⟨hsampled.arg, hsampled.temp, hsampled.residue⟩
  rw [run_directive hnul (List.append_ne_nil_of_right_ne_nil _ hrest) hdrop]
  rcases directive_sampled { st with i := st.i + 1 } out hmoved
    ⟨hwrote.str_eq, hwrote.written⟩ d (CArray.drop_succ_of_drop hdrop) with
    ⟨fault, h⟩ | ⟨st', _, _, _, h, _, _, _, hwrote'⟩
  · intro st' hrun
    rw [h] at hrun
    cases hrun
  · obtain ⟨c, more, heq, hc⟩ := exists_head_sampleText d
    rw [heq, List.append_assoc] at hwrote'
    rw [h]
    show Misses (Mode.copy.run (chars ++ [0#8]) fuel st') str _
    refine misses_of_ne hwrote' fun hce => he ?_
    rw [← hce]
    rcases hc with rfl | rfl | rfl <;> decide

/-- The output is a row of '7's ahead of the text. -/
theorem run_ahead (n : Nat) (F : List Piece) :
    ∀ (mode : Mode) (fuel : Nat) (st : VsState) (out : List Byte), mode ≠ .half →
      (chars ++ [0#8]).drop st.i = formatOf F →
      st.Wrote str (out ++ List.replicate (n + 1) (ch '7')) →
      Misses (mode.run (chars ++ [0#8]) fuel st) str (out ++ sampleText F) := by
  induction F with
  | nil =>
      intro mode fuel st out _ _ hwrote
      refine misses_of_not_prefix hwrote fun h => ?_
      have := h.length_le
      simp [sampleText] at this
  | cons piece F ih =>
      intro mode fuel st out hmode hdrop hwrote
      -- unless the text goes on with a '7' too
      have hother : ∀ c more, sampleText (piece :: F) = c :: more → c ≠ ch '7' →
          Misses (mode.run (chars ++ [0#8]) fuel st) str (out ++ sampleText (piece :: F)) := by
        intro c more heq hne
        rw [heq]
        exact misses_of_ne hwrote hne.symm
      cases piece with
      | lit c =>
          by_cases hseven : c.1 = ch '7'
          -- the '7' copied joins the row, and the text moves on by one
          · have hput := hwrote.put c.1
            have hput' : (st.put c.1).Wrote str
                (out ++ [c.1] ++ List.replicate (n + 1) (ch '7')) := by
              refine ⟨hput.str_eq.trans ?_, hput.written.trans ?_⟩
              · rw [hseven, List.append_assoc, List.append_assoc, List.singleton_append,
                  ← List.replicate_succ, ← List.replicate_succ']
              · simp only [List.length_append, List.length_singleton, List.length_replicate]
                omega
            cases fuel with
            | zero => exact fun st' hrun => absurd hrun (run_zero mode _ st st')
            | succ fuel =>
                have hdrop' : (chars ++ [0#8]).drop st.i = mode.pending ++ c.1 :: formatOf F := by
                  rw [hdrop, formatOf_cons]
                  cases mode with
                  | turn => rfl
                  | copy => rfl
                  | half => exact absurd rfl hmode
                obtain ⟨fuel', i, _, hnext, hrun⟩ := run_lit hnul mode c
                  (fun h => absurd h hmode) hdrop' (formatOf_ne_nil F) fuel
                rw [hrun]
                have hmiss := ih .turn fuel' { st.put c.1 with i } (out ++ [c.1])
                  (fun h => nomatch h) hnext ⟨hput'.str_eq, hput'.written⟩
                rwa [List.append_assoc, List.singleton_append] at hmiss
          · exact hother _ _ rfl hseven
      | percent => exact hother _ _ rfl (by decide)
      | directive d =>
          obtain ⟨c, more, heq, hc⟩ := exists_head_sampleText d
          refine hother c (more ++ sampleText F) (by rw [sampleText, heq]; rfl) ?_
          rcases hc with rfl | rfl | rfl <;> decide

/-- The text is two 'l's ahead of the output. -/
theorem run_behind (F : List Piece) :
    ∀ (fuel : Nat) (st : VsState) (out : List Byte), Sampled st →
      (chars ++ [0#8]).drop st.i = formatOf F → st.Wrote str out →
      Misses (Mode.turn.run (chars ++ [0#8]) fuel st) str
        (out ++ ch 'l' :: ch 'l' :: sampleText F) := by
  induction F with
  | nil =>
      intro fuel st out _ hdrop hwrote
      cases fuel with
      | zero => exact fun st' hrun => nomatch hrun
      | succ fuel =>
          have hend := vsprintf_loop_end hnul st (by rw [hdrop]; exact Nat.le_refl _) fuel
          intro st' hrun htext
          obtain rfl : st = st' := Except.ok.inj (hend.symm.trans hrun)
          have := hwrote.written.symm.trans htext.written
          simp at this
  | cons piece F ih =>
      intro fuel st out hsampled hdrop hwrote
      rw [formatOf_cons] at hdrop
      cases fuel with
      | zero => exact fun st' hrun => nomatch hrun
      | succ fuel =>
          cases piece with
          | lit c =>
              rw [run_literal hnul c.2.2 hdrop (formatOf_ne_nil F)]
              have hput := hwrote.put c.1
              -- only an 'l' keeps the text two 'l's ahead
              by_cases hl : c.1 = ch 'l'
              · have := ih fuel { st.put c.1 with i := st.i + 1 } (out ++ [c.1])
                  ⟨hsampled.arg, hsampled.temp, hsampled.residue⟩
                  (CArray.drop_succ_of_drop hdrop) ⟨hput.str_eq, hput.written⟩
                rw [List.append_assoc, List.singleton_append] at this
                rw [sampleText, hl]
                rwa [hl] at this
              · exact misses_of_ne ⟨hput.str_eq, hput.written⟩ hl
          | percent =>
              rw [run_special hnul (by decide) hdrop]
              have hput := hwrote.put (ch '%')
              exact misses_of_ne ⟨hput.str_eq, hput.written⟩ (by decide)
          | directive d =>
              exact directive_misses hnul hsampled d (formatOf_ne_nil F) hdrop hwrote
                (by decide) fuel

/-- "%l" without another 'l' is skipped, and the character after it copied. -/
theorem run_long {st : VsState} {c : Byte} {rest : CString}
    (hdrop : (chars ++ [0#8]).drop st.i = ch '%' :: ch 'l' :: c :: rest) (hc : c ≠ ch 'l')
    (fuel : Nat) :
    Mode.turn.run (chars ++ [0#8]) (fuel + 1) st
      = Mode.turn.run (chars ++ [0#8]) fuel { st.put c with i := st.i + 3 } := by
  have hdrop1 := CArray.drop_succ_of_drop hdrop
  rw [run_directive hnul (List.cons_ne_nil _ _) hdrop,
    directive_long { st with i := st.i + 1 } hdrop1 hc]
  exact run_copy { st with i := st.i + 1 + 1 } (CArray.drop_succ_of_drop hdrop1) fuel

/-- So is "%ll" without an 'x'. -/
theorem run_longLong {st : VsState} {c : Byte} {rest : CString}
    (hdrop : (chars ++ [0#8]).drop st.i = ch '%' :: ch 'l' :: ch 'l' :: c :: rest)
    (hc : c ≠ ch 'x') (fuel : Nat) :
    Mode.turn.run (chars ++ [0#8]) (fuel + 1) st
      = Mode.turn.run (chars ++ [0#8]) fuel { st.put c with i := st.i + 4 } := by
  have hdrop1 := CArray.drop_succ_of_drop hdrop
  have hdrop3 : (chars ++ [0#8]).drop (st.i + 1 + 2) = c :: rest :=
    CArray.drop_succ_of_drop (CArray.drop_succ_of_drop hdrop1)
  rw [run_directive hnul (List.cons_ne_nil _ _) hdrop,
    directive_longLong { st with i := st.i + 1 } hdrop1 hc]
  exact run_copy { st with i := st.i + 1 + 2 } hdrop3 fuel

/-- "%%ll": half of the %% was copied, and a third character decides. -/
theorem half_longLong_misses (F : List Piece) (fuel : Nat) {st : VsState} {out : List Byte}
    {c : Literal} (hc : c.1 = ch 'l') (hsampled : Sampled st)
    (hdrop : (chars ++ [0#8]).drop st.i = ch '%' :: ch 'l' :: ch 'l' :: formatOf F)
    (hwrote : st.Wrote str out) :
    Misses (Mode.turn.run (chars ++ [0#8]) (fuel + 1) st) str
      (out ++ ch 'l' :: sampleText (.lit c :: F)) := by
  have hput := hwrote.put
  have hdiffers : ∀ z rest, formatOf F = z :: rest → z ≠ ch 'x' → z ≠ ch 'l' →
      Misses (Mode.turn.run (chars ++ [0#8]) (fuel + 1) st) str
        (out ++ ch 'l' :: sampleText (.lit c :: F)) := by
    intro z rest heq hx hl
    rw [heq] at hdrop
    rw [run_longLong hnul hdrop hx]
    exact misses_of_ne ⟨(hput z).str_eq, (hput z).written⟩ hl
  rcases F with _ | ⟨piece, F⟩
  · exact hdiffers 0#8 [] rfl (by decide) (by decide)
  cases piece with
  | percent => exact hdiffers _ _ rfl (by decide) (by decide)
  | directive d => exact hdiffers _ _ rfl (by decide) (by decide)
  | lit z =>
      rw [formatOf_cons] at hdrop
      by_cases hx : z.1 = ch 'x'
      · -- a %llx that nobody wrote
        rw [Piece.text, hx] at hdrop
        exact directive_misses hnul hsampled .longHex (formatOf_ne_nil F) hdrop hwrote
          (by decide) fuel
      · by_cases hl : z.1 = ch 'l'
        · -- one of three 'l's was copied
          have hnext : (chars ++ [0#8]).drop (st.i + 4) = formatOf F :=
            CArray.drop_succ_of_drop (CArray.drop_succ_of_drop
              (CArray.drop_succ_of_drop (CArray.drop_succ_of_drop hdrop)))
          rw [run_longLong hnul hdrop hx, sampleText, sampleText, hc, hl]
          have hmiss := run_behind hnul F fuel { st.put (ch 'l') with i := st.i + 4 }
            (out ++ [ch 'l']) ⟨hsampled.arg, hsampled.temp, hsampled.residue⟩ hnext
            ⟨(hput _).str_eq, (hput _).written⟩
          rwa [List.append_assoc, List.singleton_append] at hmiss
        · exact hdiffers _ _ rfl hx hl

/-- A '%' that is the second half of a %%, before a literal 'l'. -/
theorem half_long_misses (F : List Piece) (fuel : Nat) {st : VsState} {out : List Byte}
    (hsampled : Sampled st) (hdrop : (chars ++ [0#8]).drop st.i = ch '%' :: ch 'l' :: formatOf F)
    (hwrote : st.Wrote str out) :
    Misses (Mode.turn.run (chars ++ [0#8]) (fuel + 1) st) str (out ++ ch 'l' :: sampleText F) := by
  -- any character but another 'l' is copied in place of this one
  have hother : ∀ c rest, formatOf F = c :: rest → c ≠ ch 'l' →
      Misses (Mode.turn.run (chars ++ [0#8]) (fuel + 1) st) str
        (out ++ ch 'l' :: sampleText F) := by
    intro c rest heq hc
    rw [heq] at hdrop
    have hput := hwrote.put c
    rw [run_long hnul hdrop hc]
    exact misses_of_ne ⟨hput.str_eq, hput.written⟩ hc
  rcases F with _ | ⟨piece, F⟩
  · exact hother 0#8 [] rfl (by decide)
  cases piece with
  | percent => exact hother _ _ rfl (by decide)
  | directive d => exact hother _ _ rfl (by decide)
  | lit c =>
      by_cases hc : c.1 = ch 'l'
      · rw [formatOf_cons, Piece.text, hc, List.singleton_append] at hdrop
        exact half_longLong_misses hnul F fuel hc hsampled hdrop hwrote
      · exact hother _ _ rfl hc

/-- A '%' that is the second half of a %%, before a literal that starts a directive. -/
theorem half_misses {c : Literal} (hc : c.1 ∈ [ch 'c', ch 'd', ch 'x', ch 'l', ch 's'])
    (F : List Piece) (fuel : Nat) {st : VsState} {out : List Byte} (hsampled : Sampled st)
    (hdrop : (chars ++ [0#8]).drop st.i = ch '%' :: c.1 :: formatOf F)
    (hwrote : st.Wrote str out) :
    Misses (Mode.turn.run (chars ++ [0#8]) fuel st) str (out ++ c.1 :: sampleText F) := by
  cases fuel with
  | zero => exact fun st' hrun => nomatch hrun
  | succ fuel =>
      have hread : ∀ d : Directive, d.text = [c.1] → c.1 ∉ [ch 'a', ch '0', ch '1'] →
          Misses (Mode.turn.run (chars ++ [0#8]) (fuel + 1) st) str
            (out ++ c.1 :: sampleText F) := by
        intro d htext hne
        exact directive_misses hnul hsampled d (formatOf_ne_nil F)
          (by rw [htext]; exact hdrop) hwrote hne fuel
      simp only [List.mem_cons, List.not_mem_nil, or_false] at hc
      rcases hc with hc | hc | hc | hc | hc
      · exact hread .char (by rw [hc]; rfl) (by rw [hc]; decide)
      · exact hread .dec (by rw [hc]; rfl) (by rw [hc]; decide)
      · exact hread .hex (by rw [hc]; rfl) (by rw [hc]; decide)
      · rw [hc] at hdrop ⊢
        exact half_long_misses hnul F fuel hsampled hdrop hwrote
      · exact hread .string (by rw [hc]; rfl) (by rw [hc]; decide)

/-- The code misreads the rest `F` of a format, from any point between two pieces from
    which it is not separated. -/
def MisreadsRest (chars : List Byte) (str : Nat → Byte) (F : List Piece) : Prop :=
  ∀ (mode : Mode) (fuel : Nat) (st : VsState) (out : List Byte), ¬ Separated mode F →
    (chars ++ [0#8]).drop st.i = mode.pending ++ formatOf F → Sampled st →
    st.arg = sampleArgs F → st.Wrote str out →
    Misses (mode.run (chars ++ [0#8]) fuel st) str (out ++ sampleText F)

omit hnul in
theorem misses_zero (mode : Mode) (format : CString) (st : VsState) (text : List Byte) :
    Misses (mode.run format 0 st) str text :=
  fun st' hrun => absurd hrun (run_zero mode format st st')

omit hnul in
/-- Going on after a character that was right. -/
theorem MisreadsRest.put {F : List Piece} (h : MisreadsRest chars str F) {mode : Mode}
    {fuel i : Nat} {st : VsState} {out : List Byte} (c : Byte) (hsep : ¬ Separated mode F)
    (hdrop : (chars ++ [0#8]).drop i = mode.pending ++ formatOf F) (hsampled : Sampled st)
    (harg : st.arg = sampleArgs F) (hwrote : st.Wrote str out) :
    Misses (mode.run (chars ++ [0#8]) fuel { st.put c with i }) str (out ++ c :: sampleText F) := by
  have hput := hwrote.put c
  have hmiss := h mode fuel { st.put c with i } (out ++ [c]) hsep hdrop
    ⟨hsampled.arg, hsampled.temp, hsampled.residue⟩ harg ⟨hput.str_eq, hput.written⟩
  rwa [List.append_assoc, List.singleton_append] at hmiss

/-- At the end of the format the NUL is copied. -/
theorem misreadsRest_nil : MisreadsRest chars str [] := by
  intro mode fuel st out hsep hdrop hsampled harg hwrote
  have hput := hwrote.put 0#8
  have hlonger : ¬ out ++ [0#8] <+: out ++ sampleText [] := fun h => by
    have := h.length_le
    simp [sampleText] at this
  cases mode with
  | turn => exact absurd trivial hsep
  | copy =>
      rw [run_copy _ hdrop]
      exact misses_of_not_prefix ⟨hput.str_eq, hput.written⟩ hlonger
  | half =>
      cases fuel with
      | zero => exact misses_zero _ _ _ _
      | succ fuel =>
          show Misses (Mode.turn.run _ _ _) _ _
          rw [run_special hnul (by decide) hdrop]
          exact misses_of_not_prefix ⟨hput.str_eq, hput.written⟩ hlonger

theorem MisreadsRest.lit {F : List Piece} (ih : MisreadsRest chars str F) (c : Literal) :
    MisreadsRest chars str (.lit c :: F) := by
  intro mode fuel st out hsep hdrop hsampled harg hwrote
  rw [separated_lit_iff, not_and] at hsep
  by_cases hread : mode = .half → c.1 ∉ [ch 'c', ch 'd', ch 'x', ch 'l', ch 's']
  · -- the literal is read as it is meant, so the fault lies further on
    cases fuel with
    | zero => exact misses_zero _ _ _ _
    | succ fuel =>
        obtain ⟨fuel', i, _, hdrop', hrun⟩ :=
          run_lit hnul mode c hread hdrop (formatOf_ne_nil F) fuel
        rw [hrun]
        exact ih.put c.1 (hsep hread) hdrop' hsampled harg hwrote
  · -- after half a %% it starts a directive
    obtain ⟨rfl, hstarts⟩ := Classical.not_imp.mp hread
    exact half_misses hnul (not_not.mp hstarts) F fuel hsampled hdrop hwrote

theorem MisreadsRest.percent {F : List Piece} (ih : MisreadsRest chars str F) :
    MisreadsRest chars str (.percent :: F) := by
  intro mode fuel st out hsep hdrop hsampled harg hwrote
  rw [separated_percent_iff] at hsep
  cases fuel with
  | zero => exact misses_zero _ _ _ _
  | succ fuel =>
      obtain ⟨fuel', i, _, hdrop', hrun⟩ := run_percent hnul mode hdrop fuel
      rw [hrun]
      exact ih.put (ch '%') hsep hdrop' hsampled harg hwrote

/-- A directive that is read: its sample's text is right, but what %x adds to it and the
    rest of the format are not both. -/
theorem MisreadsRest.directive_turn {F : List Piece} (ih : MisreadsRest chars str F)
    (d : Directive) {fuel : Nat} {st : VsState} {out : List Byte} (hsep : ¬ Separated .copy F)
    (hdrop : (chars ++ [0#8]).drop st.i = ch '%' :: (d.text ++ formatOf F))
    (hsampled : Sampled st) (harg : st.arg = sampleArgs (.directive d :: F))
    (hwrote : st.Wrote str out) :
    Misses (Mode.turn.run (chars ++ [0#8]) (fuel + 1) st) str
      (out ++ sampleText (.directive d :: F)) := by
  have hdrop1 : (chars ++ [0#8]).drop (st.i + 1) = d.text ++ formatOf F :=
    CArray.drop_succ_of_drop hdrop
  have hmoved : Sampled { st with i := st.i + 1 } :=
    ⟨hsampled.arg, hsampled.temp, hsampled.residue⟩
  rw [run_directive hnul (List.append_ne_nil_of_right_ne_nil _ (formatOf_ne_nil F)) hdrop]
  rcases directive_sampled { st with i := st.i + 1 } out hmoved
    ⟨hwrote.str_eq, hwrote.written⟩ d hdrop1 with
    ⟨fault, h⟩ | ⟨st', _, a, harg', h, hsampled', hi, rfl, hwrote'⟩
  · intro st' hrun
    rw [h] at hrun
    cases hrun
  · rw [h]
    show Misses (Mode.copy.run (chars ++ [0#8]) fuel st') str _
    have hdrop' : (chars ++ [0#8]).drop st'.i = formatOf F := by
      rw [hi, ← List.drop_drop, hdrop1, List.drop_left]
    have hargs : st'.arg = sampleArgs F := by
      have hcons : sampleArgs (.directive d :: F) = a :: st'.arg := harg.symm.trans harg'
      exact (List.cons.inj hcons).2.symm
    obtain ⟨n, hn⟩ : ∃ n, (if d = .hex then residue st.temp else [])
        = List.replicate n (ch '7') := by
      split
      · exact hsampled.residue
      · exact ⟨0, rfl⟩
    rw [hn] at hwrote'
    rw [sampleText, ← List.append_assoc]
    cases n with
    | zero =>
        rw [List.replicate_zero, List.append_nil] at hwrote'
        exact ih .copy fuel st' (out ++ d.sampleText) hsep hdrop' hsampled' hargs hwrote'
    | succ n =>
        -- a row of '7's too many
        exact run_ahead hnul n F .copy fuel st' (out ++ d.sampleText) (fun h => nomatch h)
          hdrop' hwrote'

theorem MisreadsRest.directive {F : List Piece} (ih : MisreadsRest chars str F)
    (d : Directive) : MisreadsRest chars str (.directive d :: F) := by
  intro mode fuel st out hsep hdrop hsampled harg hwrote
  rw [formatOf_cons] at hdrop
  obtain ⟨c, more, heq, hc⟩ := exists_head_sampleText d
  have hne : ch '%' ≠ c := by rcases hc with rfl | rfl | rfl <;> decide
  have hput := hwrote.put (ch '%')
  cases fuel with
  | zero => exact misses_zero _ _ _ _
  | succ fuel =>
      cases mode with
      | turn => exact ih.directive_turn hnul d hsep hdrop hsampled harg hwrote
      | copy =>
          -- the '%' is copied
          rw [run_copy _ hdrop, sampleText, heq]
          exact misses_of_ne ⟨hput.str_eq, hput.written⟩ hne
      | half =>
          -- so is this one, as the character after another '%'
          show Misses (Mode.turn.run _ _ _) _ _
          rw [run_special hnul (by decide) hdrop, sampleText, heq]
          exact misses_of_ne ⟨hput.str_eq, hput.written⟩ hne

/-- A format that is not separated is misread, from any point between two pieces. -/
theorem run_misreads (F : List Piece) : MisreadsRest chars str F := by
  induction F with
  | nil => exact misreadsRest_nil hnul
  | cons piece F ih =>
      cases piece with
      | lit c => exact ih.lit hnul c
      | percent => exact ih.percent hnul
      | directive d => exact ih.directive hnul d

end Misreads

theorem mem_sampleArgs {F : List Piece} {a : VaArg} (h : a ∈ sampleArgs F) :
    ∃ d : Directive, a = d.sample := by
  induction F with
  | nil => exact absurd h List.not_mem_nil
  | cons piece F ih =>
      cases piece with
      | lit c => exact ih h
      | percent => exact ih h
      | directive d =>
          rcases List.mem_cons.mp h with rfl | h
          · exact ⟨d, rfl⟩
          · exact ih h

/-- Every format that is not separated is misread for the sample arguments. -/
theorem not_renders_sample {F : List Piece} (hsep : ¬ Separated .turn F) :
    ¬ Renders F (sampleArgs F) (sampleText F) := by
  intro h
  obtain ⟨st, hrun, hst⟩ := except_bind_ok (h fun _ => 0#8)
  injection hst with hst
  obtain ⟨hstr, hwritten⟩ := Prod.mk.inj hst
  exact run_misreads (nul_notMem_pieces F) F .turn (formatOf F).length _ [] hsep rfl
    ⟨fun _ ha => mem_sampleArgs ha, tracks_zero.toTempOk, 0, rfl⟩ rfl ⟨rfl, rfl⟩ st hrun
    ⟨hstr, hwritten⟩

/-- "%c%c" prints the second directive instead of its argument. -/
theorem vsprintf_adjacent_misread :
    render [.directive .char, .directive .char] [.int 0x61#32, .int 0x62#32]
      = some [ch 'a', ch 'b'] ∧
    ¬ Renders [.directive .char, .directive .char] [.int 0x61#32, .int 0x62#32]
        [ch 'a', ch 'b'] := by
  refine ⟨by decide, fun h => ?_⟩
  have hcount : (vsprintf (fun _ => 0#8) (formatOf [.directive .char, .directive .char])
      [.int 0x61#32, .int 0x62#32]).map Prod.snd = .ok 3 := rfl
  rw [h] at hcount
  exact absurd hcount (by decide)

/-- **When `vsprintf` concatenates its pieces.**  On a separated format it is right
    exactly for the matching arguments that are clean.  Every other format it gets
    wrong for some matching arguments, none of them the most negative `int`. -/
theorem vsprintf_concatenates_iff (F : List Piece) :
    (Separated .turn F → ∀ arg text, render F arg = some text →
      (Renders F arg text ↔ Clean false F arg)) ∧
    (¬ Separated .turn F → ∃ arg text, render F arg = some text ∧
      .int (BitVec.intMin 32) ∉ arg ∧ ¬ Renders F arg text) := by
  constructor
  · exact fun hsep arg text hrender => renders_iff_clean hsep hrender
  · intro hsep
    refine ⟨sampleArgs F, sampleText F, render_sampleArgs F, fun h => ?_,
      not_renders_sample hsep⟩
    obtain ⟨d, hd⟩ := mem_sampleArgs h
    cases d <;> exact absurd hd (by decide)

/-- "%c%%%x." with 'a' and 0x2A. -/
theorem vsprintf_concatenates_iff_separated :
    Renders [.directive .char, .percent, .lit ⟨ch '.', by decide⟩, .directive .hex,
        .lit ⟨ch '.', by decide⟩] [.int 0x61#32, .int 0x2A#32]
      [ch 'a', ch '%', ch '.', ch '0', ch '0', ch '0', ch '0', ch '0', ch '0', ch '2', ch 'A',
       ch '.'] :=
  ((vsprintf_concatenates_iff _).1 (by simp [Separated]; decide) _ _ (by decide)).mpr
    (by simp [Clean, Directive.Clean, Directive.dirties])

end EchOS
