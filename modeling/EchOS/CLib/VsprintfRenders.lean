/-
  EchOS.CLib.VsprintfRenders

  When `vsprintf` prints the concatenation of its pieces.

  A format that is not `Separated` is misread for some arguments.  On a separated
  format two things can still go wrong: %d prints the most negative `int` in
  characters that are no digits, and %x, whose digits get no terminator, also prints
  what a longer number left behind them in `temp` (`Clean`).
-/
import EchOS.CLib.VsprintfPieces

namespace EchOS

open CArray (Fault overlay)

/-- Whether `temp` holds a character behind its first 8 after the directive. -/
def Directive.dirties : Directive → VaArg → Bool → Bool
  | .dec, .int value, dirty =>
      if (decimalText value.toInt).length = 8 then false
      else decide (8 < (decimalText value.toInt).length) || dirty
  | .longHex, _, _ => true
  | _, _, dirty => dirty

/-- %d is not given the most negative `int`, and %x finds a clean `temp`. -/
def Directive.Clean : Directive → VaArg → Bool → Prop
  | .dec, .int value, _ => value ≠ BitVec.intMin 32
  | .hex, _, dirty => dirty = false
  | _, _, _ => True

/-- Every directive is clean, when `temp` starts out as `dirty` says. -/
def Clean : Bool → List Piece → List VaArg → Prop
  | dirty, .lit _ :: F, arg | dirty, .percent :: F, arg => Clean dirty F arg
  | dirty, .directive d :: F, a :: arg => d.Clean a dirty ∧ Clean (d.dirties a dirty) F arg
  | _, _, _ => True

/-- `dirty` tells whether there is anything behind the first 8 characters of `temp`. -/
structure Tracks (temp : CString) (dirty : Bool) : Prop extends TempOk temp where
  residue_iff : residue temp = [] ↔ dirty = false

/-! ## One directive -/

theorem decimalText_min :
    decimalText (BitVec.intMin 32).toInt = (ch '-' :: [2, 1, 4, 7, 4, 8, 3, 6, 4, 8].map digitByte) := by
  have htoInt : (BitVec.intMin 32).toInt = -2147483648 := by decide
  have hdigits : Nat.digits 10 2147483648 = [8, 4, 6, 3, 8, 4, 7, 4, 1, 2] := by norm_num
  rw [htoInt, decimalText, if_pos (by decide), natText, if_neg (by decide)]
  rw [show (-2147483648 : Int).natAbs = 2147483648 from rfl, hdigits]
  rfl

theorem length_itoaText (value : BitVec 32) :
    (itoaText value).length = (decimalText value.toInt).length := by
  by_cases h : value = BitVec.intMin 32
  · rw [h, decimalText_min]
    rfl
  · rw [itoaText, if_neg h]

theorem itoaText_eq_iff (value : BitVec 32) :
    itoaText value = decimalText value.toInt ↔ value ≠ BitVec.intMin 32 := by
  constructor
  · rintro heq rfl
    rw [decimalText_min] at heq
    exact absurd heq (by decide)
  · intro h
    rw [itoaText, if_neg h]

theorem drop_overlay (temp data : CString) (n : Nat) :
    (overlay temp data).drop n = data.drop n ++ temp.drop (max n data.length) := by
  rw [overlay, List.drop_append, List.drop_drop]
  congr 2
  omega

theorem residue_overlay_short {temp data : CString} (h : data.length ≤ 8) :
    residue (overlay temp data) = residue temp := by
  rw [residue, drop_overlay, List.drop_eq_nil_of_le h, List.nil_append, Nat.max_eq_left h]
  rfl

/-- The text of %d moves or ends what is left in `temp`. -/
theorem residue_itoaText {temp : CString} {dirty : Bool} (h : Tracks temp dirty)
    (value : BitVec 32) :
    Tracks (overlay temp (itoaText value ++ [0#8])) (Directive.dec.dirties (.int value) dirty) where
  toTempOk := (Directive.emit_tempOk (d := .dec) (a := .int value) h.toTempOk rfl)
  residue_iff := by
    have hlen := length_itoaText value
    rw [Directive.dirties, ← hlen]
    rcases Nat.lt_trichotomy (itoaText value).length 8 with hlt | heq | hgt
    · -- the terminator is among the first 8 characters
      rw [residue_overlay_short (by rw [List.length_append, List.length_singleton]; omega),
        if_neg (by omega), decide_eq_false (by omega), Bool.false_or]
      exact h.residue_iff
    · rw [if_pos heq, residue, drop_overlay, List.drop_append, List.drop_eq_nil_of_le (by omega)]
      simp [heq]
    · rw [if_neg (by omega), decide_eq_true hgt, Bool.true_or]
      have hne : residue (overlay temp (itoaText value ++ [0#8])) ≠ [] := by
        have hdrop : 0#8 ∉ (itoaText value).drop 8 := fun hmem =>
          nul_notMem_itoaText value (List.mem_of_mem_drop hmem)
        rw [residue, drop_overlay, List.drop_append_of_le_length (by omega), List.append_assoc,
          takeWhile_text hdrop]
        refine List.append_ne_nil_of_left_ne_nil ?_ _
        rw [ne_eq, List.drop_eq_nil_iff]
        omega
      simp [hne]

theorem residue_hexText16 {temp : CString} (h : TempOk temp) (n : Nat) :
    residue (overlay temp (hexText 16 n)) = (hexText 16 n).drop 8 := by
  have hdrop : 0#8 ∉ (hexText 16 n).drop 8 := fun hmem =>
    nul_notMem_hexText 16 n (List.mem_of_mem_drop hmem)
  rw [residue, drop_overlay, length_hexText, takeWhile_text hdrop,
    show max 8 16 = 16 from rfl, h.tail]
  exact List.append_nil _

/-- What the code writes for a directive, against what it should write. -/
theorem emit_render {d : Directive} {a : VaArg} {temp : CString} {dirty : Bool}
    {text : List Byte} (h : Tracks temp dirty) (hrender : d.render a = some text) :
    ∃ text' temp', d.emit a temp = some (text', temp') ∧ Tracks temp' (d.dirties a dirty) ∧
      text.length ≤ text'.length ∧ (text' = text ↔ d.Clean a dirty) := by
  unfold Directive.render at hrender
  split at hrender
  · cases hrender
    exact ⟨_, _, rfl, h, Nat.le_refl _, iff_of_true rfl trivial⟩
  -- %d: right but for -2^31
  · next value =>
      cases hrender
      exact ⟨_, _, rfl, residue_itoaText h value, (length_itoaText value).ge,
        itoaText_eq_iff value⟩
  -- %x: `xtoa` stores no terminator, so what stands behind the digits is copied too
  · next value =>
      cases hrender
      have hlen : (hexText 8 value.toNat).length ≤ 8 := (length_hexText 8 _).le
      refine ⟨_, _, rfl, ⟨h.toTempOk.overlay (by omega), ?_⟩, ?_, ?_⟩
      · rw [residue_overlay_short hlen]
        exact h.residue_iff
      · rw [List.length_append]
        exact Nat.le_add_right _ _
      · rw [List.append_right_eq_self]
        exact h.residue_iff
  -- %llx: right, and it leaves digits behind for the next %x
  · next value =>
      cases hrender
      refine ⟨_, _, rfl, ⟨h.toTempOk.overlay (length_hexText 16 _).le, ?_⟩, Nat.le_refl _,
        iff_of_true rfl trivial⟩
      refine iff_of_false ?_ (by simp [Directive.dirties])
      rw [residue_hexText16 h.toTempOk, List.drop_eq_nil_iff, length_hexText]
      decide
  · next value =>
      split at hrender
      · next hmem =>
          cases hrender
          exact ⟨_, temp, if_pos hmem, h, Nat.le_refl _, iff_of_true rfl trivial⟩
      · cases hrender
  · cases hrender

/-! ## A whole format -/

theorem append_eq_append_iff_of_le {text text' rest rest' : List Byte}
    (htext : text.length ≤ text'.length) (hrest : rest.length ≤ rest'.length) :
    text' ++ rest' = text ++ rest ↔ text' = text ∧ rest' = rest := by
  constructor
  · intro heq
    have hlen := congrArg List.length heq
    rw [List.length_append, List.length_append] at hlen
    exact List.append_inj heq (by omega)
  · rintro ⟨rfl, rfl⟩
    rfl

/-- On a separated format the code writes at least as much as it should, and writes
    what it should exactly if the format is clean for the arguments. -/
theorem emits_render (F : List Piece) :
    ∀ (arg : List VaArg) (temp : CString) (dirty : Bool) (text : List Byte), Tracks temp dirty →
      render F arg = some text → ∃ text', emits F arg temp = some text' ∧
        text.length ≤ text'.length ∧ (text' = text ↔ Clean dirty F arg) := by
  induction F with
  | nil =>
      intro arg temp dirty text h hrender
      cases arg with
      | nil =>
          cases hrender
          exact ⟨[], rfl, Nat.le_refl _, iff_of_true rfl trivial⟩
      | cons a arg => cases hrender
  | cons piece F ih =>
      intro arg temp dirty text h hrender
      cases piece with
      | lit c =>
          obtain ⟨rest, hrest, rfl⟩ := Option.map_eq_some_iff.mp hrender
          obtain ⟨rest', hemits, hlen, hiff⟩ := ih arg temp dirty rest h hrest
          refine ⟨c.1 :: rest', by rw [emits, hemits]; rfl, Nat.succ_le_succ hlen, ?_⟩
          rw [List.cons_inj_right]
          exact hiff
      | percent =>
          obtain ⟨rest, hrest, rfl⟩ := Option.map_eq_some_iff.mp hrender
          obtain ⟨rest', hemits, hlen, hiff⟩ := ih arg temp dirty rest h hrest
          refine ⟨ch '%' :: rest', by rw [emits, hemits]; rfl, Nat.succ_le_succ hlen, ?_⟩
          rw [List.cons_inj_right]
          exact hiff
      | directive d =>
          cases arg with
          | nil => cases hrender
          | cons a arg =>
              obtain ⟨out, hout, hrest⟩ := Option.bind_eq_some_iff.mp hrender
              obtain ⟨rest, hrest', rfl⟩ := Option.map_eq_some_iff.mp hrest
              -- neither part is shorter than it should be, so no error hides another
              obtain ⟨out', temp', hemit, htracks, hlen, hiff⟩ := emit_render h hout
              obtain ⟨rest', hemits, hlen', hiff'⟩ := ih arg temp' _ rest htracks hrest'
              refine ⟨out' ++ rest', by rw [emits, hemit]; simp [hemits], ?_, ?_⟩
              · rw [List.length_append, List.length_append]
                omega
              · rw [append_eq_append_iff_of_le hlen hlen', hiff, hiff']
                exact Iff.rfl

theorem tracks_zero : Tracks (List.replicate 32 0#8) false where
  length := List.length_replicate
  tail := rfl
  residue_iff := iff_of_true rfl rfl

/-- What `vsprintf` does on a separated format. -/
theorem vsprintf_emits {F : List Piece} (hsep : Separated .turn F) {arg : List VaArg}
    {text : List Byte} (hemits : emits F arg (List.replicate 32 0#8) = some text)
    (str : Nat → Byte) : vsprintf str (formatOf F) arg = .ok (stored str text, text.length) := by
  have hwrote : VsState.Wrote
      { i := 0, arg, temp := List.replicate 32 0#8, str, written := 0 } str [] := ⟨rfl, rfl⟩
  obtain ⟨st, hrun, hst⟩ := run_emits (nul_notMem_pieces F) F .turn (formatOf F).length _ [] text
    hsep rfl (Nat.le_refl _) tracks_zero.toTempOk hemits hwrote
  have hloop : vsprintf.loop (formatOf F) (formatOf F).length
      { i := 0, arg, temp := List.replicate 32 0#8, str, written := 0 } = .ok st := hrun
  rw [vsprintf, hloop]
  show Except.ok (st.str, st.written) = _
  rw [hst.str_eq, hst.written, List.nil_append]

/-- On a separated format `vsprintf` is right exactly for the arguments that are clean. -/
theorem renders_iff_clean {F : List Piece} (hsep : Separated .turn F) {arg : List VaArg}
    {text : List Byte} (hrender : render F arg = some text) :
    Renders F arg text ↔ Clean false F arg := by
  obtain ⟨text', hemits, _, hiff⟩ := emits_render F arg _ false text tracks_zero hrender
  rw [← hiff]
  constructor
  · intro h
    have heq := h fun _ => 0#8
    rw [vsprintf_emits hsep hemits] at heq
    injection heq with heq
    obtain ⟨hstr, hlen⟩ := Prod.mk.injEq _ _ _ _ ▸ heq
    exact stored_inj hlen hstr
  · rintro rfl str
    exact vsprintf_emits hsep hemits str

/-- `ssfn_printf` puts what `vsprintf` wrote on the screen, if its buffer holds it. -/
theorem Renders.ssfnPrintf {F : List Piece} {arg : List VaArg} {text : List Byte}
    (h : Renders F arg text) (hfits : text.length ≤ 1024) :
    ssfnPrintf (formatOf F) arg = .ok (text, text.length + 1) := by
  have hprinted : (List.range text.length).map (stored (fun _ => 0#8) text) = text := by
    refine List.ext_getElem (by simp) fun k hk hk' => ?_
    simp [stored, hk']
  rw [EchOS.ssfnPrintf, h]
  show (if text.length > 1024 then _ else _) = _
  rw [if_neg (Nat.not_lt.mpr hfits), hprinted]

end EchOS
