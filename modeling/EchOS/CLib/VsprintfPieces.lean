/-
  EchOS.CLib.VsprintfPieces

  What `vsprintf` should print for a format made of pieces (`render`), and what it
  prints for the formats it reads as they are meant.

  After a directive the next character is copied without a look at it, so it should
  be a literal.  Of a %% there only the first half is copied; the second half is then
  taken for the start of a directive, which does no harm as long as the character
  after it starts none.  `Separated` says that all directives are followed like that.
-/
import EchOS.CLib.ItoaText
import EchOS.CLib.Vsprintf

namespace EchOS

open CArray (Fault read write overlay)

/-! ## Formats and their texts -/

/-- A character that stands for itself in a format. -/
abbrev Literal := {c : Byte // c ≠ 0#8 ∧ c ≠ ch '%'}

/-- %c, %d, %x, %llx and %s. -/
inductive Directive where
  | char
  | dec
  | hex
  | longHex
  | string
  deriving Repr, DecidableEq

inductive Piece where
  | lit (c : Literal)
  | percent
  | directive (d : Directive)
  deriving DecidableEq

/-- The characters after the '%'. -/
def Directive.text : Directive → List Byte
  | .char => [ch 'c']
  | .dec => [ch 'd']
  | .hex => [ch 'x']
  | .longHex => [ch 'l', ch 'l', ch 'x']
  | .string => [ch 's']

def Piece.text : Piece → List Byte
  | .lit c => [c.1]
  | .percent => [ch '%', ch '%']
  | .directive d => ch '%' :: d.text

/-- The characters of a format, and its NUL. -/
def formatOf (F : List Piece) : CString := F.flatMap Piece.text ++ [0#8]

/-- An upper-case hexadecimal digit. -/
def hexDigit (d : Nat) : Byte := hexChars.getD d 0#8

/-- The last `count` hexadecimal digits of a number. -/
def hexText : (count : Nat) → (n : Nat) → List Byte
  | 0, _ => []
  | count + 1, n => hexDigit (n / 16 ^ count % 16) :: hexText count n

/-- The text of a directive for an argument of its type. -/
def Directive.render : Directive → VaArg → Option (List Byte)
  | .char, .int value => some [value.setWidth 8]
  | .dec, .int value => some (decimalText value.toInt)
  | .hex, .int value => some (hexText 8 value.toNat)
  | .longHex, .uint64 value => some (hexText 16 value.toNat)
  | .string, .string value => if 0#8 ∈ value then some (value.takeWhile (· ≠ 0#8)) else none
  | _, _ => none

/-- The concatenation of the pieces, for an argument list that matches them. -/
def render : List Piece → List VaArg → Option (List Byte)
  | [], [] => some []
  | [], _ :: _ => none
  | .lit c :: F, arg => (render F arg).map (c.1 :: ·)
  | .percent :: F, arg => (render F arg).map (ch '%' :: ·)
  | .directive _ :: _, [] => none
  | .directive d :: F, a :: arg =>
      (d.render a).bind fun text => (render F arg).map (text ++ ·)

/-- `str` with a text stored at its start. -/
def stored (str : Nat → Byte) (text : List Byte) : Nat → Byte :=
  fun k => (text[k]?).getD (str k)

/-- `vsprintf` writes the text and returns its length. -/
def Renders (F : List Piece) (arg : List VaArg) (text : List Byte) : Prop :=
  ∀ str, vsprintf str (formatOf F) arg = .ok (stored str text, text.length)

/-! ## The digits of %x and %llx -/

/-- The value of an upper-case hexadecimal digit. -/
def hexValue (c : Byte) : Nat := hexChars.idxOf c

theorem length_hexText (count n : Nat) : (hexText count n).length = count := by
  induction count with
  | zero => rfl
  | succ count ih => rw [hexText, List.length_cons, ih]

theorem hexDigit_spec : ∀ d, d < 16 →
    read hexChars d = .ok (hexDigit d) ∧ hexValue (hexDigit d) = d ∧ hexDigit d ≠ 0#8 := by
  decide

/-- Reading the digits back gives the number. -/
theorem hexText_value (count n : Nat) :
    (hexText count n).foldl (fun value c => 16 * value + hexValue c) 0 = n % 16 ^ count := by
  have hfold : ∀ (text : List Byte) (value : Nat),
      text.foldl (fun value c => 16 * value + hexValue c) value
        = value * 16 ^ text.length + text.foldl (fun value c => 16 * value + hexValue c) 0 := by
    intro text
    induction text with
    | nil => simp
    | cons c text ih =>
        intro value
        rw [List.foldl_cons, ih, List.foldl_cons, ih (16 * 0 + hexValue c), List.length_cons,
          Nat.pow_succ]
        ring
  induction count with
  | zero => simp [hexText, Nat.mod_one]
  | succ count ih =>
      rw [hexText, List.foldl_cons, hfold, length_hexText, ih,
        (hexDigit_spec _ (Nat.mod_lt _ (by decide))).2.1, Nat.pow_succ, Nat.mod_mul]
      ring

theorem nul_notMem_hexText (count n : Nat) : 0#8 ∉ hexText count n := by
  induction count with
  | zero => exact List.not_mem_nil
  | succ count ih =>
      have hdigit := (hexDigit_spec (n / 16 ^ count % 16) (Nat.mod_lt _ (by decide))).2.2
      exact List.not_mem_cons_of_ne_of_not_mem hdigit.symm ih

/-- The loop of `x32toa` and `x64toa` stores the digits. -/
theorem xtoa_loop {w : Nat} (num : BitVec w) (hw : 4 ≤ w) (str : CString) :
    ∀ (left : Nat) (data : List Byte), data.length + left + 1 ≤ str.length →
      xtoa.loop num left data.length (overlay str data)
        = .ok (overlay str (data ++ hexText (left + 1) num.toNat)) := by
  have hmask : ∀ n : BitVec w, (n &&& BitVec.ofNat w 0xF).toNat = n.toNat % 16 := by
    intro n
    have hlt : 15 < 2 ^ w := Nat.lt_of_lt_of_le (by decide) (Nat.pow_le_pow_right (by decide) hw)
    rw [BitVec.toNat_and, BitVec.toNat_ofNat, Nat.mod_eq_of_lt hlt]
    exact Nat.and_two_pow_sub_one_eq_mod _ 4
  intro left
  induction left with
  -- the last digit is the low four bits, unshifted
  | zero =>
      intro data hfits
      have hread := (hexDigit_spec (num.toNat % 16) (Nat.mod_lt _ (by decide))).1
      rw [xtoa.loop, hmask, hread]
      show write (overlay str data) data.length (hexDigit (num.toNat % 16)) = _
      rw [CArray.write_overlay (by omega)]
      simp [hexText]
  | succ left ih =>
      intro data hfits
      have hshift : (num >>> (4 * (left + 1))).toNat = num.toNat / 16 ^ (left + 1) := by
        rw [BitVec.toNat_ushiftRight, Nat.shiftRight_eq_div_pow, Nat.pow_mul]
      have hread := (hexDigit_spec (num.toNat / 16 ^ (left + 1) % 16)
        (Nat.mod_lt _ (by decide))).1
      have hrest := ih (data ++ [hexDigit (num.toNat / 16 ^ (left + 1) % 16)])
        (by rw [List.length_append, List.length_singleton]; omega)
      rw [List.length_append, List.length_singleton, List.append_assoc,
        List.singleton_append] at hrest
      rw [xtoa.loop, hmask, hshift, hread]
      show (write (overlay str data) data.length (hexDigit _) >>= _) = _
      rw [CArray.write_overlay (by omega)]
      exact hrest

theorem x32toa_text (num : BitVec 32) {str : CString} (hfits : 8 ≤ str.length) :
    x32toa num str = .ok (overlay str (hexText 8 num.toNat)) :=
  xtoa_loop num (by decide) str 7 [] (by simpa using hfits)

theorem x64toa_text (num : BitVec 64) {str : CString} (hfits : 16 ≤ str.length) :
    x64toa num str = .ok (overlay str (hexText 16 num.toNat)) :=
  xtoa_loop num (by decide) str 15 [] (by simpa using hfits)

/-! ## What has been written -/

/-- `text` has been written over `str`. -/
structure VsState.Wrote (st : VsState) (str : Nat → Byte) (text : List Byte) : Prop where
  str_eq : st.str = stored str text
  written : st.written = text.length

theorem stored_concat (str : Nat → Byte) (text : List Byte) (c : Byte) :
    stored str (text ++ [c]) = Function.update (stored str text) text.length c := by
  funext k
  unfold stored
  by_cases hk : k = text.length
  · subst hk
    simp
  · rw [Function.update_of_ne hk]
    rcases Nat.lt_or_gt_of_ne hk with hlt | hgt
    · rw [List.getElem?_append_left hlt]
    · rw [List.getElem?_eq_none (by rw [List.length_append, List.length_singleton]; omega),
        List.getElem?_eq_none (by omega)]

/-- The text can be read off what was stored, given its length. -/
theorem stored_inj {str : Nat → Byte} {text text' : List Byte} (hlen : text.length = text'.length)
    (h : stored str text = stored str text') : text = text' := by
  refine List.ext_getElem hlen fun k hk hk' => ?_
  have hget := congrFun h k
  unfold stored at hget
  rwa [List.getElem?_eq_getElem hk, List.getElem?_eq_getElem hk', Option.getD_some,
    Option.getD_some] at hget

namespace VsState

variable {st : VsState} {str : Nat → Byte} {out : List Byte}

theorem Wrote.put (h : st.Wrote str out) (c : Byte) : (st.put c).Wrote str (out ++ [c]) where
  str_eq := by rw [VsState.put, h.str_eq, h.written, stored_concat]
  written := by rw [VsState.put, h.written, List.length_append, List.length_singleton]

/-- The other locals do not matter. -/
theorem Wrote.moved (h : st.Wrote str out) (i : Nat) (arg : List VaArg) (temp : CString) :
    VsState.Wrote { st with i, arg, temp } str out :=
  ⟨h.str_eq, h.written⟩

/-- Characters put one after the other; only `str` and `written` change. -/
def putAll (st : VsState) (text : List Byte) : VsState := text.foldl VsState.put st

theorem Wrote.putAll (h : st.Wrote str out) (text : List Byte) :
    (st.putAll text).Wrote str (out ++ text) := by
  induction text generalizing st out with
  | nil => rwa [List.append_nil]
  | cons c text ih =>
      have := ih (h.put c)
      rwa [List.append_assoc, List.singleton_append] at this

theorem putAll_frame (st : VsState) (text : List Byte) : (st.putAll text).i = st.i ∧
    (st.putAll text).arg = st.arg ∧ (st.putAll text).temp = st.temp := by
  induction text generalizing st with
  | nil => exact ⟨rfl, rfl, rfl⟩
  | cons c text ih => exact ih (st.put c)

end VsState

theorem putString_eq (st : VsState) {s : CString} (h : 0#8 ∈ s) :
    st.putString s = .ok (st.putAll (s.takeWhile (· ≠ 0#8))) := by
  have htake := List.prefix_iff_eq_take.mp (s.takeWhile_prefix (· ≠ 0#8))
  rw [VsState.putString, strlen_takeWhile h]
  show Except.ok (List.foldl VsState.put st (s.take (s.takeWhile (· ≠ 0#8)).length)) = _
  rw [← htake]
  rfl

/-! ## One directive -/

/-- `temp` as `vsprintf` uses it: what lies past its first 16 characters is still 0. -/
structure TempOk (temp : CString) : Prop where
  length : temp.length = 32
  tail : temp.drop 16 = List.replicate 16 0#8

theorem TempOk.overlay {temp : CString} (h : TempOk temp) {data : List Byte}
    (hdata : data.length ≤ 16) : TempOk (overlay temp data) where
  length := by
    rw [CArray.length_overlay (by rw [h.length]; omega)]
    exact h.length
  tail := by
    rw [CArray.overlay, List.drop_append, List.drop_eq_nil_of_le hdata, List.nil_append,
      List.drop_drop, Nat.add_sub_cancel' hdata]
    exact h.tail

theorem TempOk.nul_mem_drop {temp : CString} (h : TempOk temp) {n : Nat} (hn : n ≤ 16) :
    0#8 ∈ temp.drop n := by
  have hmem : 0#8 ∈ (temp.drop n).drop (16 - n) := by
    rw [List.drop_drop, Nat.add_sub_cancel' hn, h.tail]
    exact List.mem_replicate.mpr ⟨by decide, rfl⟩
  exact List.mem_of_mem_drop hmem

/-- What an earlier directive left in `temp` behind the 8 digits of %x. -/
def residue (temp : CString) : List Byte := (temp.drop 8).takeWhile (· ≠ 0#8)

/-- What the code writes for a directive, and what it leaves in `temp`. -/
def Directive.emit : Directive → VaArg → CString → Option (List Byte × CString)
  | .char, .int value, temp => some ([value.setWidth 8], temp)
  | .dec, .int value, temp => some (itoaText value, overlay temp (itoaText value ++ [0#8]))
  | .hex, .int value, temp =>
      some (hexText 8 value.toNat ++ residue temp, overlay temp (hexText 8 value.toNat))
  | .longHex, .uint64 value, temp =>
      some (hexText 16 value.toNat, overlay temp (hexText 16 value.toNat))
  | .string, .string value, temp =>
      if 0#8 ∈ value then some (value.takeWhile (· ≠ 0#8), temp) else none
  | _, _, _ => none

theorem Directive.emit_tempOk {d : Directive} {a : VaArg} {temp temp' : CString}
    {text : List Byte} (h : TempOk temp) (hemit : d.emit a temp = some (text, temp')) :
    TempOk temp' := by
  unfold Directive.emit at hemit
  split at hemit
  · cases hemit
    exact h
  · next value =>
      cases hemit
      have := itoaText_length_le value
      exact h.overlay (by rw [List.length_append, List.length_singleton]; omega)
  · cases hemit
    exact h.overlay (by rw [length_hexText]; decide)
  · cases hemit
    exact h.overlay (by rw [length_hexText])
  · split at hemit <;> cases hemit
    exact h
  · cases hemit

theorem vaInt_cases (arg : List VaArg) :
    (vaInt arg = .error .badArgument ∧ ∀ value rest, arg ≠ .int value :: rest) ∨
    ∃ value rest, arg = .int value :: rest ∧ vaInt arg = .ok (value, rest) := by
  rcases arg with _ | ⟨a, rest⟩
  · exact .inl ⟨rfl, fun _ _ heq => nomatch heq⟩
  · cases a with
    | int value => exact .inr ⟨value, rest, rfl, rfl⟩
    | uint64 value => exact .inl ⟨rfl, fun _ _ heq => nomatch heq⟩
    | string value => exact .inl ⟨rfl, fun _ _ heq => nomatch heq⟩

theorem vaUint64_cases (arg : List VaArg) :
    (vaUint64 arg = .error .badArgument ∧ ∀ value rest, arg ≠ .uint64 value :: rest) ∨
    ∃ value rest, arg = .uint64 value :: rest ∧ vaUint64 arg = .ok (value, rest) := by
  rcases arg with _ | ⟨a, rest⟩
  · exact .inl ⟨rfl, fun _ _ heq => nomatch heq⟩
  · cases a with
    | int value => exact .inl ⟨rfl, fun _ _ heq => nomatch heq⟩
    | uint64 value => exact .inr ⟨value, rest, rfl, rfl⟩
    | string value => exact .inl ⟨rfl, fun _ _ heq => nomatch heq⟩

theorem vaString_cases (arg : List VaArg) :
    (vaString arg = .error .badArgument ∧ ∀ value rest, arg ≠ .string value :: rest) ∨
    ∃ value rest, arg = .string value :: rest ∧ vaString arg = .ok (value, rest) := by
  rcases arg with _ | ⟨a, rest⟩
  · exact .inl ⟨rfl, fun _ _ heq => nomatch heq⟩
  · cases a with
    | int value => exact .inl ⟨rfl, fun _ _ heq => nomatch heq⟩
    | uint64 value => exact .inl ⟨rfl, fun _ _ heq => nomatch heq⟩
    | string value => exact .inr ⟨value, rest, rfl, rfl⟩

/-- An argument of another type than `int` gives no text. -/
theorem Directive.emit_of_not_int {d : Directive} (hd : d = .char ∨ d = .dec ∨ d = .hex)
    {arg : List VaArg} (hne : ∀ value rest, arg ≠ .int value :: rest) (temp : CString) :
    ∀ a rest, arg = a :: rest → d.emit a temp = none := by
  intro a rest harg
  cases a with
  | int value => exact absurd harg (hne value rest)
  | uint64 value => rcases hd with rfl | rfl | rfl <;> rfl
  | string value => rcases hd with rfl | rfl | rfl <;> rfl

/-- The string at the start of `temp` after a text was stored there without a NUL: it
    goes on with what was left behind the text. -/
theorem takeWhile_overlay {temp : CString} {text : List Byte} (hnul : 0#8 ∉ text) :
    (overlay temp text).takeWhile (· ≠ 0#8)
      = text ++ (temp.drop text.length).takeWhile (· ≠ 0#8) := by
  rw [overlay, takeWhile_text hnul]

theorem putString_overlay {temp : CString} (h : TempOk temp) {text : List Byte}
    (hnul : 0#8 ∉ text) (hlen : text.length ≤ 16) (st : VsState) :
    st.putString (overlay temp text)
      = .ok (st.putAll (text ++ (temp.drop text.length).takeWhile (· ≠ 0#8))) := by
  have hmem : 0#8 ∈ overlay temp text := by
    rw [overlay]
    exact List.mem_append_right _ (h.nul_mem_drop hlen)
  rw [putString_eq st hmem, takeWhile_overlay hnul]

/-- With a NUL stored behind it the string is the text. -/
theorem putString_overlay_nul (temp : CString) {text : List Byte} (hnul : 0#8 ∉ text)
    (st : VsState) : st.putString (overlay temp (text ++ [0#8])) = .ok (st.putAll text) := by
  have hmem : 0#8 ∈ overlay temp (text ++ [0#8]) := by
    simp [overlay]
  have hstring : (overlay temp (text ++ [0#8])).takeWhile (· ≠ 0#8) = text := by
    rw [overlay, List.append_assoc, takeWhile_text hnul]
    simp
  rw [putString_eq st hmem, hstring]

/-- The switch does for the directive what `Directive.emit` says, or has no result when
    that is none. -/
def Directive.Emitted (d : Directive) (format : CString) (st : VsState) : Prop :=
  (∃ fault, vsprintf.directive format st = .error fault ∧
    ∀ a arg, st.arg = a :: arg → d.emit a st.temp = none) ∨
  ∃ a arg text temp', st.arg = a :: arg ∧ d.emit a st.temp = some (text, temp') ∧
    vsprintf.directive format st
      = .ok (({ st with i := st.i + d.text.length, arg, temp := temp' }).putAll text)

section Code

variable {format : CString} {st : VsState} {rest : CString}

/-- A directive for an `int` does what `Directive.emit` says if it does so for an `int`. -/
theorem emitted_of_int {d : Directive} (hd : d = .char ∨ d = .dec ∨ d = .hex)
    {next : BitVec 32 × List VaArg → Except Fault VsState}
    (hdir : vsprintf.directive format st = vaInt st.arg >>= next)
    (hint : ∀ value arg, ∃ text temp', d.emit (.int value) st.temp = some (text, temp') ∧
      next (value, arg)
        = .ok (({ st with i := st.i + d.text.length, arg, temp := temp' }).putAll text)) :
    d.Emitted format st := by
  unfold Directive.Emitted
  rw [hdir]
  rcases vaInt_cases st.arg with ⟨h, hne⟩ | ⟨value, arg, harg, h⟩
  · exact .inl ⟨_, by rw [h]; rfl, Directive.emit_of_not_int hd hne st.temp⟩
  · obtain ⟨text, temp', hemit, hnext⟩ := hint value arg
    exact .inr ⟨_, arg, text, temp', harg, hemit, by rw [h]; exact hnext⟩

theorem emitted_char (hdrop : format.drop st.i = ch 'c' :: rest) :
    Directive.char.Emitted format st := by
  have hdir : vsprintf.directive format st = (vaInt st.arg >>= fun value =>
      .ok ({ st with i := st.i + 1, arg := value.2 }.put (value.1.setWidth 8))) := by
    rw [vsprintf.directive, CArray.read_of_drop hdrop]
    rfl
  exact emitted_of_int (.inl rfl) hdir fun value arg => ⟨_, _, rfl, rfl⟩

theorem emitted_dec (hdrop : format.drop st.i = ch 'd' :: rest) (htemp : TempOk st.temp) :
    Directive.dec.Emitted format st := by
  have hdir : vsprintf.directive format st = (vaInt st.arg >>= fun value =>
      itoa value.1 st.temp 10#32 >>= fun temp =>
        { st with i := st.i + 1, arg := value.2, temp }.putString temp) := by
    rw [vsprintf.directive, CArray.read_of_drop hdrop]
    rfl
  refine emitted_of_int (.inr (.inl rfl)) hdir fun value arg => ⟨_, _, rfl, ?_⟩
  have hlen := htemp.length
  show (itoa value st.temp 10#32 >>= _) = _
  rw [itoa_text value (by omega)]
  exact putString_overlay_nul st.temp (nul_notMem_itoaText value) _

/-- No NUL is stored behind the digits of %x, so what was left in `temp` follows. -/
theorem emitted_hex (hdrop : format.drop st.i = ch 'x' :: rest) (htemp : TempOk st.temp) :
    Directive.hex.Emitted format st := by
  have hdir : vsprintf.directive format st = (vaInt st.arg >>= fun value =>
      x32toa value.1 st.temp >>= fun temp =>
        { st with i := st.i + 1, arg := value.2, temp }.putString temp) := by
    rw [vsprintf.directive, CArray.read_of_drop hdrop]
    rfl
  refine emitted_of_int (.inr (.inr rfl)) hdir fun value arg => ⟨_, _, rfl, ?_⟩
  have hlen := htemp.length
  have hshort : (hexText 8 value.toNat).length ≤ 16 := by
    rw [length_hexText]
    decide
  show (x32toa value st.temp >>= _) = _
  rw [x32toa_text value (by omega)]
  show VsState.putString _ _ = _
  rw [putString_overlay htemp (nul_notMem_hexText _ _) hshort, length_hexText]
  rfl

/-- Behind the digits of %llx nothing has ever been stored. -/
theorem emitted_longHex (hdrop : format.drop st.i = ch 'l' :: ch 'l' :: ch 'x' :: rest)
    (htemp : TempOk st.temp) : Directive.longHex.Emitted format st := by
  have hdrop1 := CArray.drop_succ_of_drop hdrop
  have hread2 := CArray.read_of_drop (CArray.drop_succ_of_drop hdrop1)
  have hdir : vsprintf.directive format st = (vaUint64 st.arg >>= fun value =>
      x64toa value.1 st.temp >>= fun temp =>
        { st with i := st.i + 3, arg := value.2, temp }.putString temp) := by
    rw [vsprintf.directive, CArray.read_of_drop hdrop, CArray.read_of_drop hdrop1, hread2]
    rfl
  unfold Directive.Emitted
  rw [hdir]
  -- an argument of another type has no result on either side
  rcases vaUint64_cases st.arg with ⟨h, hne⟩ | ⟨value, arg, harg, h⟩
  · refine .inl ⟨_, by rw [h]; rfl, fun a arg harg => ?_⟩
    cases a with
    | int value => rfl
    | uint64 value => exact absurd harg (hne value arg)
    | string value => rfl
  · refine .inr ⟨_, arg, _, _, harg, rfl, ?_⟩
    have hlen := htemp.length
    have hshort := (length_hexText 16 value.toNat).le
    -- `strlen` stops right behind the 16 digits
    have hnul : (st.temp.drop 16).takeWhile (· ≠ 0#8) = [] := by
      rw [htemp.tail]
      rfl
    rw [h]
    show (x64toa value st.temp >>= _) = _
    rw [x64toa_text value (by omega)]
    show VsState.putString _ _ = _
    rw [putString_overlay htemp (nul_notMem_hexText _ _) hshort, length_hexText, hnul,
      List.append_nil]
    rfl

/-- A string argument without a NUL is read past its end. -/
theorem emitted_string (hdrop : format.drop st.i = ch 's' :: rest) :
    Directive.string.Emitted format st := by
  have hdir : vsprintf.directive format st = (vaString st.arg >>= fun value =>
      { st with i := st.i + 1, arg := value.2 }.putString value.1) := by
    rw [vsprintf.directive, CArray.read_of_drop hdrop]
    rfl
  unfold Directive.Emitted
  rw [hdir]
  rcases vaString_cases st.arg with ⟨h, hne⟩ | ⟨value, arg, harg, h⟩
  · refine .inl ⟨_, by rw [h]; rfl, fun a arg harg => ?_⟩
    cases a with
    | int value => rfl
    | uint64 value => rfl
    | string value => exact absurd harg (hne value arg)
  · rw [h]
    show (∃ fault, VsState.putString _ _ = _ ∧ _) ∨ ∃ a arg text temp', _ ∧ _ ∧
      VsState.putString _ _ = _
    by_cases hmem : 0#8 ∈ value
    · refine .inr ⟨_, arg, _, st.temp, harg, if_pos hmem, ?_⟩
      rw [putString_eq _ hmem]
      rfl
    · refine .inl ⟨.outOfBounds, ?_, fun a arg' harg' => ?_⟩
      · rw [VsState.putString, strlen_eq_error hmem]
        rfl
      · rw [harg] at harg'
        cases harg'
        exact if_neg hmem

/-- A directive does what `Directive.emit` says, or has no result when that is none. -/
theorem directive_emit (st : VsState) (d : Directive) (hdrop : format.drop st.i = d.text ++ rest)
    (htemp : TempOk st.temp) : d.Emitted format st := by
  cases d with
  | char => exact emitted_char hdrop
  | dec => exact emitted_dec hdrop htemp
  | hex => exact emitted_hex hdrop htemp
  | longHex => exact emitted_longHex hdrop htemp
  | string => exact emitted_string hdrop

/-- A '%' before a character that starts no directive does nothing. -/
theorem directive_other {c : Byte} (hdrop : format.drop st.i = c :: rest)
    (hother : c ∉ [ch 'c', ch 'd', ch 'x', ch 'l', ch 's']) :
    vsprintf.directive format st = .ok st := by
  simp only [List.mem_cons, List.not_mem_nil, or_false, not_or] at hother
  obtain ⟨hc, hd, hx, hl, hs⟩ := hother
  rw [vsprintf.directive, CArray.read_of_drop hdrop]
  show (if c = ch 'c' then _ else _) = _
  rw [if_neg hc, if_neg hd, if_neg hx, if_neg hl, if_neg hs]

/-- "%l" without another 'l'. -/
theorem directive_long (st : VsState) {c : Byte}
    (hdrop : format.drop st.i = ch 'l' :: c :: rest) (hc : c ≠ ch 'l') :
    vsprintf.directive format st = .ok { st with i := st.i + 1 } := by
  rw [vsprintf.directive, CArray.read_of_drop hdrop]
  show (read format (st.i + 1) >>= _) = _
  rw [CArray.read_of_drop (CArray.drop_succ_of_drop hdrop)]
  exact if_neg hc

/-- "%ll" without an 'x'. -/
theorem directive_longLong (st : VsState) {c : Byte}
    (hdrop : format.drop st.i = ch 'l' :: ch 'l' :: c :: rest) (hc : c ≠ ch 'x') :
    vsprintf.directive format st = .ok { st with i := st.i + 2 } := by
  have hdrop' := CArray.drop_succ_of_drop hdrop
  rw [vsprintf.directive, CArray.read_of_drop hdrop]
  show (read format (st.i + 1) >>= _) = _
  rw [CArray.read_of_drop hdrop']
  show (read format (st.i + 2) >>= _) = _
  rw [CArray.read_of_drop (CArray.drop_succ_of_drop hdrop')]
  exact if_neg hc

theorem copyNext_eq {c : Byte} (hdrop : format.drop st.i = c :: rest) :
    vsprintf.copyNext format st = .ok { st.put c with i := st.i + 1 } := by
  rw [vsprintf.copyNext, CArray.read_of_drop hdrop]
  rfl

end Code

/-! ## The loop -/

/-- Where the loop stands between two pieces: at the start of a turn, after the
    switch of a directive, or before a '%' that is the second half of a %%. -/
inductive Mode where
  | turn
  | copy
  | half

def Mode.pending : Mode → List Byte
  | .half => [ch '%']
  | _ => []

/-- Where the loop stands after a %%: a copied first half leaves the second one. -/
def Mode.afterPercent : Mode → Mode
  | .turn => .turn
  | _ => .half

def Mode.run (format : CString) (mode : Mode) (fuel : Nat) (st : VsState) :
    Except Fault VsState :=
  match mode with
  | .copy => vsprintf.copyNext format st >>= fun st => vsprintf.loop format fuel st
  | _ => vsprintf.loop format fuel st

section Loop

variable {chars : List Byte} (hnul : 0#8 ∉ chars) {st : VsState} {rest : CString}

include hnul

/-- A turn of the loop, before the NUL. -/
theorem vsprintf_loop_turn {c : Byte} (hdrop : (chars ++ [0#8]).drop st.i = c :: rest) (hrest : rest ≠ [])
    (fuel : Nat) : vsprintf.loop (chars ++ [0#8]) (fuel + 1) st
      = ((if c = ch '%' then vsprintf.directive (chars ++ [0#8]) { st with i := st.i + 1 }
          else .ok st) >>= fun st => Mode.copy.run (chars ++ [0#8]) fuel st) := by
  have hlen := congrArg List.length hdrop
  have hpos := List.length_pos_of_ne_nil hrest
  rw [List.length_drop, List.length_append, List.length_singleton, List.length_cons] at hlen
  have hlt : st.i < chars.length := by omega
  rw [vsprintf.loop, strlen_text hnul]
  show (if st.i < chars.length then _ else _) = _
  rw [if_pos hlt, vsprintf.special, CArray.read_of_drop hdrop]
  rfl

theorem vsprintf_loop_end (st : VsState) (hdrop : ((chars ++ [0#8]).drop st.i).length ≤ 1) (fuel : Nat) :
    vsprintf.loop (chars ++ [0#8]) (fuel + 1) st = .ok st := by
  rw [List.length_drop, List.length_append, List.length_singleton] at hdrop
  rw [vsprintf.loop, strlen_text hnul]
  show (if st.i < chars.length then _ else _) = _
  rw [if_neg (by omega)]

/-- A character that is no '%' is copied. -/
theorem run_literal {c : Byte} (hc : c ≠ ch '%')
    (hdrop : (chars ++ [0#8]).drop st.i = c :: rest) (hrest : rest ≠ []) (fuel : Nat) :
    Mode.turn.run (chars ++ [0#8]) (fuel + 1) st
      = Mode.turn.run (chars ++ [0#8]) fuel { st.put c with i := st.i + 1 } := by
  show vsprintf.loop _ _ _ = _
  rw [vsprintf_loop_turn hnul hdrop hrest, if_neg hc]
  show (vsprintf.copyNext _ _ >>= _) = _
  rw [copyNext_eq hdrop]
  rfl

omit hnul in
/-- After a directive any character is copied. -/
theorem run_copy (st : VsState) {c : Byte} (hdrop : (chars ++ [0#8]).drop st.i = c :: rest) (fuel : Nat) :
    Mode.copy.run (chars ++ [0#8]) fuel st
      = Mode.turn.run (chars ++ [0#8]) fuel { st.put c with i := st.i + 1 } := by
  show (vsprintf.copyNext _ _ >>= _) = _
  rw [copyNext_eq hdrop]
  rfl

/-- So is the character after a '%' when it starts no directive. -/
theorem run_special {c : Byte} (hother : c ∉ [ch 'c', ch 'd', ch 'x', ch 'l', ch 's'])
    (hdrop : (chars ++ [0#8]).drop st.i = ch '%' :: c :: rest) (fuel : Nat) :
    Mode.turn.run (chars ++ [0#8]) (fuel + 1) st
      = Mode.turn.run (chars ++ [0#8]) fuel { st.put c with i := st.i + 2 } := by
  have hdrop' := CArray.drop_succ_of_drop hdrop
  show vsprintf.loop _ _ _ = _
  rw [vsprintf_loop_turn hnul hdrop (List.cons_ne_nil _ _), if_pos rfl,
    directive_other hdrop' hother]
  exact run_copy _ hdrop' fuel

theorem run_directive {tail : List Byte} (htail : tail ≠ [])
    (hdrop : (chars ++ [0#8]).drop st.i = ch '%' :: tail) (fuel : Nat) :
    Mode.turn.run (chars ++ [0#8]) (fuel + 1) st
      = (vsprintf.directive (chars ++ [0#8]) { st with i := st.i + 1 } >>= fun st =>
          Mode.copy.run (chars ++ [0#8]) fuel st) := by
  show vsprintf.loop _ _ _ = _
  rw [vsprintf_loop_turn hnul hdrop htail, if_pos rfl]

omit hnul in
theorem run_zero (mode : Mode) (format : CString) (st st' : VsState) :
    mode.run format 0 st ≠ .ok st' := by
  intro h
  cases mode with
  | turn => cases h
  | half => cases h
  | copy =>
      obtain ⟨st1, _, hloop⟩ := except_bind_ok h
      cases hloop

/-- A literal is copied, unless the '%' before it makes it a directive. -/
theorem run_lit (mode : Mode) (c : Literal)
    (hread : mode = .half → c.1 ∉ [ch 'c', ch 'd', ch 'x', ch 'l', ch 's'])
    (hdrop : (chars ++ [0#8]).drop st.i = mode.pending ++ c.1 :: rest) (hrest : rest ≠ [])
    (fuel : Nat) :
    ∃ fuel' i, fuel ≤ fuel' ∧ (chars ++ [0#8]).drop i = rest ∧
      mode.run (chars ++ [0#8]) (fuel + 1) st
        = Mode.turn.run (chars ++ [0#8]) fuel' { st.put c.1 with i } := by
  cases mode with
  | turn =>
      exact ⟨fuel, st.i + 1, Nat.le_refl _, CArray.drop_succ_of_drop hdrop,
        run_literal hnul c.2.2 hdrop hrest fuel⟩
  | copy =>
      exact ⟨fuel + 1, st.i + 1, Nat.le_succ _, CArray.drop_succ_of_drop hdrop,
        run_copy st hdrop (fuel + 1)⟩
  | half =>
      exact ⟨fuel, st.i + 2, Nat.le_refl _,
        CArray.drop_succ_of_drop (CArray.drop_succ_of_drop hdrop),
        run_special hnul (hread rfl) hdrop fuel⟩

/-- Of a %% one '%' is copied, in every mode. -/
theorem run_percent (mode : Mode)
    (hdrop : (chars ++ [0#8]).drop st.i = mode.pending ++ ch '%' :: ch '%' :: rest) (fuel : Nat) :
    ∃ fuel' i, fuel ≤ fuel' ∧ (chars ++ [0#8]).drop i = mode.afterPercent.pending ++ rest ∧
      mode.run (chars ++ [0#8]) (fuel + 1) st
        = mode.afterPercent.run (chars ++ [0#8]) fuel' { st.put (ch '%') with i } := by
  have hother : ch '%' ∉ [ch 'c', ch 'd', ch 'x', ch 'l', ch 's'] := by decide
  cases mode with
  | turn =>
      exact ⟨fuel, st.i + 2, Nat.le_refl _,
        CArray.drop_succ_of_drop (CArray.drop_succ_of_drop hdrop),
        run_special hnul hother hdrop fuel⟩
  | copy =>
      -- the second half now stands where a turn begins
      exact ⟨fuel + 1, st.i + 1, Nat.le_succ _, CArray.drop_succ_of_drop hdrop,
        run_copy st hdrop (fuel + 1)⟩
  | half =>
      exact ⟨fuel, st.i + 2, Nat.le_refl _,
        CArray.drop_succ_of_drop (CArray.drop_succ_of_drop hdrop),
        run_special hnul hother hdrop fuel⟩

end Loop

/-! ## Formats that are read as they are meant -/

/-- Each directive is followed by a literal, or by one or more %% and a literal that
    starts no directive. -/
def Separated : Mode → List Piece → Prop
  | .turn, [] => True
  | .turn, .lit _ :: F => Separated .turn F
  | .turn, .percent :: F => Separated .turn F
  | .turn, .directive _ :: F => Separated .copy F
  | .copy, .lit _ :: F => Separated .turn F
  | .half, .lit c :: F =>
      c.1 ∉ [ch 'c', ch 'd', ch 'x', ch 'l', ch 's'] ∧ Separated .turn F
  | .copy, .percent :: F | .half, .percent :: F => Separated .half F
  | .copy, _ | .half, _ => False

theorem separated_lit_iff {mode : Mode} {c : Literal} {F : List Piece} :
    Separated mode (.lit c :: F) ↔
      (mode = .half → c.1 ∉ [ch 'c', ch 'd', ch 'x', ch 'l', ch 's']) ∧ Separated .turn F := by
  cases mode with
  | turn => exact (and_iff_right fun h => nomatch h).symm
  | copy => exact (and_iff_right fun h => nomatch h).symm
  | half => exact and_congr_left fun _ => ⟨fun h _ => h, fun h => h rfl⟩

theorem separated_percent_iff {mode : Mode} {F : List Piece} :
    Separated mode (.percent :: F) ↔ Separated mode.afterPercent F := by
  cases mode <;> rfl

/-- What the code writes for a format that is read as it is meant. -/
def emits : List Piece → List VaArg → CString → Option (List Byte)
  | [], [], _ => some []
  | [], _ :: _, _ => none
  | .lit c :: F, arg, temp => (emits F arg temp).map (c.1 :: ·)
  | .percent :: F, arg, temp => (emits F arg temp).map (ch '%' :: ·)
  | .directive _ :: _, [], _ => none
  | .directive d :: F, a :: arg, temp =>
      (d.emit a temp).bind fun r => (emits F arg r.2).map (r.1 ++ ·)

theorem nul_notMem_pieces (F : List Piece) : 0#8 ∉ F.flatMap Piece.text := by
  intro h
  obtain ⟨piece, _, hmem⟩ := List.mem_flatMap.mp h
  cases piece with
  | lit c => exact c.2.1 (List.mem_singleton.mp hmem).symm
  | percent => exact absurd hmem (by decide)
  | directive d => cases d <;> exact absurd hmem (by decide)

theorem formatOf_cons (piece : Piece) (F : List Piece) :
    formatOf (piece :: F) = piece.text ++ formatOf F := by
  rw [formatOf, List.flatMap_cons, List.append_assoc]
  rfl

theorem formatOf_ne_nil (F : List Piece) : formatOf F ≠ [] :=
  List.append_ne_nil_of_right_ne_nil _ (List.cons_ne_nil _ _)

/-- The code writes what `emits` says of the rest `F` of a format, from any point between
    two pieces. -/
def EmitsRest (chars : List Byte) (str : Nat → Byte) (F : List Piece) : Prop :=
  ∀ (mode : Mode) (fuel : Nat) (st : VsState) (out more : List Byte), Separated mode F →
    (chars ++ [0#8]).drop st.i = mode.pending ++ formatOf F →
    (mode.pending ++ formatOf F).length ≤ fuel → TempOk st.temp →
    emits F st.arg st.temp = some more → st.Wrote str out →
    ∃ st', mode.run (chars ++ [0#8]) fuel st = .ok st' ∧ st'.Wrote str (out ++ more)

theorem exists_fuel {mode : Mode} {F : List Piece} {fuel : Nat}
    (h : (mode.pending ++ formatOf F).length ≤ fuel) : ∃ n, fuel = n + 1 := by
  have hpos := List.length_pos_of_ne_nil (formatOf_ne_nil F)
  rw [List.length_append] at h
  exact ⟨fuel - 1, by omega⟩

section Run

variable {chars : List Byte} (hnul : 0#8 ∉ chars) {str : Nat → Byte} {F : List Piece}

/-- Going on after a character was put. -/
theorem EmitsRest.put (h : EmitsRest chars str F) {mode : Mode} {fuel i : Nat} {st : VsState}
    {out rest : List Byte} (c : Byte) (hsep : Separated mode F)
    (hdrop : (chars ++ [0#8]).drop i = mode.pending ++ formatOf F)
    (hfuel : (mode.pending ++ formatOf F).length ≤ fuel) (htemp : TempOk st.temp)
    (hrest : emits F st.arg st.temp = some rest) (hwrote : st.Wrote str out) :
    ∃ st', mode.run (chars ++ [0#8]) fuel { st.put c with i } = .ok st' ∧
      st'.Wrote str (out ++ c :: rest) := by
  have hput := hwrote.put c
  have hrun := h mode fuel { st.put c with i } (out ++ [c]) rest hsep hdrop hfuel htemp hrest
    ⟨hput.str_eq, hput.written⟩
  rwa [List.append_assoc, List.singleton_append] at hrun

include hnul

theorem emitsRest_nil : EmitsRest chars str [] := by
  intro mode fuel st out more hsep hdrop hfuel htemp hemits hwrote
  obtain ⟨fuel, rfl⟩ := exists_fuel hfuel
  cases mode with
  | turn =>
      have hend := vsprintf_loop_end hnul st (by rw [hdrop]; exact Nat.le_refl _) fuel
      refine ⟨st, hend, ?_⟩
      cases harg : st.arg with
      | nil =>
          rw [harg] at hemits
          cases hemits
          rwa [List.append_nil]
      | cons a arg =>
          rw [harg] at hemits
          cases hemits
  | copy => exact hsep.elim
  | half => exact hsep.elim

theorem EmitsRest.lit (ih : EmitsRest chars str F) (c : Literal) :
    EmitsRest chars str (.lit c :: F) := by
  intro mode fuel st out more hsep hdrop hfuel htemp hemits hwrote
  obtain ⟨fuel, rfl⟩ := exists_fuel hfuel
  obtain ⟨rest, hrest, rfl⟩ := Option.map_eq_some_iff.mp hemits
  obtain ⟨hread, hsep⟩ := separated_lit_iff.mp hsep
  rw [formatOf_cons, List.length_append, List.length_append] at hfuel
  obtain ⟨fuel', i, hle, hdrop', hrun⟩ :=
    run_lit hnul mode c hread hdrop (formatOf_ne_nil F) fuel
  have hlen : (Mode.turn.pending ++ formatOf F).length ≤ fuel' := by
    simp [Mode.pending, Piece.text] at hfuel ⊢
    omega
  rw [hrun]
  exact ih.put c.1 hsep hdrop' hlen htemp hrest hwrote

theorem EmitsRest.percent (ih : EmitsRest chars str F) : EmitsRest chars str (.percent :: F) := by
  intro mode fuel st out more hsep hdrop hfuel htemp hemits hwrote
  obtain ⟨fuel, rfl⟩ := exists_fuel hfuel
  obtain ⟨rest, hrest, rfl⟩ := Option.map_eq_some_iff.mp hemits
  rw [formatOf_cons, List.length_append, List.length_append] at hfuel
  obtain ⟨fuel', i, hle, hdrop', hrun⟩ := run_percent hnul mode hdrop fuel
  have hlen : (mode.afterPercent.pending ++ formatOf F).length ≤ fuel' := by
    cases mode <;> simp [Mode.pending, Mode.afterPercent, Piece.text] at hfuel ⊢ <;> omega
  rw [hrun]
  exact ih.put (ch '%') (separated_percent_iff.mp hsep) hdrop' hlen htemp hrest hwrote

theorem EmitsRest.directive (ih : EmitsRest chars str F) (d : Directive) :
    EmitsRest chars str (.directive d :: F) := by
  intro mode fuel st out more hsep hdrop hfuel htemp hemits hwrote
  obtain ⟨fuel, rfl⟩ := exists_fuel hfuel
  rw [formatOf_cons] at hdrop hfuel
  cases mode with
  | turn =>
      have hlen : (ch '%' :: (d.text ++ formatOf F)).length ≤ fuel + 1 := hfuel
      rw [List.length_cons, List.length_append] at hlen
      rw [run_directive hnul (List.append_ne_nil_of_right_ne_nil _ (formatOf_ne_nil F)) hdrop]
      have hdrop' : (chars ++ [0#8]).drop (st.i + 1) = d.text ++ formatOf F :=
        CArray.drop_succ_of_drop hdrop
      rcases directive_emit { st with i := st.i + 1 } d hdrop' htemp with
        ⟨fault, _, hnone⟩ | ⟨a, arg, text, temp', harg, hemit, hdir⟩
      · -- the argument list would not match
        exfalso
        cases harg : st.arg with
        | nil =>
            rw [harg] at hemits
            cases hemits
        | cons a arg =>
            rw [harg, emits, hnone a arg harg] at hemits
            cases hemits
      · obtain ⟨hi, harg', htemp'⟩ := VsState.putAll_frame { st with
          i := st.i + 1 + d.text.length, arg, temp := temp' } text
        have harg : st.arg = a :: arg := harg
        rw [harg, emits, hemit] at hemits
        obtain ⟨rest, hrest, rfl⟩ := Option.map_eq_some_iff.mp hemits
        have hwrote' : VsState.Wrote { st with
            i := st.i + 1 + d.text.length, arg, temp := temp' } str out :=
          ⟨hwrote.str_eq, hwrote.written⟩
        -- the rest starts in the mode that copies
        have h := ih .copy fuel _ (out ++ text) rest hsep
          (by rw [hi, ← List.drop_drop, hdrop', List.drop_left]; rfl)
          (by show (formatOf F).length ≤ fuel; omega)
          (by rw [htemp']; exact Directive.emit_tempOk htemp hemit)
          (by rw [harg', htemp']; exact hrest) (hwrote'.putAll text)
        rw [hdir]
        rwa [List.append_assoc] at h
  | copy => exact hsep.elim
  | half => exact hsep.elim

/-- The code on a separated format. -/
theorem run_emits (F : List Piece) : EmitsRest chars str F := by
  induction F with
  | nil => exact emitsRest_nil hnul
  | cons piece F ih =>
      cases piece with
      | lit c => exact ih.lit hnul c
      | percent => exact ih.percent hnul
      | directive d => exact ih.directive hnul d

end Run

end EchOS
