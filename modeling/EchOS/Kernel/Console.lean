/-
  EchOS.Kernel.Console

  The console of `kernel/drivers/ssfn_fb.c`: where the cursor goes.  Of `ssfn_putc`,
  which is vendored, the model has what it does to the cursor; the pixels that it draws
  and how it finds a glyph in the font file are left out.

  The cursor is two `int16_t`, compared with `size_t`s.  `Cursor` is the same console
  with numbers; nothing in it ever moves the cursor up, so a text that is long enough
  leaves the screen at the bottom.
-/
import EchOS.CLib.Vsprintf
import EchOS.Kernel.InitPaging

namespace EchOS

/-- A call of `ssfn_printf`. -/
abbrev Message := CString × List VaArg

/-- A format string. -/
def format (text : String) : CString := text.toList.map ch ++ [0#8]

/-! ## The code -/

/-- `framebuffer_t`, with the fields that place the text. -/
structure Screen extends Framebuffer where
  width : Word
  margin : Word
  deriving Repr, DecidableEq

/-- The font that `ssfn_src` points to.  `glyph` is the pair of `chr[4]` and `chr[5]`, by
    how much the cursor advances. -/
structure Font where
  valid : Bool
  height : Byte
  glyph : BitVec 32 → Option (Byte × Byte)

/-- `ssfn_buf_t`; `w` and `h` stay 0. -/
structure SsfnBuf where
  ptr : Word
  p : BitVec 16
  x : BitVec 16
  y : BitVec 16
  fg : BitVec 32
  bg : BitVec 32
  deriving Repr, DecidableEq

/-- `'\n'` -/
def newline : Byte := 10#8

/-- `'\r'` -/
def carriageReturn : Byte := 13#8

/-- `ssfn_putc`, as far as the cursor goes. -/
def ssfnPutc (font : Font) (dst : SsfnBuf) (unicode : BitVec 32) : SsfnBuf :=
  if ¬ font.valid ∨ dst.ptr = null ∨ dst.p = 0#16 then dst
  else if unicode = carriageReturn.setWidth 32 ∨ unicode = newline.setWidth 32 then
    { dst with
      x := 0#16
      y := if unicode = newline.setWidth 32 then dst.y + font.height.setWidth 16 else dst.y }
  else
    match font.glyph unicode with
    | none => dst
    | some advance =>
        { dst with x := dst.x + advance.1.setWidth 16, y := dst.y + advance.2.setWidth 16 }

/-- `ssfn_set_color` -/
def ssfnSetColor (dst : SsfnBuf) (foreground background : BitVec 32) : SsfnBuf :=
  { dst with fg := foreground, bg := background }

/-- `ssfn_setup` -/
def ssfnSetup (fb : Screen) : SsfnBuf :=
  ssfnSetColor
    { ptr := fb.buffer
      p := (4#64 * fb.pixelsPerScanline).setWidth 16
      x := fb.margin.setWidth 16
      y := fb.margin.setWidth 16
      fg := 0#32
      bg := 0#32 } 0xFFFFFFFF#32 0#32

/-- `ssfn_put` behind its first line.  In a comparison with a `size_t` the `int16_t` is
    extended with its sign. -/
def ssfnPut.settle (font : Font) (fb : Screen) (dst : SsfnBuf) : SsfnBuf :=
  let dst := if fb.width - fb.margin - 5#64 < dst.x.signExtend 64 then
      ssfnPutc font dst (newline.setWidth 32) else dst
  let dst := if dst.x.signExtend 64 < fb.margin then { dst with x := fb.margin.setWidth 16 } else dst
  if dst.y.signExtend 64 < fb.margin then { dst with y := fb.margin.setWidth 16 } else dst

/-- `ssfn_put`.  `char` is signed. -/
def ssfnPut (font : Font) (fb : Screen) (dst : SsfnBuf) (c : Byte) : SsfnBuf :=
  ssfnPut.settle font fb (ssfnPutc font dst (c.signExtend 32))

/-- The loop of `ssfn_printf` over what `vsprintf` wrote. -/
def ssfnPuts (font : Font) (fb : Screen) (dst : SsfnBuf) (output : List Byte) : SsfnBuf :=
  output.foldl (ssfnPut font fb) dst

/-! ## The console with numbers -/

/-- Where the next character goes. -/
structure Cursor where
  x : Nat
  y : Nat
  deriving Repr, DecidableEq

/-- A character on a console with a line height of `height`, lines from `margin` to
    `right`, and a line break after the character that crosses `right`. -/
def Cursor.put (font : Font) (margin right : Nat) (cursor : Cursor) (c : Byte) : Cursor :=
  if c = newline then ⟨margin, cursor.y + font.height.toNat⟩
  else if c = carriageReturn then ⟨margin, cursor.y⟩
  else
    match font.glyph (c.signExtend 32) with
    | none => cursor
    | some advance =>
        let x := cursor.x + advance.1.toNat
        let y := cursor.y + advance.2.toNat
        if right < x then ⟨margin, y + font.height.toNat⟩ else ⟨x, y⟩

/-- A text from the top left corner. -/
def Cursor.after (font : Font) (margin right : Nat) (text : List Byte) : Cursor :=
  text.foldl (put font margin right) ⟨margin, margin⟩

/-! ## The one and the other -/

theorem signExtend_toNat_of_lt {x : BitVec 16} (h : x.toNat < 2 ^ 15) :
    (x.signExtend 64).toNat = x.toNat := by
  have hmsb : x.msb = false := by
    rw [BitVec.msb_eq_decide]
    exact decide_eq_false (by omega)
  rw [BitVec.signExtend_eq_setWidth_of_msb_false hmsb, BitVec.toNat_setWidth]
  exact Nat.mod_eq_of_lt (by omega)

/-- A `char` is the control character that it is extended to. -/
theorem signExtend_eq_newline_iff (c : Byte) : c.signExtend 32 = newline.setWidth 32 ↔ c = newline := by
  revert c
  decide

theorem signExtend_eq_carriageReturn_iff (c : Byte) :
    c.signExtend 32 = carriageReturn.setWidth 32 ↔ c = carriageReturn := by
  revert c
  decide

/-- The last column where a line goes on. -/
def Screen.right (fb : Screen) : Nat := fb.width.toNat - fb.margin.toNat - 5

/-- There is a font and a framebuffer, and a line has room between the margins and is far
    from the end of an `int16_t`. -/
structure Screen.Fits (fb : Screen) (font : Font) : Prop where
  valid : font.valid = true
  buffer : fb.buffer ≠ null
  pitch : (4#64 * fb.pixelsPerScanline).setWidth 16 ≠ 0#16
  room : 2 * fb.margin.toNat + 5 ≤ fb.width.toNat
  small : fb.width.toNat + 250 < 2 ^ 15

/-- The cursor is at `(x, y)`. -/
structure SsfnBuf.Placed (fb : Screen) (dst : SsfnBuf) (x y : Nat) : Prop where
  ptr_eq : dst.ptr = fb.buffer
  p_eq : dst.p = (4#64 * fb.pixelsPerScanline).setWidth 16
  x_eq : dst.x.toNat = x
  y_eq : dst.y.toNat = y

/-- The cursor is at `cursor`, between the margins. -/
structure SsfnBuf.At (fb : Screen) (dst : SsfnBuf) (cursor : Cursor) : Prop
    extends dst.Placed fb cursor.x cursor.y where
  left : fb.margin.toNat ≤ cursor.x
  right : cursor.x ≤ fb.right
  top : fb.margin.toNat ≤ cursor.y

section Put

variable {font : Font} {fb : Screen} (hfits : fb.Fits font) {dst : SsfnBuf} {x y : Nat}
  {cursor : Cursor}

include hfits

theorem Screen.Fits.margin_toNat : (fb.margin.setWidth 16).toNat = fb.margin.toNat := by
  have hroom := hfits.room
  have hsmall := hfits.small
  rw [BitVec.toNat_setWidth]
  exact Nat.mod_eq_of_lt (by omega)

/-- The right end of the comparison does not wrap. -/
theorem Screen.Fits.right_toNat : (fb.width - fb.margin - 5#64).toNat = fb.right := by
  have hroom := hfits.room
  have hfirst : (fb.width - fb.margin).toNat = fb.width.toNat - fb.margin.toNat :=
    BitVec.toNat_sub_of_le (by rw [BitVec.le_def]; omega)
  have hfive : (5#64 : Word).toNat = 5 := rfl
  rw [BitVec.toNat_sub_of_le (by rw [BitVec.le_def, hfirst, hfive]; omega), hfirst, hfive, Screen.right]

theorem Screen.Fits.margin_le : fb.margin.toNat ≤ fb.right := by
  have hroom := hfits.room
  unfold Screen.right
  omega

theorem Screen.Fits.setup : (ssfnSetup fb).At fb ⟨fb.margin.toNat, fb.margin.toNat⟩ :=
  ⟨⟨rfl, rfl, hfits.margin_toNat, hfits.margin_toNat⟩, Nat.le_refl _, hfits.margin_le, Nat.le_refl _⟩

/-! ### `ssfn_putc` -/

theorem SsfnBuf.Placed.newline (h : dst.Placed fb x y) (hy : y + font.height.toNat < 2 ^ 15) :
    (ssfnPutc font dst (newline.setWidth 32)).Placed fb 0 (y + font.height.toNat) := by
  have hheight : (font.height.setWidth 16).toNat = font.height.toNat := by
    rw [BitVec.toNat_setWidth]
    exact Nat.mod_eq_of_lt (by omega)
  have hy_eq := h.y_eq
  unfold ssfnPutc
  rw [if_neg (by simp [hfits.valid, h.ptr_eq, h.p_eq, hfits.buffer, hfits.pitch]), if_pos (.inr rfl)]
  refine ⟨h.ptr_eq, h.p_eq, rfl, ?_⟩
  simp only [if_true]
  rw [BitVec.toNat_add, hheight, hy_eq]
  exact Nat.mod_eq_of_lt (by omega)

theorem SsfnBuf.Placed.carriageReturn (h : dst.Placed fb x y) :
    (ssfnPutc font dst (carriageReturn.setWidth 32)).Placed fb 0 y := by
  unfold ssfnPutc
  rw [if_neg (by simp [hfits.valid, h.ptr_eq, h.p_eq, hfits.buffer, hfits.pitch]), if_pos (.inl rfl)]
  exact ⟨h.ptr_eq, h.p_eq, rfl, h.y_eq⟩

theorem SsfnBuf.Placed.glyph (h : dst.Placed fb x y) {unicode : BitVec 32}
    (hcr : unicode ≠ EchOS.carriageReturn.setWidth 32) (hnl : unicode ≠ EchOS.newline.setWidth 32)
    {advance : Byte × Byte} (hglyph : font.glyph unicode = some advance)
    (hx : x + advance.1.toNat < 2 ^ 16) (hy : y + advance.2.toNat < 2 ^ 16) :
    (ssfnPutc font dst unicode).Placed fb (x + advance.1.toNat) (y + advance.2.toNat) := by
  have hwide : ∀ b : Byte, (b.setWidth 16).toNat = b.toNat := fun b => by
    rw [BitVec.toNat_setWidth]
    exact Nat.mod_eq_of_lt (by omega)
  unfold ssfnPutc
  rw [if_neg (by simp [hfits.valid, h.ptr_eq, h.p_eq, hfits.buffer, hfits.pitch]),
    if_neg (by simp [hcr, hnl]), hglyph]
  refine ⟨h.ptr_eq, h.p_eq, ?_, ?_⟩
  · dsimp only
    rw [BitVec.toNat_add, hwide, h.x_eq, Nat.mod_eq_of_lt hx]
  · dsimp only
    rw [BitVec.toNat_add, hwide, h.y_eq, Nat.mod_eq_of_lt hy]

theorem SsfnBuf.Placed.noGlyph (h : dst.Placed fb x y) {unicode : BitVec 32}
    (hcr : unicode ≠ EchOS.carriageReturn.setWidth 32) (hnl : unicode ≠ EchOS.newline.setWidth 32)
    (hglyph : font.glyph unicode = none) : ssfnPutc font dst unicode = dst := by
  unfold ssfnPutc
  rw [if_neg (by simp [hfits.valid, h.ptr_eq, h.p_eq, hfits.buffer, hfits.pitch]),
    if_neg (by simp [hcr, hnl]), hglyph]

/-! ### `ssfn_put` -/

/-- Left of the margin the cursor goes to the margin, and it is never above it. -/
theorem SsfnBuf.Placed.clamp (h : dst.Placed fb x y) (hx : x < 2 ^ 15) (hy : y < 2 ^ 15)
    (htop : fb.margin.toNat ≤ y) :
    SsfnBuf.Placed fb
      (let dst := if dst.x.signExtend 64 < fb.margin then { dst with x := fb.margin.setWidth 16 } else dst
       if dst.y.signExtend 64 < fb.margin then { dst with y := fb.margin.setWidth 16 } else dst)
      (max x fb.margin.toNat) y := by
  have hleft : dst.x.signExtend 64 < fb.margin ↔ x < fb.margin.toNat := by
    rw [BitVec.lt_def, signExtend_toNat_of_lt (by rw [h.x_eq]; exact hx), h.x_eq]
  have habove : ¬ dst.y.signExtend 64 < fb.margin := by
    rw [BitVec.lt_def, signExtend_toNat_of_lt (by rw [h.y_eq]; exact hy), h.y_eq]
    omega
  by_cases hlt : x < fb.margin.toNat
  · rw [if_pos (hleft.mpr hlt), Nat.max_eq_right (by omega)]
    exact (if_neg (habove : ¬ dst.y.signExtend 64 < fb.margin)).symm ▸
      ⟨h.ptr_eq, h.p_eq, hfits.margin_toNat, h.y_eq⟩
  · rw [if_neg (fun hless => hlt (hleft.mp hless)), Nat.max_eq_left (by omega)]
    exact (if_neg habove).symm ▸ h

theorem SsfnBuf.Placed.settle (h : dst.Placed fb x y) (hx : x < 2 ^ 15)
    (htop : fb.margin.toNat ≤ y)
    (hy : (if fb.right < x then y + font.height.toNat else y) < 2 ^ 15) :
    (ssfnPut.settle font fb dst).At fb
      (if fb.right < x then ⟨fb.margin.toNat, y + font.height.toNat⟩
       else ⟨max x fb.margin.toNat, y⟩) := by
  have hcross : fb.width - fb.margin - 5#64 < dst.x.signExtend 64 ↔ fb.right < x := by
    rw [BitVec.lt_def, hfits.right_toNat, signExtend_toNat_of_lt (by rw [h.x_eq]; exact hx), h.x_eq]
  have hmargin := hfits.margin_le
  unfold ssfnPut.settle
  dsimp only
  by_cases hlt : fb.right < x
  · rw [if_pos hlt] at hy
    rw [if_pos (hcross.mpr hlt), if_pos hlt]
    have hplaced := (h.newline hfits hy).clamp hfits (by omega) hy (by omega)
    rw [Nat.zero_max] at hplaced
    exact ⟨hplaced, Nat.le_refl _, hmargin, by dsimp only; omega⟩
  · rw [if_neg hlt] at hy
    rw [if_neg (fun hless => hlt (hcross.mp hless)), if_neg hlt]
    exact ⟨h.clamp hfits hx hy htop, Nat.le_max_right _ _, by dsimp only; omega, htop⟩

omit hfits in
theorem Cursor.y_le_put (margin right : Nat) (cursor : Cursor) (c : Byte) :
    cursor.y ≤ (cursor.put font margin right c).y := by
  unfold put
  split
  · exact Nat.le_add_right _ _
  · split
    · exact Nat.le_refl _
    · split
      · exact Nat.le_refl _
      · dsimp only
        split
        · dsimp only
          omega
        · exact Nat.le_add_right _ _

/-- One character. -/
theorem SsfnBuf.At.put (h : dst.At fb cursor) (c : Byte)
    (hbottom : (cursor.put font fb.margin.toNat fb.right c).y < 2 ^ 15) :
    (ssfnPut font fb dst c).At fb (cursor.put font fb.margin.toNat fb.right c) := by
  have hmargin := hfits.margin_le
  have hsmall := hfits.small
  have htop := h.top
  have hright := h.right
  have hlimit : fb.right + 255 < 2 ^ 15 := by
    unfold Screen.right
    omega
  unfold ssfnPut
  unfold Cursor.put at hbottom ⊢
  by_cases hnl : c = EchOS.newline
  · rw [if_pos hnl] at hbottom ⊢
    rw [(signExtend_eq_newline_iff c).mpr hnl]
    have hsettled := (h.toPlaced.newline hfits hbottom).settle hfits (by omega) (by omega)
      (by rw [if_neg (by omega)]; exact hbottom)
    rw [if_neg (by omega), Nat.zero_max] at hsettled
    exact hsettled
  rw [if_neg hnl] at hbottom ⊢
  by_cases hcr : c = EchOS.carriageReturn
  · rw [if_pos hcr] at hbottom ⊢
    rw [(signExtend_eq_carriageReturn_iff c).mpr hcr]
    have hsettled := (h.toPlaced.carriageReturn hfits).settle hfits (by omega) (by omega)
      (by rw [if_neg (by omega)]; exact hbottom)
    rw [if_neg (by omega), Nat.zero_max] at hsettled
    exact hsettled
  rw [if_neg hcr] at hbottom ⊢
  have hnl' := fun heq => hnl ((signExtend_eq_newline_iff c).mp heq)
  have hcr' := fun heq => hcr ((signExtend_eq_carriageReturn_iff c).mp heq)
  cases hglyph : font.glyph (c.signExtend 32) with
  | none =>
      rw [hglyph] at hbottom
      rw [h.toPlaced.noGlyph hfits hcr' hnl' hglyph]
      have hsettled := h.toPlaced.settle hfits (by omega) htop
        (by rw [if_neg (by omega)]; exact hbottom)
      rw [if_neg (by omega), Nat.max_eq_left h.left] at hsettled
      exact hsettled
  | some advance =>
      rw [hglyph] at hbottom
      dsimp only at hbottom ⊢
      have hadvance := advance.1.isLt
      have hend : (if fb.right < cursor.x + advance.1.toNat then
          cursor.y + advance.2.toNat + font.height.toNat else cursor.y + advance.2.toNat) < 2 ^ 15 := by
        by_cases hlt : fb.right < cursor.x + advance.1.toNat
        · rw [if_pos hlt] at hbottom ⊢
          exact hbottom
        · rw [if_neg hlt] at hbottom ⊢
          exact hbottom
      have hy : cursor.y + advance.2.toNat < 2 ^ 15 := by
        split at hend
        · omega
        · exact hend
      have hplaced := h.toPlaced.glyph hfits hcr' hnl' hglyph (by omega) (by omega)
      have hsettled := hplaced.settle hfits (by omega) (by omega) hend
      rw [Nat.max_eq_left (by have := h.left; omega)] at hsettled
      exact hsettled

omit hfits in
theorem Cursor.y_le_foldl (margin right : Nat) (text : List Byte) (cursor : Cursor) :
    cursor.y + font.height.toNat * text.count EchOS.newline
      ≤ (text.foldl (Cursor.put font margin right) cursor).y := by
  induction text generalizing cursor with
  | nil => exact Nat.le_refl _
  | cons c text ih =>
      have hrest := ih (cursor.put font margin right c)
      have hfirst : cursor.y ≤ (cursor.put font margin right c).y := cursor.y_le_put margin right c
      rw [List.foldl_cons, List.count_cons]
      by_cases hnl : c = EchOS.newline
      · have hstep : (cursor.put font margin right c).y = cursor.y + font.height.toNat := by
          unfold Cursor.put
          rw [if_pos hnl]
        rw [hstep] at hrest
        rw [if_pos (by simp [hnl]), Nat.mul_add]
        omega
      · rw [if_neg (by simp [hnl]), Nat.add_zero]
        omega

/-- A text. -/
theorem SsfnBuf.At.puts (h : dst.At fb cursor) (text : List Byte)
    (hbottom : (text.foldl (Cursor.put font fb.margin.toNat fb.right) cursor).y < 2 ^ 15) :
    (ssfnPuts font fb dst text).At fb
      (text.foldl (Cursor.put font fb.margin.toNat fb.right) cursor) := by
  induction text generalizing dst cursor with
  | nil => exact h
  | cons c text ih =>
      have hle : _ ≤ (text.foldl (Cursor.put font fb.margin.toNat fb.right)
          (cursor.put font fb.margin.toNat fb.right c)).y :=
        Cursor.y_le_foldl fb.margin.toNat fb.right text _
      rw [List.foldl_cons] at hbottom ⊢
      exact ih (h.put hfits c (by omega)) hbottom

end Put

/-- **The console never goes up.**  On a screen with room for a line, from `ssfn_setup` on,
    the cursor of the code is the one of the console with numbers, after any text that
    takes it no further down than an `int16_t` can say: it lies between the margins, and
    below the top margin by at least the line height for every line break in the text.
    Nothing is scrolled, so a text with enough line breaks leaves the screen. -/
theorem console_never_goes_up {font : Font} {fb : Screen} (hfits : fb.Fits font)
    (text : List Byte)
    (hbottom : (Cursor.after font fb.margin.toNat fb.right text).y < 2 ^ 15) :
    (ssfnPuts font fb (ssfnSetup fb) text).At fb
        (Cursor.after font fb.margin.toNat fb.right text) ∧
      fb.margin.toNat + font.height.toNat * text.count newline
        ≤ (ssfnPuts font fb (ssfnSetup fb) text).y.toNat := by
  have hat : (ssfnPuts font fb (ssfnSetup fb) text).At fb
      (Cursor.after font fb.margin.toNat fb.right text) := hfits.setup.puts hfits text hbottom
  refine ⟨hat, ?_⟩
  rw [hat.y_eq]
  exact Cursor.y_le_foldl fb.margin.toNat fb.right text ⟨fb.margin.toNat, fb.margin.toNat⟩

/-- A screen of 640 columns. -/
def vgaScreen : Screen :=
  { buffer := 0xE0000000#64, pixelsPerScanline := 640#64, height := 480#64, width := 640#64
    margin := 10#64 }

/-- A font of 8 by 16. -/
def boxFont : Font := { valid := true, height := 16#8, glyph := fun _ => some (8#8, 0#8) }

/-- Twice the letter A and a line break. -/
theorem console_never_goes_up_vga :
    (ssfnPuts boxFont vgaScreen (ssfnSetup vgaScreen) [65#8, 65#8, newline]).At vgaScreen ⟨10, 26⟩ := by
  have hfits : vgaScreen.Fits boxFont :=
    ⟨rfl, by decide, by decide, by decide, by decide⟩
  exact (console_never_goes_up hfits [65#8, 65#8, newline] (by decide)).1

end EchOS
