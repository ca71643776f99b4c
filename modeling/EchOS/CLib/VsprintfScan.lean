/-
  EchOS.CLib.VsprintfScan

  The directives that `vsprintf` reads in a format, any characters before a NUL.

  A turn of the loop reads at most one directive, whatever the arguments are, and
  always moves on.  `scanTurn` is that turn on the characters left, `seenIn` lists the
  directives of all turns; for a separated format they are the format's own
  (`seenIn_of_separated`).
-/
import EchOS.CLib.VsprintfPieces

namespace EchOS

open CArray (Fault)

/-- A directive, if one is read, and by how much the code advances `i` for it. -/
structure Scan where
  directive : Option Directive
  skip : Nat
  deriving DecidableEq

def Directive.all : List Directive := [.char, .dec, .hex, .longHex, .string]

/-- The switch on what follows a '%'. -/
def scanSpec (s : List Byte) : Scan :=
  match Directive.all.find? fun d => d.text.isPrefixOf s with
  | some d => ⟨some d, d.text.length⟩
  | none =>
      ⟨none, if [ch 'l', ch 'l'].isPrefixOf s then 2 else if [ch 'l'].isPrefixOf s then 1 else 0⟩

/-- A turn of the loop up to the character it copies. -/
def scanTurn : List Byte → Scan
  | [] => ⟨none, 0⟩
  | c :: s =>
      if c = ch '%' then ⟨(scanSpec s).directive, (scanSpec s).skip + 1⟩ else ⟨none, 0⟩

/-- A directive, and where its '%' stands. -/
structure Seen where
  start : Nat
  directive : Directive
  deriving DecidableEq

/-- The directives of at most `fuel` turns, the first of them at `start`. -/
def scan : (fuel start : Nat) → List Byte → List Seen
  | 0, _, _ => []
  | _ + 1, _, [] => []
  | fuel + 1, start, c :: s =>
      (scanTurn (c :: s)).directive.toList.map (⟨start, ·⟩)
        ++ scan fuel (start + ((scanTurn (c :: s)).skip + 1))
            ((c :: s).drop ((scanTurn (c :: s)).skip + 1))

/-- The directives that are read in a format. -/
def seenIn (chars : List Byte) : List Seen := scan chars.length 0 chars

/-- The directives that stand in a format of pieces. -/
def directivesFrom : (start : Nat) → List Piece → List Seen
  | _, [] => []
  | start, .directive d :: F => ⟨start, d⟩ :: directivesFrom (start + (d.text.length + 1)) F
  | start, piece :: F => directivesFrom (start + piece.text.length) F

def directivesIn (F : List Piece) : List Seen := directivesFrom 0 F

theorem Directive.mem_all (d : Directive) : d ∈ Directive.all := by
  cases d <;> decide

theorem Directive.text_prefix_of_scanSpec {s : List Byte} {d : Directive}
    (h : (scanSpec s).directive = some d) :
    (scanSpec s).skip = d.text.length ∧ ∃ rest, s = d.text ++ rest := by
  unfold scanSpec at h ⊢
  cases hfind : Directive.all.find? fun d => d.text.isPrefixOf s with
  | none =>
      rw [hfind] at h
      cases h
  | some d' =>
      rw [hfind] at h
      cases h
      have hprefix := List.find?_some hfind
      obtain ⟨rest, hrest⟩ := List.isPrefixOf_iff_prefix.mp hprefix
      exact ⟨rfl, rest, hrest.symm⟩

/-- The code never moves past the NUL for a directive. -/
theorem scanSpec_skip_le (s : List Byte) : (scanSpec s).skip ≤ s.length := by
  unfold scanSpec
  cases hfind : Directive.all.find? fun d => d.text.isPrefixOf s with
  | some d =>
      have hprefix := List.find?_some hfind
      exact (List.isPrefixOf_iff_prefix.mp hprefix).length_le
  | none =>
      show (if _ then 2 else if _ then 1 else 0) ≤ s.length
      split
      · next h => exact (List.isPrefixOf_iff_prefix.mp h).length_le
      · split
        · next h => exact (List.isPrefixOf_iff_prefix.mp h).length_le
        · exact Nat.zero_le _

theorem scanTurn_skip_le (s : List Byte) : (scanTurn s).skip ≤ s.length := by
  cases s with
  | nil => exact Nat.le_refl 0
  | cons c s =>
      have hspec := scanSpec_skip_le s
      rw [scanTurn, List.length_cons]
      split
      · exact Nat.succ_le_succ hspec
      · exact Nat.zero_le _

/-- A directive begins with its '%', and nothing else does. -/
theorem scanTurn_eq_some {s : List Byte} {d : Directive} (h : (scanTurn s).directive = some d) :
    (scanTurn s).skip = d.text.length + 1 ∧ ∃ rest, s = ch '%' :: (d.text ++ rest) ∧
      (scanSpec (d.text ++ rest)).directive = some d := by
  cases s with
  | nil => cases h
  | cons c s =>
      rw [scanTurn] at h ⊢
      split at h
      · next hc =>
          obtain ⟨hskip, rest, rfl⟩ := Directive.text_prefix_of_scanSpec h
          rw [if_pos hc]
          exact ⟨congrArg (· + 1) hskip, rest, by rw [hc], h⟩
      · cases h

/-! ## Where directives stand -/

/-- The characters of a directive tell which one it is. -/
theorem Directive.eq_of_text {d d' : Directive} {rest rest' : List Byte}
    (h : d.text ++ rest = d'.text ++ rest') : d = d' := by
  cases d <;> cases d' <;> first | rfl | exact absurd (List.head_eq_of_cons_eq h) (by decide)

theorem scanSpec_directive (d : Directive) (s : List Byte) :
    scanSpec (d.text ++ s) = ⟨some d, d.text.length⟩ := by
  have hsome : (Directive.all.find? fun d' => d'.text.isPrefixOf (d.text ++ s)).isSome :=
    List.find?_isSome.mpr ⟨d, d.mem_all, List.isPrefixOf_iff_prefix.mpr ⟨s, rfl⟩⟩
  obtain ⟨d', hfind⟩ := Option.isSome_iff_exists.mp hsome
  have hprefix := List.find?_some hfind
  obtain ⟨rest, hrest⟩ := List.isPrefixOf_iff_prefix.mp hprefix
  cases Directive.eq_of_text hrest
  rw [scanSpec, hfind]

theorem scan_succ {s : List Byte} (hs : s ≠ []) (fuel start : Nat) :
    scan (fuel + 1) start s = (scanTurn s).directive.toList.map (⟨start, ·⟩)
      ++ scan fuel (start + ((scanTurn s).skip + 1)) (s.drop ((scanTurn s).skip + 1)) := by
  cases s with
  | nil => exact absurd rfl hs
  | cons c s => rfl

theorem scan_drop {x : Seen} :
    ∀ (fuel start : Nat) (s : List Byte), x ∈ scan fuel start s → start ≤ x.start ∧
      ∃ rest, s.drop (x.start - start) = ch '%' :: (x.directive.text ++ rest) := by
  intro fuel
  induction fuel with
  | zero =>
      intro start s hx
      cases hx
  | succ fuel ih =>
      intro start s hx
      cases s with
      | nil => cases hx
      | cons c s =>
          rcases List.mem_append.mp hx with hx | hx
          · -- read by the first turn
            obtain ⟨d, hd, rfl⟩ := List.mem_map.mp hx
            obtain ⟨-, rest, hrest, -⟩ := scanTurn_eq_some (Option.mem_toList.mp hd)
            refine ⟨Nat.le_refl _, rest, ?_⟩
            rw [Nat.sub_self, List.drop_zero, hrest]
          · obtain ⟨hle, rest, hrest⟩ := ih _ _ hx
            refine ⟨by omega, rest, ?_⟩
            rw [List.drop_drop] at hrest
            rw [← hrest]
            congr 1
            omega

theorem scan_pairwise (fuel : Nat) : ∀ (start : Nat) (s : List Byte),
    (scan fuel start s).Pairwise fun x y => x.start < y.start := by
  induction fuel with
  | zero => exact fun _ _ => .nil
  | succ fuel ih =>
      intro start s
      cases s with
      | nil => exact .nil
      | cons c s =>
          rw [scan_succ (List.cons_ne_nil c s)]
          cases (scanTurn (c :: s)).directive with
          | none => exact ih _ _
          | some d =>
              refine .cons (fun y hy => ?_) (ih _ _)
              have := (scan_drop _ _ _ hy).1
              show start < y.start
              omega

/-- No directive is read twice. -/
theorem seenIn_inj {chars : List Byte} {j k : Nat} {x : Seen} (hj : (seenIn chars)[j]? = some x)
    (hk : (seenIn chars)[k]? = some x) : j = k := by
  have hnodup : (seenIn chars).Nodup :=
    (scan_pairwise chars.length 0 chars).imp fun {x y : Seen} h (heq : x = y) => by
      rw [heq] at h
      exact Nat.lt_irrefl _ h
  obtain ⟨hlt, -⟩ := List.getElem?_eq_some_iff.mp hj
  exact (List.getElem?_inj hlt hnodup).mp (hj.trans hk.symm)

theorem directivesFrom_drop {x : Seen} (F : List Piece) :
    ∀ start, x ∈ directivesFrom start F → start ≤ x.start ∧
      ∃ rest, (F.flatMap Piece.text).drop (x.start - start)
        = ch '%' :: (x.directive.text ++ rest) := by
  induction F with
  | nil =>
      intro start hx
      cases hx
  | cons piece F ih =>
      intro start hx
      -- behind the first piece
      have hlater : x ∈ directivesFrom (start + piece.text.length) F → start ≤ x.start ∧
          ∃ rest, ((piece :: F).flatMap Piece.text).drop (x.start - start)
            = ch '%' :: (x.directive.text ++ rest) := by
        intro hx
        obtain ⟨hle, rest, hrest⟩ := ih _ hx
        refine ⟨by omega, rest, ?_⟩
        rw [List.flatMap_cons, List.drop_append, List.drop_eq_nil_of_le (by omega),
          List.nil_append, ← hrest]
        congr 1
        omega
      cases piece with
      | lit c => exact hlater hx
      | percent => exact hlater hx
      | directive d =>
          rcases List.mem_cons.mp hx with rfl | hx
          · refine ⟨Nat.le_refl _, F.flatMap Piece.text, ?_⟩
            rw [Nat.sub_self, List.drop_zero]
            rfl
          · exact hlater hx

/-- What is read where a directive stands is that directive. -/
theorem seen_eq_of_start {F : List Piece} {here x : Seen} (hhere : here ∈ directivesIn F)
    (hx : x ∈ seenIn (F.flatMap Piece.text)) (hstart : x.start = here.start) : x = here := by
  obtain ⟨-, rest, hrest⟩ := directivesFrom_drop F 0 hhere
  obtain ⟨-, rest', hrest'⟩ := scan_drop _ 0 _ hx
  rw [hstart, hrest] at hrest'
  have hdirective := Directive.eq_of_text (List.tail_eq_of_cons_eq hrest')
  cases x
  cases here
  cases hstart
  cases hdirective
  rfl

/-! ## Separated formats -/

/-- The directives that are read from a point between two pieces. -/
def Mode.scan : Mode → (fuel start : Nat) → List Byte → List Seen
  | .copy, fuel, start, s => EchOS.scan fuel (start + 1) (s.drop 1)
  | _, fuel, start, s => EchOS.scan fuel start s

theorem scan_nil (fuel start : Nat) : scan fuel start [] = [] := by
  cases fuel <;> rfl

theorem scan_other {c : Byte} (hc : c ≠ ch '%') (fuel start : Nat) (s : List Byte) :
    scan (fuel + 1) start (c :: s) = scan fuel (start + 1) s := by
  have hturn : scanTurn (c :: s) = ⟨none, 0⟩ := by rw [scanTurn, if_neg hc]
  rw [scan, hturn]
  rfl

/-- A '%' before a character that starts no directive. -/
theorem scan_percent {c : Byte} (hc : c ∉ [ch 'c', ch 'd', ch 'x', ch 'l', ch 's'])
    (fuel start : Nat) (s : List Byte) :
    scan (fuel + 1) start (ch '%' :: c :: s) = scan fuel (start + 2) s := by
  have hspec : scanSpec (c :: s) = ⟨none, 0⟩ := by
    simp only [List.mem_cons, List.not_mem_nil, or_false, not_or] at hc
    obtain ⟨h1, h2, h3, h4, h5⟩ := hc
    simp [scanSpec, Directive.all, Directive.text, List.isPrefixOf, Ne.symm h1, Ne.symm h2,
      Ne.symm h3, Ne.symm h4, Ne.symm h5]
  have hturn : scanTurn (ch '%' :: c :: s) = ⟨none, 1⟩ := by rw [scanTurn, if_pos rfl, hspec]
  rw [scan, hturn]
  rfl

theorem scan_directive (d : Directive) (fuel start : Nat) (s : List Byte) :
    scan (fuel + 1) start (ch '%' :: (d.text ++ s))
      = ⟨start, d⟩ :: Mode.copy.scan fuel (start + (d.text.length + 1)) s := by
  have hturn : scanTurn (ch '%' :: (d.text ++ s)) = ⟨some d, d.text.length + 1⟩ := by
    rw [scanTurn, if_pos rfl, scanSpec_directive]
  have hdrop : (ch '%' :: (d.text ++ s)).drop (d.text.length + 1 + 1) = s.drop 1 := by
    rw [List.drop_succ_cons, ← List.drop_drop, List.drop_left]
  rw [scan, hturn, Mode.scan]
  show ⟨start, d⟩ :: scan fuel (start + (d.text.length + 1 + 1)) _ = _
  rw [hdrop, Nat.add_assoc start]

theorem scan_of_separated (F : List Piece) :
    ∀ (mode : Mode) (fuel start : Nat), Separated mode F →
      (mode.pending ++ F.flatMap Piece.text).length ≤ fuel →
      mode.scan fuel start (mode.pending ++ F.flatMap Piece.text)
        = directivesFrom (start + mode.pending.length) F := by
  have hother : ch '%' ∉ [ch 'c', ch 'd', ch 'x', ch 'l', ch 's'] := by decide
  induction F with
  | nil =>
      intro mode fuel start hsep hfuel
      cases mode with
      | turn => exact scan_nil fuel start
      | copy => exact hsep.elim
      | half => exact hsep.elim
  | cons piece F ih =>
      intro mode fuel start hsep hfuel
      rw [List.flatMap_cons] at hfuel ⊢
      cases mode with
      | turn =>
          obtain ⟨fuel, rfl⟩ : ∃ n, fuel = n + 1 := by
            cases piece <;> exact ⟨fuel - 1, by simp [Mode.pending, Piece.text] at hfuel; omega⟩
          cases piece with
          | lit c =>
              have hle : (F.flatMap Piece.text).length ≤ fuel := Nat.le_of_succ_le_succ hfuel
              exact (scan_other c.2.2 fuel start _).trans (ih .turn fuel (start + 1) hsep hle)
          | percent =>
              have hle : (F.flatMap Piece.text).length ≤ fuel :=
                Nat.le_of_succ_le (Nat.le_of_succ_le_succ hfuel)
              exact (scan_percent hother fuel start _).trans (ih .turn fuel (start + 2) hsep hle)
          | directive d =>
              have hle : (F.flatMap Piece.text).length ≤ fuel := by
                simp [Mode.pending, Piece.text] at hfuel ⊢
                omega
              show scan (fuel + 1) start (ch '%' :: (d.text ++ F.flatMap Piece.text)) = _
              rw [scan_directive]
              exact congrArg _ (ih .copy fuel _ hsep hle)
      | copy =>
          cases piece with
          | lit c => exact ih .turn fuel (start + 1) hsep (Nat.le_of_succ_le hfuel)
          | percent =>
              -- the first half is copied
              exact ih .half fuel (start + 1) hsep (Nat.le_of_succ_le hfuel)
          | directive d => exact hsep.elim
      | half =>
          obtain ⟨fuel, rfl⟩ : ∃ n, fuel = n + 1 :=
            ⟨fuel - 1, by simp [Mode.pending] at hfuel; omega⟩
          cases piece with
          | lit c =>
              have hle : (F.flatMap Piece.text).length ≤ fuel :=
                Nat.le_of_succ_le (Nat.le_of_succ_le_succ hfuel)
              exact (scan_percent hsep.1 fuel start _).trans (ih .turn fuel (start + 2) hsep.2 hle)
          | percent =>
              have hle : (ch '%' :: F.flatMap Piece.text).length ≤ fuel :=
                Nat.le_of_succ_le (Nat.le_of_succ_le_succ hfuel)
              exact (scan_percent hother fuel start _).trans (ih .half fuel (start + 2) hsep hle)
          | directive d => exact hsep.elim

/-- In a separated format the directives that are read are its own. -/
theorem seenIn_of_separated {F : List Piece} (hsep : Separated .turn F) :
    seenIn (F.flatMap Piece.text) = directivesIn F :=
  scan_of_separated F .turn _ 0 hsep (Nat.le_refl _)

section Switch

variable {format : CString} {s tail : List Byte}

/-- The switch when it reads no directive: it only moves on. -/
theorem directive_of_scanSpec_none (st : VsState) (hdrop : format.drop st.i = s ++ 0#8 :: tail)
    (h : (scanSpec s).directive = none) :
    vsprintf.directive format st = .ok { st with i := st.i + (scanSpec s).skip } := by
  unfold scanSpec at h ⊢
  cases hfind : Directive.all.find? fun d => d.text.isPrefixOf s with
  | some d =>
      rw [hfind] at h
      cases h
  | none =>
      -- what follows the '%' is not the text of any directive
      have hnone : ∀ d : Directive, ¬ d.text <+: s := fun d hd =>
        List.find?_eq_none.mp hfind d d.mem_all (List.isPrefixOf_iff_prefix.mpr hd)
      simp only []
      by_cases hll : [ch 'l', ch 'l'] <+: s
      · -- "%ll" and no 'x'
        rw [if_pos (List.isPrefixOf_iff_prefix.mpr hll)]
        obtain ⟨rest, rfl⟩ := hll
        cases rest with
        | nil => exact directive_longLong st hdrop (by decide)
        | cons c rest =>
            refine directive_longLong st hdrop fun hc => hnone .longHex ?_
            rw [hc]
            exact ⟨rest, rfl⟩
      rw [if_neg fun h => hll (List.isPrefixOf_iff_prefix.mp h)]
      by_cases hl : [ch 'l'] <+: s
      · -- "%l" and no other 'l'
        rw [if_pos (List.isPrefixOf_iff_prefix.mpr hl)]
        obtain ⟨rest, rfl⟩ := hl
        cases rest with
        | nil => exact directive_long st hdrop (by decide)
        | cons c rest =>
            refine directive_long st hdrop fun hc => hll ?_
            rw [hc]
            exact ⟨rest, rfl⟩
      rw [if_neg fun h => hl (List.isPrefixOf_iff_prefix.mp h)]
      cases s with
      | nil => exact directive_other hdrop (by decide)
      | cons c s =>
          refine directive_other hdrop fun hc => ?_
          -- each of these characters would have been a directive, or an 'l'
          simp only [List.mem_cons, List.not_mem_nil, or_false] at hc
          rcases hc with rfl | rfl | rfl | rfl | rfl
          · exact hnone .char ⟨s, rfl⟩
          · exact hnone .dec ⟨s, rfl⟩
          · exact hnone .hex ⟨s, rfl⟩
          · exact hl ⟨s, rfl⟩
          · exact hnone .string ⟨s, rfl⟩

end Switch

/-! ## A turn -/

section Turn

variable {chars tail : List Byte} {st : VsState}

/-- What is left of the format. -/
theorem drop_format (tail : List Byte) {i : Nat} (hi : i ≤ chars.length) :
    (chars ++ 0#8 :: tail).drop i = chars.drop i ++ 0#8 :: tail :=
  List.drop_append_of_le_length hi

theorem special_of_none (tail : List Byte) (hi : st.i < chars.length)
    (h : (scanTurn (chars.drop st.i)).directive = none) :
    vsprintf.special (chars ++ 0#8 :: tail) st
      = .ok { st with i := st.i + (scanTurn (chars.drop st.i)).skip } := by
  have hdrop := drop_format tail (Nat.le_of_lt hi)
  rw [List.drop_eq_getElem_cons hi] at h hdrop ⊢
  rw [vsprintf.special, CArray.read_of_drop hdrop]
  rw [scanTurn] at h ⊢
  show (if chars[st.i] = ch '%' then _ else _) = _
  split
  · next hc =>
      rw [if_pos hc] at h
      rw [directive_of_scanSpec_none { st with i := st.i + 1 } (CArray.drop_succ_of_drop hdrop) h]
      show Except.ok { st with i := st.i + 1 + _ } = _
      rw [Nat.add_assoc, Nat.add_comm 1]
  · rfl

theorem special_of_some (tail : List Byte) (hi : st.i < chars.length) (htemp : TempOk st.temp)
    {d : Directive} (h : (scanTurn (chars.drop st.i)).directive = some d) :
    (∃ fault, vsprintf.special (chars ++ 0#8 :: tail) st = .error fault ∧
      ∀ a arg, st.arg = a :: arg → d.emit a st.temp = none) ∨
    ∃ a arg text temp', st.arg = a :: arg ∧ d.emit a st.temp = some (text, temp') ∧
      vsprintf.special (chars ++ 0#8 :: tail) st
        = .ok (({ st with i := st.i + (scanTurn (chars.drop st.i)).skip, arg, temp := temp' }
            : VsState).putAll text) := by
  obtain ⟨hskip, rest, hs, _⟩ := scanTurn_eq_some h
  have hdrop := drop_format tail (Nat.le_of_lt hi)
  rw [hs] at hdrop
  have hspecial : vsprintf.special (chars ++ 0#8 :: tail) st
      = vsprintf.directive (chars ++ 0#8 :: tail) { st with i := st.i + 1 } := by
    rw [vsprintf.special, CArray.read_of_drop hdrop]
    rfl
  have hdrop' : (chars ++ 0#8 :: tail).drop (st.i + 1) = d.text ++ (rest ++ 0#8 :: tail) := by
    rw [← List.append_assoc]
    exact CArray.drop_succ_of_drop hdrop
  rw [hspecial, hskip, Nat.add_comm d.text.length, ← Nat.add_assoc]
  exact directive_emit { st with i := st.i + 1 } d hdrop' htemp

/-- Then some character is copied, the NUL if need be. -/
theorem exists_copyNext (tail : List Byte) (hi : st.i ≤ chars.length) :
    ∃ c, vsprintf.copyNext (chars ++ 0#8 :: tail) st = .ok { st.put c with i := st.i + 1 } := by
  have hdrop := drop_format tail hi
  cases hs : chars.drop st.i with
  | nil =>
      rw [hs] at hdrop
      exact ⟨_, copyNext_eq hdrop⟩
  | cons c s =>
      rw [hs] at hdrop
      exact ⟨c, copyNext_eq hdrop⟩

end Turn

/-! ## Output is only added to -/

section Extends

variable {format : CString} {st st' : VsState} {str : Nat → Byte} {out : List Byte}

theorem putString_extends {s : CString} (h : st.putString s = .ok st') (hst : st.Wrote str out) :
    ∃ more, st'.Wrote str (out ++ more) := by
  obtain ⟨length, _, hput⟩ := except_bind_ok h
  cases hput
  exact ⟨_, hst.putAll (s.take length)⟩

theorem directive_extends (h : vsprintf.directive format st = .ok st') (hst : st.Wrote str out) :
    ∃ more, st'.Wrote str (out ++ more) := by
  obtain ⟨c, _, h⟩ := except_bind_ok h
  split at h
  · obtain ⟨value, _, h⟩ := except_bind_ok h
    injection h with h
    exact ⟨_, h ▸ (hst.moved _ _ _).put _⟩
  split at h
  · obtain ⟨value, _, h⟩ := except_bind_ok h
    obtain ⟨temp, _, h⟩ := except_bind_ok h
    exact putString_extends h (hst.moved _ _ _)
  split at h
  · obtain ⟨value, _, h⟩ := except_bind_ok h
    obtain ⟨temp, _, h⟩ := except_bind_ok h
    exact putString_extends h (hst.moved _ _ _)
  split at h
  · obtain ⟨c, _, h⟩ := except_bind_ok h
    split at h
    · obtain ⟨c, _, h⟩ := except_bind_ok h
      split at h
      · obtain ⟨value, _, h⟩ := except_bind_ok h
        obtain ⟨temp, _, h⟩ := except_bind_ok h
        exact putString_extends h (hst.moved _ _ _)
      · injection h with h
        exact ⟨[], by rw [← h, List.append_nil]; exact hst.moved _ _ _⟩
    · injection h with h
      exact ⟨[], by rw [← h, List.append_nil]; exact hst.moved _ _ _⟩
  split at h
  · obtain ⟨value, _, h⟩ := except_bind_ok h
    exact putString_extends h (hst.moved _ _ _)
  · injection h with h
    exact ⟨[], by rw [← h, List.append_nil]; exact hst⟩

theorem special_extends (h : vsprintf.special format st = .ok st') (hst : st.Wrote str out) :
    ∃ more, st'.Wrote str (out ++ more) := by
  obtain ⟨c, _, h⟩ := except_bind_ok h
  split at h
  · exact directive_extends h ⟨hst.str_eq, hst.written⟩
  · injection h with h
    exact ⟨[], by rw [← h, List.append_nil]; exact hst⟩

theorem copyNext_extends (h : vsprintf.copyNext format st = .ok st') (hst : st.Wrote str out) :
    ∃ more, st'.Wrote str (out ++ more) := by
  obtain ⟨c, _, h⟩ := except_bind_ok h
  injection h with h
  have hput := hst.put c
  exact ⟨[c], h ▸ ⟨hput.str_eq, hput.written⟩⟩

end Extends

end EchOS
