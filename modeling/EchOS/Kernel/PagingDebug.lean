/-
  EchOS.Kernel.PagingDebug

  The dumps of paging entries of `kernel/memory/paging_debug.c`: what they print, and
  how much of an entry and of a walk one can tell from it.
-/
import EchOS.CLib.VsprintfRenders
import EchOS.Kernel.Console
import EchOS.Kernel.Memory.Rights

namespace EchOS

open CArray (Fault)

/-! ## The code -/

/-- `PAGE_LEVEL_WRITETHROUGH_BIT` -/
def pageLevelWritethroughBit : Word := 0x8#64

/-- `PAGE_LEVEL_CACHE_DISABLE_BIT` -/
def pageLevelCacheDisableBit : Word := 0x10#64

/-- `ACCESSED_BIT` -/
def accessedBit : Word := 0x20#64

/-- `DIRTY_BIT` -/
def dirtyBit : Word := 0x40#64

/-- `GLOBAL_PAGE_BIT` -/
def globalPageBit : Word := 0x100#64

/-- `(entry & bit) ? set : clear` -/
def choose (entry bit : Word) (set clear : String) : VaArg :=
  .string (if entry &&& bit ≠ 0#64 then format set else format clear)

/-- `dump_pte` -/
def dumpPte (entry : Word) : List Message :=
  [(format "Page table entry: 0x%llx\n", [.uint64 entry]),
   (format "    Physical address: 0x%llx\n", [.uint64 (entry &&& 0xFFFFFFFFF000#64)]),
   (format "    Present: %s\n", [choose entry presentBit "True" "False"]),
   (format "    Writeable: %s\n", [choose entry readWriteBit "True" "False"]),
   (format "    User accessible: %s\n", [choose entry userSupervisorBit "False" "True"]),
   (format "    Page level write-through: %s\n",
     [choose entry pageLevelWritethroughBit "True" "False"]),
   (format "    Page level cache disable: %s\n",
     [choose entry pageLevelCacheDisableBit "True" "False"]),
   (format "    Accessed: %s\n", [choose entry accessedBit "True" "False"]),
   (format "    Dirty: %s\n", [choose entry dirtyBit "True" "False"]),
   (format "    PAT: %s\n", [choose entry pageSizeBit "1" "0"]),
   (format "    Global: %s\n", [choose entry globalPageBit "True" "False"]),
   (format "    NX: %s\n", [choose entry nxBit "True" "False"])]

/-- `dump_paging_bits` -/
def dumpPagingBits (entry : Word) : List Message :=
  [(format "    Physical address of table: 0x%llx\n", [.uint64 (entry &&& 0xFFFFFFFFF000#64)]),
   (format "    Present: %s\n", [choose entry presentBit "True" "False"]),
   (format "    Writeable: %s\n", [choose entry readWriteBit "True" "False"]),
   (format "    User accessible: %s\n", [choose entry userSupervisorBit "False" "True"]),
   (format "    Page level write-through: %s\n",
     [choose entry pageLevelWritethroughBit "True" "False"]),
   (format "    Page level cache disable: %s\n",
     [choose entry pageLevelCacheDisableBit "True" "False"]),
   (format "    Accessed: %s\n", [choose entry accessedBit "True" "False"]),
   (format "    Dirty: %s\n", [choose entry dirtyBit "True" "False"]),
   (format "    Page size: %s\n", [choose entry pageSizeBit "1" "0"]),
   (format "    Global: %s\n", [choose entry globalPageBit "True" "False"]),
   (format "    NX: %s\n", [choose entry nxBit "True" "False"])]

/-- `dump_pde` -/
def dumpPde (entry : Word) : List Message :=
  (format "Page directory entry: 0x%llx\n", [.uint64 entry]) :: dumpPagingBits entry

/-- `dump_pdpe` -/
def dumpPdpe (entry : Word) : List Message :=
  (format "Page directory pointer entry: 0x%llx\n", [.uint64 entry]) :: dumpPagingBits entry

/-- What the calls of `ssfn_printf` print. -/
def printed (messages : List Message) : Except Fault (List (List Byte)) :=
  messages.mapM fun message => (ssfnPrintf message.1 message.2).map Prod.fst

/-! ## Lines -/

/-- The characters of a text that are not special in a format. -/
def literals (text : String) : List Literal :=
  (text.toList.map ch).filterMap fun c => if h : c ≠ 0#8 ∧ c ≠ ch '%' then some ⟨c, h⟩ else none

/-- The format of a line: a text and one argument. -/
def lineFormat (text : String) (d : Directive) : List Piece :=
  (literals text).map .lit ++ [.directive d, .lit ⟨newline, by decide⟩]

/-- The line itself. -/
def lineText (text : String) (shown : List Byte) : List Byte :=
  (literals text).map Subtype.val ++ (shown ++ [newline])

theorem lineText_inj {text : String} {shown shown' : List Byte} :
    lineText text shown = lineText text shown' ↔ shown = shown' := by
  rw [lineText, lineText, List.append_cancel_left_eq, List.append_cancel_right_eq]

theorem separated_line (text : List Literal) (d : Directive) :
    Separated .turn (text.map .lit ++ [.directive d, .lit ⟨newline, by decide⟩]) := by
  induction text with
  | nil => simp [Separated]
  | cons c text ih => simpa [Separated] using ih

theorem render_line (text : List Literal) {d : Directive} {a : VaArg} {shown : List Byte}
    (h : d.render a = some shown) :
    render (text.map .lit ++ [.directive d, .lit ⟨newline, by decide⟩]) [a]
      = some (text.map Subtype.val ++ (shown ++ [newline])) := by
  induction text with
  | nil => simp [render, h]
  | cons c text ih =>
      rw [List.map_cons, List.cons_append, render, ih]
      rfl

theorem clean_line (text : List Literal) {d : Directive} {a : VaArg}
    (h : d.Clean a false) :
    Clean false (text.map .lit ++ [.directive d, .lit ⟨newline, by decide⟩]) [a] := by
  induction text with
  | nil => simp [Clean, h]
  | cons c text ih => simpa [Clean] using ih

/-- A call with such a format prints its line. -/
theorem printf_line {text : String} {d : Directive} {a : VaArg} {shown : List Byte}
    (hrender : d.render a = some shown) (hclean : d.Clean a false)
    (hfits : (literals text).length + shown.length < 1024) :
    (ssfnPrintf (formatOf (lineFormat text d)) [a]).map Prod.fst = .ok (lineText text shown) := by
  have hrenders : Renders (lineFormat text d) [a] (lineText text shown) :=
    (renders_iff_clean (separated_line _ d) (render_line _ hrender)).mpr (clean_line _ hclean)
  have hlength : (lineText text shown).length ≤ 1024 := by
    simp only [lineText, List.length_append, List.length_map, List.length_singleton]
    omega
  rw [hrenders.ssfnPrintf hlength]
  rfl

/-- A line with an address. -/
def hexLine (text : String) (value : Word) : List Byte := lineText text (hexText 16 value.toNat)

theorem printf_hex {text : String} {fmt : CString}
    (hfmt : fmt = formatOf (lineFormat text .longHex)) (value : Word)
    (hfits : (literals text).length ≤ 1000) :
    (ssfnPrintf fmt [.uint64 value]).map Prod.fst = .ok (hexLine text value) := by
  rw [hfmt]
  apply printf_line
  · rfl
  · trivial
  · rw [length_hexText]
    omega

theorem hexLine_inj {text : String} {a b : Word} : hexLine text a = hexLine text b ↔ a = b := by
  refine lineText_inj.trans ⟨fun h => ?_, fun h => by rw [h]⟩
  -- the digits, read as a number
  have hvalue := congrArg (List.foldl (fun value c => 16 * value + hexValue c) 0) h
  rw [hexText_value, hexText_value, show 16 ^ 16 = 2 ^ 64 by decide, Nat.mod_eq_of_lt a.isLt,
    Nat.mod_eq_of_lt b.isLt] at hvalue
  exact BitVec.eq_of_toNat_eq hvalue

/-- A line with a choice. -/
def chosenLine (text : String) (entry bit : Word) (set clear : String) : List Byte :=
  lineText text (if entry &&& bit ≠ 0#64 then set.toList.map ch else clear.toList.map ch)

/-- A word of a dump. -/
def ShortWord (word : String) : Prop :=
  0#8 ∉ word.toList.map ch ∧ (word.toList.map ch).length ≤ 8

theorem render_word {word : String} (h : ShortWord word) :
    Directive.string.render (.string (format word)) = some (word.toList.map ch) := by
  have hnul : 0#8 ∈ format word := List.mem_append_right _ (List.mem_singleton_self _)
  have htake : (format word).takeWhile (· ≠ 0#8) = word.toList.map ch := by
    rw [format, List.takeWhile_append_of_pos]
    · simp
    · intro c hc
      simpa using fun h0 : c = 0#8 => h.1 (h0 ▸ hc)
  rw [Directive.render, if_pos hnul, htake]

theorem printf_choose {text : String} {fmt : CString}
    (hfmt : fmt = formatOf (lineFormat text .string)) (entry bit : Word) {set clear : String}
    (hset : ShortWord set) (hclear : ShortWord clear) (hfits : (literals text).length ≤ 1000) :
    (ssfnPrintf fmt [choose entry bit set clear]).map Prod.fst
      = .ok (chosenLine text entry bit set clear) := by
  have hset_len := hset.2
  have hclear_len := hclear.2
  rw [hfmt, choose, chosenLine]
  apply printf_line
  · split
    · exact render_word hset
    · exact render_word hclear
  · trivial
  · split <;> omega

/-- Two words that differ tell the bit. -/
theorem chosenLine_inj {text set clear : String} (hne : set.toList.map ch ≠ clear.toList.map ch)
    {a b bit : Word} :
    chosenLine text a bit set clear = chosenLine text b bit set clear ↔
      (a &&& bit ≠ 0#64 ↔ b &&& bit ≠ 0#64) := by
  refine lineText_inj.trans ?_
  by_cases ha : a &&& bit = 0#64 <;> by_cases hb : b &&& bit = 0#64 <;>
    simp [ha, hb, hne, hne.symm]

/-! ## The dumps -/

/-- The lines about the bits; the dumps have different names for one of them. -/
def flagLines (sizeText : String) (entry : Word) : List (List Byte) :=
  [chosenLine "    Present: " entry presentBit "True" "False",
   chosenLine "    Writeable: " entry readWriteBit "True" "False",
   chosenLine "    User accessible: " entry userSupervisorBit "False" "True",
   chosenLine "    Page level write-through: " entry pageLevelWritethroughBit "True" "False",
   chosenLine "    Page level cache disable: " entry pageLevelCacheDisableBit "True" "False",
   chosenLine "    Accessed: " entry accessedBit "True" "False",
   chosenLine "    Dirty: " entry dirtyBit "True" "False",
   chosenLine sizeText entry pageSizeBit "1" "0",
   chosenLine "    Global: " entry globalPageBit "True" "False",
   chosenLine "    NX: " entry nxBit "True" "False"]

/-- The lines of `dump_pte`. -/
def pteLines (entry : Word) : List (List Byte) :=
  hexLine "Page table entry: 0x" entry ::
    hexLine "    Physical address: 0x" (entry &&& 0xFFFFFFFFF000#64) ::
    flagLines "    PAT: " entry

/-- The lines of `dump_paging_bits`. -/
def pagingLines (entry : Word) : List (List Byte) :=
  hexLine "    Physical address of table: 0x" (entry &&& 0xFFFFFFFFF000#64) ::
    flagLines "    Page size: " entry

/-- The lines of `dump_pde` and `dump_pdpe`. -/
def directoryLines (text : String) (entry : Word) : List (List Byte) :=
  hexLine text entry :: pagingLines entry

theorem shortWord_true : ShortWord "True" := by unfold ShortWord; decide
theorem shortWord_false : ShortWord "False" := by unfold ShortWord; decide
theorem shortWord_one : ShortWord "1" := by unfold ShortWord; decide
theorem shortWord_zero : ShortWord "0" := by unfold ShortWord; decide

theorem printed_cons {message : Message} {line : List Byte} {messages : List Message}
    {lines : List (List Byte)} (h : (ssfnPrintf message.1 message.2).map Prod.fst = .ok line)
    (hrest : printed messages = .ok lines) :
    printed (message :: messages) = .ok (line :: lines) := by
  unfold printed at hrest ⊢
  rw [List.mapM_cons, h, hrest]
  rfl

theorem printed_flags {sizeText : String} {fmt : CString}
    (hfmt : fmt = formatOf (lineFormat sizeText .string))
    (hfits : (literals sizeText).length ≤ 1000) (entry : Word) :
    printed
      [(format "    Present: %s\n", [choose entry presentBit "True" "False"]),
       (format "    Writeable: %s\n", [choose entry readWriteBit "True" "False"]),
       (format "    User accessible: %s\n", [choose entry userSupervisorBit "False" "True"]),
       (format "    Page level write-through: %s\n",
         [choose entry pageLevelWritethroughBit "True" "False"]),
       (format "    Page level cache disable: %s\n",
         [choose entry pageLevelCacheDisableBit "True" "False"]),
       (format "    Accessed: %s\n", [choose entry accessedBit "True" "False"]),
       (format "    Dirty: %s\n", [choose entry dirtyBit "True" "False"]),
       (fmt, [choose entry pageSizeBit "1" "0"]),
       (format "    Global: %s\n", [choose entry globalPageBit "True" "False"]),
       (format "    NX: %s\n", [choose entry nxBit "True" "False"])]
      = .ok (flagLines sizeText entry) := by
  apply printed_cons (printf_choose (by rfl) _ _ shortWord_true shortWord_false (by decide))
  apply printed_cons (printf_choose (by rfl) _ _ shortWord_true shortWord_false (by decide))
  apply printed_cons (printf_choose (by rfl) _ _ shortWord_false shortWord_true (by decide))
  apply printed_cons (printf_choose (by rfl) _ _ shortWord_true shortWord_false (by decide))
  apply printed_cons (printf_choose (by rfl) _ _ shortWord_true shortWord_false (by decide))
  apply printed_cons (printf_choose (by rfl) _ _ shortWord_true shortWord_false (by decide))
  apply printed_cons (printf_choose (by rfl) _ _ shortWord_true shortWord_false (by decide))
  apply printed_cons (printf_choose hfmt _ _ shortWord_one shortWord_zero hfits)
  apply printed_cons (printf_choose (by rfl) _ _ shortWord_true shortWord_false (by decide))
  apply printed_cons (printf_choose (by rfl) _ _ shortWord_true shortWord_false (by decide))
  rfl

theorem printed_dumpPagingBits (entry : Word) :
    printed (dumpPagingBits entry) = .ok (pagingLines entry) :=
  printed_cons (printf_hex (by rfl) _ (by decide)) (printed_flags (by rfl) (by decide) entry)

theorem printed_dumpPte (entry : Word) : printed (dumpPte entry) = .ok (pteLines entry) :=
  printed_cons (printf_hex (by rfl) _ (by decide))
    (printed_cons (printf_hex (by rfl) _ (by decide)) (printed_flags (by rfl) (by decide) entry))

theorem printed_dumpPde (entry : Word) :
    printed (dumpPde entry) = .ok (directoryLines "Page directory entry: 0x" entry) :=
  printed_cons (printf_hex (by rfl) _ (by decide)) (printed_dumpPagingBits entry)

theorem printed_dumpPdpe (entry : Word) :
    printed (dumpPdpe entry) = .ok (directoryLines "Page directory pointer entry: 0x" entry) :=
  printed_cons (printf_hex (by rfl) _ (by decide)) (printed_dumpPagingBits entry)

/-! ## What a dump tells -/

/-- The bits that `dump_paging_bits` looks at one by one. -/
def dumpedFlags : List Word :=
  [presentBit, readWriteBit, userSupervisorBit, pageLevelWritethroughBit,
   pageLevelCacheDisableBit, accessedBit, dirtyBit, pageSizeBit, globalPageBit, nxBit]

/-- All that it looks at. -/
def dumpedBits : Word := 0xFFFFFFFFF000#64 ||| dumpedFlags.foldr (· ||| ·) 0#64

theorem dumpedFlags_single {bit : Word} (h : bit ∈ dumpedFlags) :
    ∃ k, bit = BitVec.twoPow 64 k := by
  have hflags : dumpedFlags = [0, 1, 2, 3, 4, 5, 6, 7, 8, 63].map (BitVec.twoPow 64) := by decide
  rw [hflags] at h
  obtain ⟨k, _, rfl⟩ := List.mem_map.mp h
  exact ⟨k, rfl⟩

/-- One bit is set in both or in neither. -/
theorem and_twoPow_eq_iff {a b : Word} (k : Nat) :
    a &&& BitVec.twoPow 64 k = b &&& BitVec.twoPow 64 k ↔
      (a &&& BitVec.twoPow 64 k ≠ 0#64 ↔ b &&& BitVec.twoPow 64 k ≠ 0#64) := by
  rw [BitVec.and_twoPow, BitVec.and_twoPow]
  cases a.getLsbD k <;> cases b.getLsbD k <;> simp [eq_comm]

theorem and_or_eq_iff {a b m n : Word} :
    a &&& (m ||| n) = b &&& (m ||| n) ↔ a &&& m = b &&& m ∧ a &&& n = b &&& n := by
  constructor
  · intro h
    have hpart : ∀ part, part = (m ||| n) &&& part → a &&& part = b &&& part := by
      intro part hpart
      rw [hpart, ← BitVec.and_assoc, ← BitVec.and_assoc, h]
    constructor
    · apply hpart
      ext i hi
      simp
      tauto
    · apply hpart
      ext i hi
      simp
      tauto
  · rintro ⟨hm, hn⟩
    rw [BitVec.and_or_distrib_left, BitVec.and_or_distrib_left, hm, hn]

theorem and_foldr_eq_iff {a b : Word} (bits : List Word) :
    a &&& bits.foldr (· ||| ·) 0#64 = b &&& bits.foldr (· ||| ·) 0#64 ↔
      ∀ bit ∈ bits, a &&& bit = b &&& bit := by
  induction bits with
  | nil => simp
  | cons bit bits ih => rw [List.foldr_cons, and_or_eq_iff, ih, List.forall_mem_cons]

/-- Lines that begin with the whole entry tell it. -/
theorem lines_inj {text : String} {lines : Word → List (List Byte)}
    (hhead : ∀ entry, (lines entry).head? = some (hexLine text entry)) {a b : Word} :
    (Except.ok (lines a) : Except Fault _) = .ok (lines b) ↔ a = b := by
  constructor
  · intro h
    have hfirst := congrArg List.head? (Except.ok.inj h)
    rw [hhead, hhead] at hfirst
    exact hexLine_inj.mp (Option.some.inj hfirst)
  · rintro rfl
    rfl

/-- **What the dumps tell.**  They print all their lines for every entry.  `dump_pte`,
    `dump_pde` and `dump_pdpe` tell two entries apart; `dump_paging_bits` alone prints the same
    lines for two entries exactly if they agree in bits 0 to 8, 12 to 47 and 63: bits 48 to 51
    of the address are not shown. -/
theorem paging_dumps_tell (a b : Word) :
    (∃ pte pde pdpe, printed (dumpPte a) = .ok pte ∧ pte.length = 12 ∧
      printed (dumpPde a) = .ok pde ∧ pde.length = 12 ∧
      printed (dumpPdpe a) = .ok pdpe ∧ pdpe.length = 12) ∧
    (printed (dumpPte a) = printed (dumpPte b) ↔ a = b) ∧
    (printed (dumpPde a) = printed (dumpPde b) ↔ a = b) ∧
    (printed (dumpPdpe a) = printed (dumpPdpe b) ↔ a = b) ∧
    (printed (dumpPagingBits a) = printed (dumpPagingBits b) ↔
      a &&& 0x8000FFFFFFFFF1FF#64 = b &&& 0x8000FFFFFFFFF1FF#64) := by
  refine ⟨⟨_, _, _, printed_dumpPte a, rfl, printed_dumpPde a, rfl, printed_dumpPdpe a, rfl⟩,
    ?_, ?_, ?_, ?_⟩
  · rw [printed_dumpPte, printed_dumpPte]
    exact lines_inj fun _ => rfl
  · rw [printed_dumpPde, printed_dumpPde]
    exact lines_inj fun _ => rfl
  · rw [printed_dumpPdpe, printed_dumpPdpe]
    exact lines_inj fun _ => rfl
  have hflags : (∀ bit ∈ dumpedFlags, a &&& bit = b &&& bit) ↔
      ∀ bit ∈ dumpedFlags, (a &&& bit ≠ 0#64 ↔ b &&& bit ≠ 0#64) := by
    refine forall₂_congr fun bit hbit => ?_
    obtain ⟨k, rfl⟩ := dumpedFlags_single hbit
    exact and_twoPow_eq_iff k
  have hbits : (0x8000FFFFFFFFF1FF#64 : Word) = dumpedBits := by decide
  rw [printed_dumpPagingBits, printed_dumpPagingBits, Except.ok.injEq, hbits, dumpedBits,
    and_or_eq_iff, and_foldr_eq_iff, hflags]
  simp (disch := decide) only [pagingLines, flagLines, List.cons.injEq, hexLine_inj,
    chosenLine_inj, dumpedFlags, List.forall_mem_cons, List.not_mem_nil, false_imp_iff,
    implies_true, and_true]

/-- The rights that the dumps of a walk's entries show: the lines of each that say
    "Writeable" and "NX", and "User accessible", which says the opposite. -/
def Rights.ofDumps (dumps : List (List (List Byte))) : Rights where
  write := dumps.all fun lines => lines[2]? = some ("    Writeable: True\n".toList.map ch)
  user := dumps.all fun lines => lines[3]? = some ("    User accessible: False\n".toList.map ch)
  noExecute := dumps.any fun lines => lines[10]? = some ("    NX: True\n".toList.map ch)

theorem chosenLine_set_iff {text set clear : String} {line : List Byte}
    (hline : line = lineText text (set.toList.map ch))
    (hne : set.toList.map ch ≠ clear.toList.map ch) {entry bit : Word} :
    chosenLine text entry bit set clear = line ↔ entry &&& bit ≠ 0#64 := by
  rw [hline, chosenLine, lineText_inj]
  split
  · next h => simp [h]
  · next h => simp [h, hne.symm]

theorem printed_dumps (entries : List Word) :
    entries.mapM (fun entry => printed (dumpPagingBits entry)) = .ok (entries.map pagingLines) := by
  induction entries with
  | nil => rfl
  | cons entry entries ih =>
      rw [List.mapM_cons, printed_dumpPagingBits, ih]
      rfl

theorem ofDumps_pagingLines (entries : List Word) :
    Rights.ofDumps (entries.map pagingLines) = Rights.through entries := by
  have hwrite : ∀ entry, (pagingLines entry)[2]? = some ("    Writeable: True\n".toList.map ch) ↔
      entry &&& readWriteBit ≠ 0#64 := fun entry =>
    Option.some_inj.trans (chosenLine_set_iff (by rfl) (by decide))
  have huser : ∀ entry,
      (pagingLines entry)[3]? = some ("    User accessible: False\n".toList.map ch) ↔
        entry &&& userSupervisorBit ≠ 0#64 := fun entry =>
    Option.some_inj.trans (chosenLine_set_iff (by rfl) (by decide))
  have hnx : ∀ entry, (pagingLines entry)[10]? = some ("    NX: True\n".toList.map ch) ↔
      entry &&& nxBit ≠ 0#64 := fun entry =>
    Option.some_inj.trans (chosenLine_set_iff (by rfl) (by decide))
  unfold Rights.ofDumps Rights.through
  simp only [List.all_map, List.any_map, Function.comp_def, hwrite, huser, hnx]
  rfl

/-- **The rights of an address can be read off the dumps of its walk**, if "User accessible"
    is taken for its opposite: with the entries that the walk reads dumped one after the
    other, every "Writeable: True" means a writeable page, every "User accessible: False" a
    page that user mode may access, and one "NX: True" a page without execution. -/
theorem rights_of_dumped_walk (mem : Mem) (pml4 vaddr : Word) :
    effectiveRights mem pml4 vaddr = (walkEntries mem pml4 vaddr).bind fun entries =>
      (entries.mapM fun entry => printed (dumpPagingBits entry)).toOption.map Rights.ofDumps := by
  unfold effectiveRights
  cases walkEntries mem pml4 vaddr with
  | none => rfl
  | some entries =>
      rw [Option.map_some, Option.bind_some, printed_dumps]
      exact congrArg some (ofDumps_pagingLines entries).symm

end EchOS
