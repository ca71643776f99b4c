/-
  EchOS.Kernel.Acpi.Xsdt

  `xsdt_get_table` of `kernel/acpi/xsdt.c`, and for which tables it searches exactly the
  entries of the table.

  The search logs the addresses of the entries it reads.  The number of entries is an
  unsigned difference that wraps for a table shorter than its header, and NULL, which
  says that no table was found, is also what an entry without an address holds.
-/
import EchOS.CLib.Compare
import EchOS.Kernel.Acpi.Table

namespace EchOS

open CArray (Fault)

/-- `sizeof(sdt_header)` -/
def sizeofSdtHeader : Word := 36#64

/-- A `uint64_t` in memory, little-endian. -/
def uint64At (memory : Word → Byte) (address : Word) : Word :=
  memory (address + 7#64) ++ memory (address + 6#64) ++ memory (address + 5#64)
    ++ memory (address + 4#64) ++ memory (address + 3#64) ++ memory (address + 2#64)
    ++ memory (address + 1#64) ++ memory address

/-- The bytes that a `char *` points to. -/
def bytesAt (memory : Word → Byte) (address : Word) (length : Nat) : CString :=
  (List.range length).map fun k => memory (address + BitVec.ofNat 64 k)

/-- `xsdt->ptr[i]` -/
def readEntry (memory : Word → Byte) (xsdt : Word) (i : Nat) : Logged Word Fault Word :=
  let address := xsdt + sizeofSdtHeader + BitVec.ofNat 64 (8 * i)
  ⟨.ok (uint64At memory address), [address]⟩

/-- The loop of `xsdt_get_table`, with `left` entries to go. -/
def xsdtGetTable.loop (memory : Word → Byte) (xsdt signature : Word) :
    (left i : Nat) → Logged Word Fault Word
  | 0, _ => pure 0#64
  | left + 1, i => do
      let header ← readEntry memory xsdt i
      let differs ← Logged.lift
        (memcmp (bytesAt memory header 4) (bytesAt memory signature 4) 4).result
      if differs ≠ 0 then xsdtGetTable.loop memory xsdt signature left (i + 1)
      else pure header

/-- `rsdp->XsdtAddress` -/
def xsdtAddress (memory : Word → Byte) (rsdp : Word) : Word := uint64At memory (rsdp + 24#64)

/-- `tableCount` -/
def tableCount (memory : Word → Byte) (xsdt : Word) : Word :=
  ((headerLength memory xsdt).setWidth 64 - sizeofSdtHeader) / 8#64

/-- `xsdt_get_table` -/
def xsdtGetTable (memory : Word → Byte) (rsdp signature : Word) : Logged Word Fault Word :=
  let xsdt := xsdtAddress memory rsdp
  xsdtGetTable.loop memory xsdt signature (tableCount memory xsdt).toNat 0

/-! ## Entries -/

section Entries

variable (memory : Word → Byte) (xsdt signature : Word)

/-- Where entry `i` lies. -/
def entryAddress (xsdt : Word) (i : Nat) : Word := xsdt + BitVec.ofNat 64 (36 + 8 * i)

/-- What it holds. -/
def xsdtEntry (i : Nat) : Word := uint64At memory (entryAddress xsdt i)

/-- It lies in the table with all its bytes. -/
def EntryInTable (i : Nat) : Prop := 36 + 8 * i + 8 ≤ tableLength memory xsdt

/-- The header at an address has the four bytes of the signature. -/
def HasSignature (header : Word) : Prop := bytesAt memory header 4 = bytesAt memory signature 4

instance (header : Word) : Decidable (HasSignature memory signature header) :=
  inferInstanceAs (Decidable (_ = _))

/-- The first entry with the signature. -/
structure FirstWithSignature (i : Nat) : Prop where
  inTable : EntryInTable memory xsdt i
  hasSignature : HasSignature memory signature (xsdtEntry memory xsdt i)
  first : ∀ j < i, ¬ HasSignature memory signature (xsdtEntry memory xsdt j)

/-- A search of the table at `xsdt` reads only entries of it, and returns the first one with
    the signature, or NULL exactly if there is none. -/
structure SearchesTable (search : Logged Word Fault Word) : Prop where
  confined : ∀ address ∈ search.events,
    ∃ i, EntryInTable memory xsdt i ∧ address = entryAddress xsdt i
  returns : ∃ table, search.result = .ok table ∧
    (∀ i, FirstWithSignature memory xsdt signature i → table = xsdtEntry memory xsdt i) ∧
    (table = 0#64 ↔ ∀ i, EntryInTable memory xsdt i →
      ¬ HasSignature memory signature (xsdtEntry memory xsdt i))

/-- The table holds its header, and if the signature lies at address 0 too, no entry is NULL
    before there is one with the signature. -/
structure Searchable : Prop where
  header : 36 ≤ tableLength memory xsdt
  notNull : HasSignature memory signature 0#64 → ∀ i, EntryInTable memory xsdt i →
    xsdtEntry memory xsdt i = 0#64 → ∃ j < i, HasSignature memory signature (xsdtEntry memory xsdt j)

end Entries

/-! ## The search -/

section Search

variable {memory : Word → Byte} {xsdt signature : Word}

/-- A turn reads one entry, and the search ends there if it has the signature. -/
theorem xsdt_loop_turn (left i : Nat) :
    xsdtGetTable.loop memory xsdt signature (left + 1) i
      = if HasSignature memory signature (xsdtEntry memory xsdt i)
        then ⟨.ok (xsdtEntry memory xsdt i), [entryAddress xsdt i]⟩
        else ⟨(xsdtGetTable.loop memory xsdt signature left (i + 1)).result,
          entryAddress xsdt i ::
            (xsdtGetTable.loop memory xsdt signature left (i + 1)).events⟩ := by
  have haddress : xsdt + sizeofSdtHeader + BitVec.ofNat 64 (8 * i) = entryAddress xsdt i := by
    rw [entryAddress, BitVec.ofNat_add, BitVec.add_assoc]
    rfl
  have hlen : ∀ address, (bytesAt memory address 4).length = 4 := fun address => by
    rw [bytesAt, List.length_map, List.length_range]
  have htake : ∀ address, (bytesAt memory address 4).take 4 = bytesAt memory address 4 :=
    fun address => List.take_of_length_le (hlen address).le
  -- four bytes are compared, all of them in both arrays
  obtain ⟨result, hresult, hzero⟩ := memcmp_eq_zero_iff
    (hlen (xsdtEntry memory xsdt i)).ge (hlen signature).ge
  rw [htake, htake] at hzero
  have hread : readEntry memory xsdt i = ⟨.ok (xsdtEntry memory xsdt i), [entryAddress xsdt i]⟩ := by
    rw [readEntry, haddress]
    rfl
  rw [xsdtGetTable.loop, hread, Logged.ok_bind, hresult, Logged.lift_ok_bind]
  by_cases hsame : HasSignature memory signature (xsdtEntry memory xsdt i)
  · rw [if_pos hsame, if_neg (not_not_intro (hzero.mpr hsame))]
    rfl
  · rw [if_neg hsame, if_pos fun h => hsame (hzero.mp h)]
    rfl

/-- The result is the first entry from `i` on with the signature. -/
theorem xsdt_loop_result (left : Nat) : ∀ i,
    (xsdtGetTable.loop memory xsdt signature left i).result
      = .ok (((List.range' i left).find? fun j =>
          HasSignature memory signature (xsdtEntry memory xsdt j)).elim 0#64
            (xsdtEntry memory xsdt)) := by
  induction left with
  | zero => exact fun _ => rfl
  | succ left ih =>
      intro i
      rw [xsdt_loop_turn, List.range'_succ, List.find?_cons]
      by_cases hsame : HasSignature memory signature (xsdtEntry memory xsdt i)
      · rw [if_pos hsame, decide_eq_true hsame]
        rfl
      · rw [if_neg hsame, decide_eq_false hsame]
        exact ih (i + 1)

theorem xsdt_loop_events (left : Nat) : ∀ i,
    ∀ address ∈ (xsdtGetTable.loop memory xsdt signature left i).events,
      ∃ j < i + left, address = entryAddress xsdt j := by
  induction left with
  | zero => exact fun _ _ h => (List.not_mem_nil h).elim
  | succ left ih =>
      intro i address haddress
      have hlt : i < i + (left + 1) := Nat.lt_add_of_pos_right (Nat.succ_pos left)
      rw [xsdt_loop_turn] at haddress
      split at haddress
      · exact ⟨i, hlt, List.mem_singleton.mp haddress⟩
      · rcases List.mem_cons.mp haddress with heq | hrest
        · exact ⟨i, hlt, heq⟩
        · obtain ⟨j, hj, heq⟩ := ih (i + 1) address hrest
          exact ⟨j, by omega, heq⟩

/-! ## The number of entries -/

/-- Half an entry at the end of the table is not counted. -/
theorem entryInTable_iff (hheader : 36 ≤ tableLength memory xsdt) (i : Nat) :
    EntryInTable memory xsdt i ↔ i < (tableCount memory xsdt).toNat := by
  have hcount : (tableCount memory xsdt).toNat = (tableLength memory xsdt - 36) / 8 := by
    rw [tableCount, BitVec.toNat_udiv, BitVec.toNat_sub_of_le, toNat_headerLength]
    · rfl
    · rw [BitVec.le_def, toNat_headerLength]
      exact hheader
  rw [hcount, EntryInTable]
  omega

/-- A table shorter than its header has almost as many entries as fit in memory. -/
theorem tableCount_of_short (hshort : tableLength memory xsdt < 36) :
    2 ^ 61 - 5 ≤ (tableCount memory xsdt).toNat := by
  rw [tableCount, BitVec.toNat_udiv, BitVec.toNat_sub, toNat_headerLength,
    show sizeofSdtHeader.toNat = 36 from rfl, show (8#64).toNat = 8 from rfl]
  omega

/-- What the search of the entries finds. -/
theorem find_entry_iff (hheader : 36 ≤ tableLength memory xsdt) (i : Nat) :
    (List.range' 0 (tableCount memory xsdt).toNat).find?
        (fun j => HasSignature memory signature (xsdtEntry memory xsdt j)) = some i ↔
      FirstWithSignature memory xsdt signature i := by
  rw [List.find?_range'_eq_some, List.mem_range'_1, Nat.zero_add, ← entryInTable_iff hheader]
  simp only [decide_eq_true_eq, Bool.not_eq_true', decide_eq_false_iff_not]
  constructor
  · rintro ⟨hsame, ⟨-, hin⟩, hfirst⟩
    exact ⟨hin, hsame, fun j hj => hfirst j (Nat.zero_le j) hj⟩
  · rintro ⟨hin, hsame, hfirst⟩
    exact ⟨hsame, ⟨Nat.zero_le i, hin⟩, fun j _ hj => hfirst j hj⟩

theorem find_entry_none_iff (hheader : 36 ≤ tableLength memory xsdt) :
    (List.range' 0 (tableCount memory xsdt).toNat).find?
        (fun j => HasSignature memory signature (xsdtEntry memory xsdt j)) = none ↔
      ∀ i, EntryInTable memory xsdt i → ¬ HasSignature memory signature (xsdtEntry memory xsdt i) := by
  rw [List.find?_range'_eq_none, Nat.zero_add]
  simp only [Bool.not_eq_true', decide_eq_false_iff_not, entryInTable_iff hheader, Nat.zero_le,
    forall_const]

/-- There is at most one first entry. -/
theorem FirstWithSignature.unique {i j : Nat} (hi : FirstWithSignature memory xsdt signature i)
    (hj : FirstWithSignature memory xsdt signature j) : i = j := by
  rcases Nat.lt_trichotomy i j with hlt | heq | hlt
  · exact absurd hi.hasSignature (hj.first i hlt)
  · exact heq
  · exact absurd hj.hasSignature (hi.first j hlt)

end Search

section Result

variable {memory : Word → Byte} {rsdp signature : Word}

/-- The first entry is read in any case if the table is shorter than its header. -/
theorem header_of_confined (h : ∀ address ∈ (xsdtGetTable memory rsdp signature).events,
      ∃ i, EntryInTable memory (xsdtAddress memory rsdp) i ∧
        address = entryAddress (xsdtAddress memory rsdp) i) :
    36 ≤ tableLength memory (xsdtAddress memory rsdp) := by
  by_contra hshort
  have hcount := tableCount_of_short (Nat.not_le.mp hshort)
  obtain ⟨left, hleft⟩ := Nat.exists_eq_add_one_of_ne_zero
    (show (tableCount memory (xsdtAddress memory rsdp)).toNat ≠ 0 by omega)
  -- the wrapped count is not 0, so entry 0 is read
  have hfirst : entryAddress (xsdtAddress memory rsdp) 0
      ∈ (xsdtGetTable memory rsdp signature).events := by
    rw [xsdtGetTable, hleft, xsdt_loop_turn]
    split <;> exact List.mem_cons_self
  obtain ⟨i, hin, -⟩ := h _ hfirst
  rw [EntryInTable] at hin
  omega

/-- An XSDT at 0x1000 with a Length of 0, for the RSDP at 0x2000.  Behind its header is the
    address of an "APIC". -/
def shortXsdt : Word → Byte := fun address =>
  if address = 0x2019#64 then 0x10#8
  else if address = 0x1025#64 then 0x30#8
  else ([ch 'A', ch 'P', ch 'I', ch 'C'])[(address - 0x3000#64).toNat]?.getD 0#8

/-- An XSDT of 44 bytes with one entry, NULL. -/
def nullXsdt : Word → Byte := fun address =>
  if address = 0x2019#64 then 0x10#8 else if address = 0x1004#64 then 44#8 else 0#8

/-- In a table with a Length of 0 the search finds an entry that lies behind it, and the
    entry NULL is not told from no entry. -/
theorem xsdt_search_wrong :
    (xsdtGetTable shortXsdt 0x2000#64 0x3000#64).result = .ok 0x3000#64 ∧
    ¬ SearchesTable shortXsdt (xsdtAddress shortXsdt 0x2000#64) 0x3000#64
      (xsdtGetTable shortXsdt 0x2000#64 0x3000#64) ∧
    ¬ SearchesTable nullXsdt (xsdtAddress nullXsdt 0x2000#64) 0x3000#64
      (xsdtGetTable nullXsdt 0x2000#64 0x3000#64) := by
  -- the first search is not confined, the second returns NULL for an entry
  refine ⟨by rfl, fun h => ?_, fun h => ?_⟩
  · exact absurd (header_of_confined h.confined) (by decide)
  · obtain ⟨table, hresult, -, hnull⟩ := h.returns
    have hzero : (xsdtGetTable nullXsdt 0x2000#64 0x3000#64).result = .ok 0#64 := by rfl
    rw [hzero] at hresult
    exact hnull.mp (Except.ok.inj hresult).symm 0 (by unfold EntryInTable; decide) (by decide)

/-- **The search of the XSDT.**  It reads only entries that lie in the table and returns the
    first one with the signature, or NULL exactly if there is none, exactly if the table
    holds its header and, if the signature lies at address 0, no NULL before an entry with it. -/
theorem xsdt_search_iff (memory : Word → Byte) (rsdp signature : Word) :
    SearchesTable memory (xsdtAddress memory rsdp) signature (xsdtGetTable memory rsdp signature) ↔
      Searchable memory (xsdtAddress memory rsdp) signature := by
  constructor
  · rintro ⟨hconfined, table, hresult, hfirst, hnull⟩
    refine ⟨header_of_confined hconfined, fun hsame i hin hzero => ?_⟩
    by_contra hnone
    have hi : FirstWithSignature memory (xsdtAddress memory rsdp) signature i :=
      ⟨hin, hzero ▸ hsame, fun j hj hsame' => hnone ⟨j, hj, hsame'⟩⟩
    -- NULL is returned although this entry has the signature
    exact hnull.mp ((hfirst i hi).trans hzero) i hi.inTable hi.hasSignature
  · rintro ⟨hheader, hnotNull⟩
    have hresult : (xsdtGetTable memory rsdp signature).result = _ := xsdt_loop_result _ _
    refine ⟨fun address haddress => ?_, _, hresult, ?_⟩
    · obtain ⟨j, hj, heq⟩ := xsdt_loop_events _ _ address haddress
      exact ⟨j, (entryInTable_iff hheader j).mpr (by rwa [Nat.zero_add] at hj), heq⟩
    · -- the search found an entry, or there is none to find
      cases hfind : (List.range' 0 (tableCount memory (xsdtAddress memory rsdp)).toNat).find?
          fun j => HasSignature memory signature (xsdtEntry memory (xsdtAddress memory rsdp) j) with
      | none =>
          have hnone := (find_entry_none_iff hheader).mp hfind
          exact ⟨fun i hi => absurd hi.hasSignature (hnone i hi.inTable), fun _ => hnone,
            fun _ => rfl⟩
      | some j =>
          have hj := (find_entry_iff hheader j).mp hfind
          refine ⟨fun i hi => by rw [hi.unique hj]; rfl, fun hzero => ?_, fun hnone => ?_⟩
          · obtain ⟨k, hk, hsame⟩ := hnotNull (hzero ▸ hj.hasSignature) j hj.inTable hzero
            exact absurd hsame (hj.first k hk)
          · exact absurd hj.hasSignature (hnone j hj.inTable)

end Result

end EchOS
