/-
  EchOS.Efi.Rsdp

  `get_rsdp2` of `efi-stage/main.c`, the search for the ACPI table in the firmware's
  configuration tables.

  The loop counts in 16 bits up to a `UINTN`, so with 65536 tables or more it starts
  over at the first one and never ends, unless it finds what it looks for.  What
  `CompareGuid` of the EFI library says of two GUIDs is given.
-/
import EchOS.Basic

namespace EchOS

/-- `EFI_GUID` -/
abbrev EfiGuid := BitVec 128

/-- `EFI_CONFIGURATION_TABLE` -/
structure EfiConfigurationTable where
  vendorGuid : EfiGuid
  vendorTable : Word
  deriving Repr, DecidableEq

/-- The system table's `NumberOfTableEntries` and `ConfigurationTable`. -/
structure EfiSystemTable where
  numberOfTableEntries : Word
  configurationTable : Nat → EfiConfigurationTable

/-- The loop of `get_rsdp2`.  `same guid` says that `CompareGuid` of `ACPI2` and `guid` is
    not 0. -/
def getRsdp2.loop (same : EfiGuid → Bool) (st : EfiSystemTable) :
    (fuel : Nat) → (counter : BitVec 16) → Except Abort Word
  | 0, _ => .error .outOfFuel
  | fuel + 1, counter =>
      if counter.setWidth 64 < st.numberOfTableEntries then
        let table := st.configurationTable counter.toNat
        -- `continue`
        if ¬ same table.vendorGuid then getRsdp2.loop same st fuel (counter + 1#16)
        else .ok table.vendorTable
      else .ok 0#64

/-- `get_rsdp2` -/
def getRsdp2 (same : EfiGuid → Bool) (st : EfiSystemTable) (fuel : Nat) : Except Abort Word :=
  getRsdp2.loop same st fuel 0#16

/-! ## The search -/

section Search

variable {same : EfiGuid → Bool} {st : EfiSystemTable}

/-- The first `n` tables are not the one. -/
def NoneBefore (same : EfiGuid → Bool) (st : EfiSystemTable) (n : Nat) : Prop :=
  ∀ i, i < n → same (st.configurationTable i).vendorGuid = false

theorem counter_lt_iff {n : Word} {counter : Nat} (hcounter : counter < 2 ^ 16) :
    (BitVec.ofNat 16 counter).setWidth 64 < n ↔ counter < n.toNat := by
  rw [BitVec.lt_def, BitVec.toNat_setWidth, BitVec.toNat_ofNat, Nat.mod_eq_of_lt hcounter,
    Nat.mod_eq_of_lt (by omega)]

namespace getRsdp2

/-- A table that is not the one. -/
theorem loop_skip {fuel counter : Nat} (hlt : counter < st.numberOfTableEntries.toNat)
    (hcounter : counter < 2 ^ 16) (hne : same (st.configurationTable counter).vendorGuid = false) :
    getRsdp2.loop same st (fuel + 1) (BitVec.ofNat 16 counter)
      = getRsdp2.loop same st fuel (BitVec.ofNat 16 (counter + 1)) := by
  have hindex : (BitVec.ofNat 16 counter).toNat = counter := by
    rw [BitVec.toNat_ofNat, Nat.mod_eq_of_lt hcounter]
  rw [getRsdp2.loop, if_pos ((counter_lt_iff hcounter).mpr hlt), hindex, BitVec.ofNat_add]
  simp [hne]

/-- The loop stops at the first table that is the one. -/
theorem loop_found {i : Nat} (hi : i < st.numberOfTableEntries.toNat) (hi16 : i < 2 ^ 16)
    (hnone : NoneBefore same st i) (hsame : same (st.configurationTable i).vendorGuid = true)
    {left fuel : Nat} (hleft : left ≤ i) (hfuel : left < fuel) :
    getRsdp2.loop same st fuel (BitVec.ofNat 16 (i - left))
      = .ok (st.configurationTable i).vendorTable := by
  induction left generalizing fuel with
  | zero =>
      obtain ⟨fuel, rfl⟩ : ∃ n, fuel = n + 1 := ⟨fuel - 1, by omega⟩
      have hindex : (BitVec.ofNat 16 i).toNat = i := by
        rw [BitVec.toNat_ofNat, Nat.mod_eq_of_lt hi16]
      rw [Nat.sub_zero, getRsdp2.loop, if_pos ((counter_lt_iff hi16).mpr hi), hindex]
      simp [hsame]
  | succ left ih =>
      obtain ⟨fuel, rfl⟩ : ∃ n, fuel = n + 1 := ⟨fuel - 1, by omega⟩
      have hnext : i - (left + 1) + 1 = i - left := by omega
      rw [loop_skip (by omega) (by omega) (hnone _ (by omega)), hnext]
      exact ih (by omega) (by omega)

/-- With fewer than 65536 tables it gets to the end. -/
theorem loop_absent (hn : st.numberOfTableEntries.toNat < 2 ^ 16)
    (hnone : NoneBefore same st st.numberOfTableEntries.toNat) {left fuel : Nat}
    (hleft : left ≤ st.numberOfTableEntries.toNat) (hfuel : left < fuel) :
    getRsdp2.loop same st fuel (BitVec.ofNat 16 (st.numberOfTableEntries.toNat - left))
      = .ok 0#64 := by
  induction left generalizing fuel with
  | zero =>
      obtain ⟨fuel, rfl⟩ : ∃ n, fuel = n + 1 := ⟨fuel - 1, by omega⟩
      rw [Nat.sub_zero, getRsdp2.loop, if_neg]
      rw [counter_lt_iff hn]
      omega
  | succ left ih =>
      obtain ⟨fuel, rfl⟩ : ∃ n, fuel = n + 1 := ⟨fuel - 1, by omega⟩
      have hnext : st.numberOfTableEntries.toNat - (left + 1) + 1
          = st.numberOfTableEntries.toNat - left := by omega
      rw [loop_skip (by omega) (by omega) (hnone _ (by omega)), hnext]
      exact ih (by omega) (by omega)

/-- With more, and none of the first 65536 the one, it is still searching after any number
    of turns. -/
theorem loop_endless (hn : 2 ^ 16 ≤ st.numberOfTableEntries.toNat)
    (hnone : NoneBefore same st (2 ^ 16)) (fuel counter : Nat) :
    getRsdp2.loop same st fuel (BitVec.ofNat 16 counter) = .error .outOfFuel := by
  induction fuel generalizing counter with
  | zero => rfl
  | succ fuel ih =>
      -- the counter as it is in 16 bits
      have hmod : counter % 2 ^ 16 < 2 ^ 16 := Nat.mod_lt _ (by decide)
      have hwrap : BitVec.ofNat 16 counter = BitVec.ofNat 16 (counter % 2 ^ 16) := by
        apply BitVec.eq_of_toNat_eq
        rw [BitVec.toNat_ofNat, BitVec.toNat_ofNat, Nat.mod_mod]
      rw [hwrap, loop_skip (by omega) hmod (hnone _ hmod)]
      exact ih _

/-- What it returns, if it does. -/
theorem loop_result {fuel counter : Nat} {p : Word} (hcounter : counter < 2 ^ 16)
    (hnone : NoneBefore same st counter)
    (h : getRsdp2.loop same st fuel (BitVec.ofNat 16 counter) = .ok p) :
    (NoneBefore same st st.numberOfTableEntries.toNat ∧ p = 0#64) ∨
    ∃ i, i < st.numberOfTableEntries.toNat ∧ NoneBefore same st i ∧
      same (st.configurationTable i).vendorGuid = true ∧
      p = (st.configurationTable i).vendorTable := by
  induction fuel generalizing counter with
  | zero => cases h
  | succ fuel ih =>
      by_cases hlt : counter < st.numberOfTableEntries.toNat
      · cases hsame : same (st.configurationTable counter).vendorGuid with
        | true =>
            have hfound := loop_found hlt hcounter hnone hsame (Nat.zero_le _) (Nat.succ_pos fuel)
            rw [Nat.sub_zero] at hfound
            cases hfound.symm.trans h
            exact .inr ⟨counter, hlt, hnone, hsame, rfl⟩
        | false =>
            have hnext : NoneBefore same st (counter + 1) := fun i hi => by
              rcases Nat.lt_succ_iff_lt_or_eq.mp hi with hi | rfl
              · exact hnone i hi
              · exact hsame
            rw [loop_skip hlt hcounter hsame] at h
            by_cases hwrap : counter + 1 < 2 ^ 16
            · exact ih hwrap hnext h
            · -- the counter is back at 0, and there is nothing to be found
              have hall : counter + 1 = 2 ^ 16 := by omega
              rw [hall] at hnext
              rw [loop_endless (by omega) hnext] at h
              cases h
      · have hend : NoneBefore same st st.numberOfTableEntries.toNat := fun i hi =>
          hnone i (by omega)
        rw [getRsdp2.loop, if_neg (by rw [counter_lt_iff hcounter]; exact hlt)] at h
        cases h
        exact .inl ⟨hend, rfl⟩

end getRsdp2

end Search

/-- Whether or not some table is the one, there is a first such table or none. -/
theorem noneBefore_or_first (same : EfiGuid → Bool) (st : EfiSystemTable) (n : Nat) :
    NoneBefore same st n ∨
    ∃ i, i < n ∧ NoneBefore same st i ∧ same (st.configurationTable i).vendorGuid = true := by
  induction n with
  | zero => exact .inl fun i hi => absurd hi (Nat.not_lt_zero i)
  | succ n ih =>
      rcases ih with hnone | ⟨i, hi, hfirst⟩
      · cases hsame : same (st.configurationTable n).vendorGuid with
        | true => exact .inr ⟨n, Nat.lt_succ_self n, hnone, hsame⟩
        | false =>
            refine .inl fun i hi => ?_
            rcases Nat.lt_succ_iff_lt_or_eq.mp hi with hlt | rfl
            · exact hnone i hlt
            · exact hsame
      · exact .inr ⟨i, Nat.lt_succ_of_lt hi, hfirst⟩

/-- **When `get_rsdp2` ends, and with what.**  It ends exactly if there are fewer than 65536
    tables or the ACPI table is among the first 65536 of them.  What it returns is the
    address in the first table that is the ACPI one, or NULL if there is none. -/
theorem get_rsdp2_ends_iff (same : EfiGuid → Bool) (st : EfiSystemTable) :
    ((∃ fuel p, getRsdp2 same st fuel = .ok p) ↔
      st.numberOfTableEntries.toNat < 2 ^ 16 ∨ ¬ NoneBefore same st (2 ^ 16)) ∧
    ∀ fuel p, getRsdp2 same st fuel = .ok p →
      (NoneBefore same st st.numberOfTableEntries.toNat ∧ p = 0#64) ∨
      ∃ i, i < st.numberOfTableEntries.toNat ∧ NoneBefore same st i ∧
        same (st.configurationTable i).vendorGuid = true ∧
        p = (st.configurationTable i).vendorTable := by
  refine ⟨⟨fun ⟨fuel, p, h⟩ => ?_, fun h => ?_⟩, fun fuel p h => ?_⟩
  · by_cases hn : st.numberOfTableEntries.toNat < 2 ^ 16
    · exact .inl hn
    · refine .inr fun hnone => ?_
      have hendless := getRsdp2.loop_endless (by omega) hnone fuel 0
      cases hendless.symm.trans h
  · rcases noneBefore_or_first same st (min st.numberOfTableEntries.toNat (2 ^ 16)) with
      hnone | ⟨i, hi, hnone, hsame⟩
    · have hn : st.numberOfTableEntries.toNat < 2 ^ 16 := by
        by_contra hge
        rw [Nat.min_eq_right (by omega)] at hnone
        exact h.elim hge fun hsome => hsome hnone
      rw [Nat.min_eq_left (by omega)] at hnone
      have habsent := getRsdp2.loop_absent hn hnone (Nat.le_refl _) (Nat.lt_succ_self _)
      rw [Nat.sub_self] at habsent
      exact ⟨_, _, habsent⟩
    · have hfound := getRsdp2.loop_found (by omega) (by omega) hnone hsame (Nat.le_refl i)
        (Nat.lt_succ_self i)
      rw [Nat.sub_self] at hfound
      exact ⟨_, _, hfound⟩
  · exact getRsdp2.loop_result (by decide) (fun i hi => absurd hi (Nat.not_lt_zero i)) h

end EchOS
