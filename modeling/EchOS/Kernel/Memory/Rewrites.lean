/-
  EchOS.Kernel.Memory.Rewrites

  What the table code does to the entries of a tree.

  `Rewrites` extends `Machine.Grows` by the leaf entries after the step and by
  `Machine.Led`: whatever the flags are, the code hangs tables, writes leaf entries
  and leaves the real permissions to them.  `Passed.led` shows it of one
  `next_table`, `store_rewrites` of the write of a leaf entry.  A user leaf needs
  user bits above it; `Passed.userAt` supplies them, one level a call.
-/
import EchOS.Kernel.Memory.Rights

namespace EchOS

namespace Machine

/-- `s'` is `s` with frames of the pmm hung as tables at the paths `new` and with
    the leaf entries `leaves`. -/
structure Rewrites (flags root : Word) (new : Finset (List Index))
    (leaves : List Index → Option Word) (s s' : Machine) : Prop where
  grows : s.Grows flags root new s'
  leaves_eq : s'.leafEntryAt root = leaves
  led : s.Led root → s'.Led root

namespace Rewrites

variable {flags root : Word} {new new' : Finset (List Index)} {leaves leaves' : List Index → Option Word}
  {s s' s'' : Machine}

theorem refl (hinv : s.TreeInv root) : Rewrites flags root ∅ (s.leafEntryAt root) s s where
  grows := .refl hinv
  leaves_eq := rfl
  led h := h

theorem trans (h : Rewrites flags root new leaves s s')
    (h' : Rewrites flags root new' leaves' s' s'') :
    Rewrites flags root (new ∪ new') leaves' s s'' where
  grows := h.grows.trans h'.grows
  leaves_eq := h'.leaves_eq
  led hled := h'.led (h.led hled)

end Rewrites

/-! ## One `next_table` -/

/-- The rights bits of a pointer to a frame. -/
theorem linkEntry_rights {next : Word} (hframe : 4096 ∣ next.toNat ∧ next.toNat < 2 ^ 52)
    (flags : Word) :
    linkEntry next flags &&& readWriteBit ≠ 0 ∧ linkEntry next flags &&& nxBit = 0 ∧
      (linkEntry next flags &&& userSupervisorBit = 0 ↔ flags &&& userSupervisorBit = 0) := by
  have huser : next[2] = false := getLsbD_of_aligned (k := 2) hframe.1 (by decide)
  have hhigh : next &&& nxBit = 0#64 := by
    have hbit : next.getLsbD 63 = false := Nat.testBit_lt_two_pow (by omega)
    exact (and_bit_eq_zero (show 63 < 64 by decide)).mpr hbit
  have h1 : presentBit &&& nxBit = 0#64 := by decide
  have h2 : readWriteBit &&& nxBit = 0#64 := by decide
  have h3 : userSupervisorBit &&& nxBit = 0#64 := by decide
  refine ⟨?_, ?_, ?_⟩
  · rw [ne_eq, and_readWriteBit_eq_zero]
    simp [linkEntry, readWriteBit]
  · unfold linkEntry
    rw [BitVec.and_or_distrib_right, BitVec.and_or_distrib_right, BitVec.and_or_distrib_right, hhigh,
      h1, h2, and_userSupervisorBit_and h3]
    rfl
  · rw [and_userSupervisorBit_eq_zero, and_userSupervisorBit_eq_zero]
    simp [linkEntry, userSupervisorBit, presentBit, readWriteBit, huser]

/-- A widened pointer allows user accesses if the old one or the flags do. -/
theorem widened_user {e flags : Word}
    (h : (e ||| (flags &&& userSupervisorBit)) &&& userSupervisorBit ≠ 0) :
    e &&& userSupervisorBit ≠ 0 ∨ flags &&& userSupervisorBit ≠ 0 := by
  rw [BitVec.and_or_distrib_right, BitVec.and_assoc, BitVec.and_self] at h
  by_contra hno
  rw [not_or, not_not, not_not] at hno
  rw [hno.1, hno.2] at h
  exact h rfl

theorem widened_and_user (e flags : Word) :
    (e ||| (flags &&& userSupervisorBit)) &&& userSupervisorBit
      = (e &&& userSupervisorBit) ||| (flags &&& userSupervisorBit) := by
  rw [BitVec.and_or_distrib_right, BitVec.and_assoc, BitVec.and_self]

theorem or_ne_zero {x y : Word} (h : x ≠ 0 ∨ y ≠ 0) : x ||| y ≠ 0 := by
  intro hzero
  obtain ⟨hx, hy⟩ := BitVec.or_eq_zero_iff.mp hzero
  exact h.elim (fun h => h hx) fun h => h hy

namespace Passed

variable {flags root : Word} {s s' : Machine} {i : Index} {p : List Index}

/-- With user flags the slot allows user accesses afterwards. -/
theorem userAt (h : s.Passed flags root i p s') (hflags : flags &&& userSupervisorBit ≠ 0) :
    s'.UserAt root (i :: p) := by
  cases h with
  | linked _ _ frame _ entries =>
      refine ⟨_, (entries _).trans (if_pos rfl), linkEntry_present _ _, ?_⟩
      rw [ne_eq, (linkEntry_rights frame flags).2.2]
      exact hflags
  | widened _ pointer entries =>
      obtain ⟨a, ha⟩ := Option.ne_none_iff_exists'.mp pointer
      refine ⟨_, (entries _).trans (if_pos rfl), ?_, ?_⟩
      · rw [touched_and (by decide)]
        exact (entryTable_eq_some ha).1
      · rw [widened_and_user]
        exact or_ne_zero (.inr hflags)

/-- No slot hangs below an absent entry. -/
theorem entryAt_below {e : Word} (hslot : s.entryAt root (i :: p) = some e)
    (habsent : e &&& presentBit = 0) {q : List Index} (hq : q.tail = i :: p) :
    s.entryAt root q = none := by
  cases q with
  | nil => cases hq
  | cons j q =>
      have hq' : q = i :: p := hq
      have htable : PointerTree.node entryTable s.mem root (i :: p) = none := by
        rw [PointerTree.node_eq_slot_bind]
        show (s.entryAt root (i :: p)).bind _ = none
        rw [hslot]
        exact entryTable_of_absent habsent
      rw [hq', entryAt, PointerTree.slot, htable]
      rfl

/-- No leaf entry changes. -/
theorem leafEntryAt_eq (h : s.Passed flags root i p s') :
    s'.leafEntryAt root = s.leafEntryAt root := by
  funext q
  cases q with
  | nil => rfl
  | cons j q =>
      show (s'.entryAt root (j :: q)).bind _ = (s.entryAt root (j :: q)).bind _
      cases h with
      -- an absent entry and a pointer are both no leaf, and the new table is empty
      | linked slot absent frame pointer entries =>
          rw [entries]
          split
          · next heq =>
              cases heq
              rw [slot]
              show leafEntry _ _ = leafEntry _ _
              rw [leafEntry_of_absent absent, leafEntry_of_entryTable pointer]
          · split
            · next htail =>
                rw [entryAt_below slot absent htail]
                exact leafEntry_of_absent BitVec.zero_and
            · rfl
      | widened slot pointer entries =>
          rw [entries]
          split
          · next heq =>
              cases heq
              rw [slot]
              show leafEntry _ _ = leafEntry _ _
              rw [leafEntry_of_entryTable pointer, leafEntry_of_entryTable]
              rw [entryTable_touched]
              exact pointer
          · rfl

/-- What allowed user accesses still does. -/
theorem userAt_of_userAt (h : s.Passed flags root i p s') {q : List Index}
    (hq : s.UserAt root q) : s'.UserAt root q := by
  cases q with
  | nil => trivial
  | cons j q =>
      obtain ⟨e, hslot, hpresent, huser⟩ := hq
      cases h with
      | linked slot absent frame pointer entries =>
          refine ⟨e, ?_, hpresent, huser⟩
          -- the slot is present, so it is neither the one linked nor one below it
          rw [entries, if_neg, if_neg, hslot]
          · intro htail
            rw [entryAt_below slot absent htail] at hslot
            cases hslot
          · intro heq
            rw [heq, slot] at hslot
            cases hslot
            exact hpresent absent
      | widened slot pointer entries =>
          by_cases heq : j :: q = i :: p
          · rw [heq, slot] at hslot
            cases hslot
            refine ⟨_, (entries _).trans (if_pos heq), ?_, ?_⟩
            · rw [touched_and (by decide)]
              exact hpresent
            · rw [widened_and_user]
              exact or_ne_zero (.inl huser)
          · exact ⟨e, (entries _).trans ((if_neg heq).trans hslot), hpresent, huser⟩

/-- An entry is the one that `next_table` wrote, one of the new table, or an old one. -/
theorem slot_cases (h : s.Passed flags root i p s') {q : List Index} {e' : Word}
    (hslot : s'.entryAt root q = some e') :
    (q = i :: p ∧ ((∃ b, (4096 ∣ b.toNat ∧ b.toNat < 2 ^ 52) ∧ e' = linkEntry b flags) ∨
      ∃ e, s.entryAt root (i :: p) = some e ∧ entryTable p.length e ≠ none ∧
        e' = e ||| (flags &&& userSupervisorBit))) ∨
    e' = 0#64 ∨ s.entryAt root q = some e' := by
  cases h with
  | linked slot absent frame pointer entries =>
      rw [entries] at hslot
      split at hslot
      · next heq => exact .inl ⟨heq, .inl ⟨_, frame, (Option.some.inj hslot).symm⟩⟩
      · split at hslot
        · exact .inr (.inl (Option.some.inj hslot).symm)
        · exact .inr (.inr hslot)
  | widened slot pointer entries =>
      rw [entries] at hslot
      split at hslot
      · next heq => exact .inl ⟨heq, .inr ⟨_, slot, pointer, (Option.some.inj hslot).symm⟩⟩
      · exact .inr (.inr hslot)

/-- What allows user accesses did before, or is the slot itself. -/
theorem userAt_cases (h : s.Passed flags root i p s') {j : Index} {q : List Index}
    (hq : s'.UserAt root (j :: q)) :
    s.UserAt root (j :: q) ∨ j :: q = i :: p ∧ flags &&& userSupervisorBit ≠ 0 := by
  obtain ⟨e', hslot, hpresent, huser⟩ := hq
  rcases h.slot_cases hslot with
    ⟨heq, ⟨b, frame, rfl⟩ | ⟨e, slot, pointer, rfl⟩⟩ | rfl | hold
  · rw [ne_eq, (linkEntry_rights frame flags).2.2] at huser
    exact .inr ⟨heq, huser⟩
  · rw [touched_and (by decide)] at hpresent
    rcases widened_user huser with hold | hflags
    · exact .inl ⟨_, heq ▸ slot, hpresent, hold⟩
    · exact .inr ⟨heq, hflags⟩
  · exact absurd BitVec.zero_and hpresent
  · exact .inl ⟨e', hold, hpresent, huser⟩

/-- The leaf still decides, when the slots above allow what the flags ask for. -/
theorem led (h : s.Passed flags root i p s') (hled : s.Led root)
    (habove : flags &&& userSupervisorBit ≠ 0 → s.UserAt root p) : s'.Led root := by
  constructor
  · intro j q e' hslot hpointer
    rcases h.slot_cases hslot with
      ⟨-, ⟨b, frame, rfl⟩ | ⟨e, slot, pointer, rfl⟩⟩ | rfl | hold
    · exact ⟨(linkEntry_rights frame flags).1, (linkEntry_rights frame flags).2.1⟩
    · rw [touched_and (by decide), touched_and (by decide)]
      exact hled.pointers i p _ slot pointer
    · exact absurd (entryTable_zero _) hpointer
    · exact hled.pointers j q e' hold hpointer
  -- the slot that became accessible is below slots that were made so before it
  · intro j q hq
    rcases h.userAt_cases hq with hold | ⟨heq, hflags⟩
    · exact h.userAt_of_userAt (hled.users j q hold)
    · cases heq
      exact h.userAt_of_userAt (habove hflags)

end Passed

/-! ## Writing a leaf entry -/

section Store

variable {flags root : Word} {s : Machine} {i : Index} {p : List Index} {a e : Word}

/-- A leaf entry written over a slot that points to no table, where the slots above
    allow what it allows. -/
theorem store_led (hinv : s.TreeInv root) (ha : s.tableAt root p = some a)
    (hold : entryTable p.length (s.mem a i) = none) (hnew : entryTable p.length e = none)
    (habove : e &&& userSupervisorBit ≠ 0 → s.UserAt root p) (hled : s.Led root) :
    (s.store a i e).Led root := by
  have hentries := entryAt_store hinv ha (hnew.trans hold.symm)
  constructor
  · intro j q e' hslot hpointer
    rw [hentries] at hslot
    split at hslot
    · next heq =>
        cases heq
        cases hslot
        exact absurd hnew hpointer
    · exact hled.pointers j q e' hslot hpointer
  · -- nothing hangs below the slot, so no other user entry loses one above it
    have hkept : ∀ q, q ≠ i :: p → s.UserAt root q → (s.store a i e).UserAt root q := by
      intro q hq hat
      cases q with
      | nil => trivial
      | cons k q =>
          obtain ⟨e', hslot, hrest⟩ := hat
          exact ⟨e', (hentries _).trans ((if_neg hq).trans hslot), hrest⟩
    intro j q hat
    obtain ⟨e', hslot, hpresent, huser⟩ := hat
    rw [hentries] at hslot
    split at hslot
    · next heq =>
        cases heq
        cases hslot
        exact hkept _ (fun h => by simpa using congrArg List.length h) (habove huser)
    · have hq := hled.users j q ⟨e', hslot, hpresent, huser⟩
      refine hkept q (fun heq => ?_) hq
      have htable : PointerTree.node entryTable s.mem root (i :: p) = none :=
        (PointerTree.node_cons ha).trans hold
      rw [heq, entryAt, PointerTree.slot, htable] at hslot
      cases hslot

theorem store_rewrites (hinv : s.TreeInv root) (ha : s.tableAt root p = some a)
    (hold : entryTable p.length (s.mem a i) = none) (hnew : entryTable p.length e = none)
    (hleaf : leafEntry p.length e = some e) (hgrows : s.Grows flags root ∅ (s.store a i e))
    (habove : e &&& userSupervisorBit ≠ 0 → s.UserAt root p) :
    s.Rewrites flags root ∅ (Function.update (s.leafEntryAt root) (i :: p) (some e))
      (s.store a i e) where
  grows := hgrows
  leaves_eq := by
    funext q
    refine (PointerTree.leafAt_write hinv.separate ha (hnew.trans hold.symm) leafEntry q).trans ?_
    rw [Function.update_apply, hleaf]
  led := store_led hinv ha hold hnew habove

end Store

end Machine

end EchOS
