/-
  EchOS.Kernel.Memory.TableWrites

  Where the paging functions write: only in tables of the tree that they leave.
  A frame that is no table of that tree holds what it held before the call.
-/
import EchOS.Kernel.Memory.System

namespace EchOS

namespace Machine

/-- The tables stay, and outside the tables of `s'` nothing is written. -/
structure Extends (root : Word) (s s' : Machine) : Prop where
  inv : s'.TreeInv root
  kept : ∀ p a, s.tableAt root p = some a → s'.tableAt root p = some a
  mem_eq : ∀ t, (∀ p, s'.tableAt root p ≠ some t) → s'.mem t = s.mem t

variable {root : Word} {s s' s'' : Machine}

theorem Extends.refl (hinv : s.TreeInv root) : s.Extends root s :=
  ⟨hinv, fun _ _ h => h, fun _ _ => rfl⟩

theorem Extends.trans (h : s.Extends root s') (h' : s'.Extends root s'') : s.Extends root s'' where
  inv := h'.inv
  kept p a hp := h'.kept p a (h.kept p a hp)
  mem_eq t ht := by
    rw [h'.mem_eq t ht]
    exact h.mem_eq t fun p hp => ht p (h'.kept p t hp)

/-- A leaf entry is written. -/
theorem store_extends (hinv : s.TreeInv root) {p : List Index} {a : Word}
    (ha : s.tableAt root p = some a) {i : Index} {e : Word} (hlen : 2 ≤ p.length)
    (hnext : entryTable p.length e = entryTable p.length (s.mem a i)) :
    s.Extends root (s.store a i e) := by
  have hgrows : s.Grows 0#64 root ∅ (s.store a i e) :=
    store_grows hinv ha hnext (fun hlt => absurd hlen (by omega)) fun h => absurd BitVec.zero_and h
  refine ⟨hgrows.inv, hgrows.kept, fun t ht => funext fun j => if_neg ?_⟩
  rintro ⟨rfl, _⟩
  exact ht p (hgrows.kept p t ha)

end Machine

/-- `alloc_table` clears the table it returns. -/
theorem allocTable_mem {s s' : Machine} {next : Word} (h : allocTable s = .ok (next, s')) {t : Word}
    (ht : t ≠ next) : s'.mem t = s.mem t := by
  unfold allocTable at h
  obtain ⟨⟨frame, pmm⟩, _, h⟩ := except_bind_ok h
  by_cases hfail : frame = noFrame
  · simp only [if_pos hfail] at h
    cases h
    rfl
  · simp only [if_neg hfail] at h
    cases h
    exact funext fun j => if_neg ht

/-- `next_table` writes in the table it is given and in the one it returns. -/
theorem nextTable_mem {s s' : Machine} {table next flags : Word} {index : Index}
    (h : nextTable s table index flags = .ok (next, s')) {t : Word} (ht : t ≠ table)
    (hnext : t ≠ next) : s'.mem t = s.mem t := by
  unfold nextTable at h
  split at h
  · obtain ⟨⟨frame, s1⟩, halloc, h⟩ := except_bind_ok h
    by_cases hnull : frame = null
    · simp only [if_pos hnull] at h
      cases h
      exact allocTable_mem halloc (hnull ▸ hnext)
    · simp only [if_neg hnull] at h
      cases h
      rw [← allocTable_mem halloc hnext]
      exact funext fun j => if_neg fun hj => ht hj.1
  · split at h
    · cases h
      rfl
    · cases h
      exact funext fun j => if_neg fun hj => ht hj.1

section Functions

variable {root : Word} {s s' : Machine} {r : Int}

/-- One level down: the table that `next_table` returns is in the tree. -/
theorem nextTable_extends (hinv : s.TreeInv root) {p : List Index} {a : Word}
    (ha : s.tableAt root p = some a) (hlen : p.length < 3) {i : Index} {flags next : Word}
    (h : nextTable s a i flags = .ok (next, s')) :
    s.Extends root s' ∧ (next ≠ null → s'.tableAt root (i :: p) = some next) := by
  rcases nextTable_cases hinv ha hlen i flags with
    ⟨_, hcall⟩ | ⟨_, _, _, hcall⟩ | ⟨b, s1, hcall, hne, _, htable, hgrows, _⟩
  · cases hcall.symm.trans h
    exact ⟨.refl hinv, fun hne => absurd rfl hne⟩
  · cases hcall.symm.trans h
    exact ⟨.refl hinv, fun hne => absurd rfl hne⟩
  · cases hcall.symm.trans h
    refine ⟨⟨hgrows.inv, hgrows.kept, fun t ht => nextTable_mem h ?_ ?_⟩, fun _ => htable⟩
    · rintro rfl
      exact ht p (hgrows.kept p t ha)
    · rintro rfl
      exact ht _ htable

/-- The page directory of an address is opened. -/
theorem withDirectory_extends (hinv : s.TreeInv root) {v flags : Word}
    {rest : Word → Machine → Except Abort (Int × Machine)}
    (hrest : ∀ pd s1, s1.TreeInv root → s1.tableAt root (path 2 v) = some pd →
      rest pd s1 = .ok (r, s') → s1.Extends root s')
    (h : withDirectory s root v flags rest = .ok (r, s')) : s.Extends root s' := by
  unfold withDirectory at h
  have hroot : s.tableAt root (path 0 v) = some root := rfl
  obtain ⟨⟨pdp, s1⟩, hcall1, h⟩ := except_bind_ok h
  obtain ⟨hext1, htable1⟩ := nextTable_extends hinv hroot (by rw [path_length]; decide) hcall1
  by_cases hne1 : pdp = null
  · simp only [if_pos hne1] at h
    cases h
    exact hext1
  simp only [if_neg hne1] at h
  obtain ⟨⟨pd, s2⟩, hcall2, h⟩ := except_bind_ok h
  have hpdp : s1.tableAt root (path 1 v) = some pdp := htable1 hne1
  obtain ⟨hext2, htable2⟩ := nextTable_extends hext1.inv hpdp (by rw [path_length]; decide) hcall2
  by_cases hne2 : pd = null
  · simp only [if_pos hne2] at h
    cases h
    exact hext1.trans hext2
  simp only [if_neg hne2] at h
  exact (hext1.trans hext2).trans (hrest pd s2 hext2.inv (htable2 hne2) h)

theorem mapPage_extends (hinv : s.TreeInv root) {v p flags : Word}
    (h : mapPage s root v p flags = .ok (r, s')) : s.Extends root s' := by
  rw [mapPage_eq] at h
  refine withDirectory_extends hinv (fun pd s1 hinv1 hpd h => ?_) h
  split at h
  · cases h
    exact .refl hinv1
  · obtain ⟨⟨pt, s2⟩, hcall, h⟩ := except_bind_ok h
    obtain ⟨hext, htable⟩ := nextTable_extends hinv1 hpd (by rw [path_length]; decide) hcall
    by_cases hne : pt = null
    · simp only [if_pos hne] at h
      cases h
      exact hext
    · simp only [if_neg hne] at h
      cases h
      have hpt : s2.tableAt root (path 3 v) = some pt := htable hne
      have hnone : ∀ e, entryTable 3 e = none := fun e => if_neg fun h => by omega
      exact hext.trans (Machine.store_extends hext.inv hpt (Nat.le_succ 2)
        ((hnone _).trans (hnone _).symm))

theorem mapLargePage_extends (hinv : s.TreeInv root) {v p flags : Word}
    (h : mapLargePage s root v p flags = .ok (r, s')) : s.Extends root s' := by
  rw [mapLargePage_eq] at h
  refine withDirectory_extends hinv (fun pd s1 hinv1 hpd h => ?_) h
  split at h
  · cases h
    exact .refl hinv1
  · next hpt =>
      cases h
      refine Machine.store_extends hinv1 hpd (Nat.le_refl 2) ?_
      rw [path_length, entryTable_largeEntry]
      -- what was there is no pointer, or the call would have refused
      refine (if_neg fun hold => hpt ?_).symm
      exact ⟨hold.1, (hold.2.resolve_left (Nat.lt_irrefl 2)).2⟩

theorem mapRange_loop_extends {stop flags : Word} {fuel : Nat} {v p : Word} (hinv : s.TreeInv root)
    (h : mapRange.loop root stop flags fuel s v p = .ok (r, s')) : s.Extends root s' := by
  induction fuel generalizing s v p with
  | zero => cases h
  | succ fuel ih =>
      rw [mapRange.loop] at h
      split at h
      · obtain ⟨⟨large, s1⟩, htry, h⟩ := except_bind_ok h
        have hext1 : s.Extends root s1 := by
          unfold mapRange.tryLarge at htry
          split at htry
          · exact mapLargePage_extends hinv htry
          · cases htry
            exact .refl hinv
        by_cases hlarge : large = 0
        · simp only [if_pos hlarge] at h
          exact hext1.trans (ih hext1.inv h)
        · simp only [if_neg hlarge] at h
          obtain ⟨⟨small, s2⟩, hcall, h⟩ := except_bind_ok h
          have hext2 := hext1.trans (mapPage_extends hext1.inv hcall)
          by_cases hsmall : small ≠ 0
          · simp only [if_pos hsmall] at h
            cases h
            exact hext2
          · simp only [if_neg hsmall] at h
            exact hext2.trans (ih hext2.inv h)
      · cases h
        exact .refl hinv

/-- Every call on the tree writes only in its tables. -/
theorem TableCall.extends (hinv : s.TreeInv root) (call : TableCall) {fuel : Nat}
    (h : call.run fuel s root = .ok (r, s')) : s.Extends root s' := by
  cases call with
  | mapPage vaddr paddr flags => exact mapPage_extends hinv h
  | mapLargePage vaddr paddr flags => exact mapLargePage_extends hinv h
  | mapRange vaddr paddr length flags => exact mapRange_loop_extends hinv h
  | getHeap vaddr length =>
      rcases getHeap_cases hinv h with
        ⟨_, rfl, _⟩ | ⟨a, pmm, s2, r2, _, _, _, hfit, hmap, hend⟩
      · exact .refl hinv
      · have hext := mapRange_loop_extends (hinv.of_firstFit hfit) hmap
        rcases hend with ⟨_, _, rfl⟩ | ⟨_, _, hmem, hinv', _⟩
        · exact ⟨hext.inv, hext.kept, hext.mem_eq⟩
        · -- giving the frames back leaves the memory as it is
          have hsame : ∀ p, s'.tableAt root p = s2.tableAt root p := fun p => by
            unfold Machine.tableAt
            rw [hmem]
          refine ⟨hinv', fun p b hb => (hsame p).trans (hext.kept p b hb), fun t ht => ?_⟩
          rw [hmem]
          exact hext.mem_eq t fun p hp => ht p ((hsame p).trans hp)

end Functions

/-- A step of the system writes only in the tables that there are afterwards. -/
theorem System.AnyStep.mem_eq {built : Pmm} {sys sys' : System} (hinv : sys.Inv built)
    (h : AnyStep sys sys') {t : Word} (ht : ¬ sys'.IsTable t) :
    sys'.machine.mem t = sys.machine.mem t := by
  have htable : ∀ {root fuel r s held} (call : TableCall), sys.pml4 = some root →
      call.run fuel sys.machine root = .ok (r, s) → ¬ IsTable ⟨s, sys.pml4, held⟩ t →
      s.mem t = sys.machine.mem t := by
    intro root fuel r s held call hroot hrun ht
    exact (call.extends (hinv.tree root hroot) hrun).mem_eq t fun p hp => ht ⟨root, p, hroot, hp⟩
  cases h with
  | step h =>
      cases h with
      | pmm call allowed run => rfl
      | initPml4 first run =>
          rename_i root s
          rcases initPml4_cases hinv.pmm hinv.frames hinv.machine_null_not_free run with
            ⟨_, rfl⟩ | ⟨hne, _⟩
          · rfl
          · refine allocTable_mem run fun heq => ht ?_
            exact ⟨root, [], if_neg hne, congrArg some heq.symm⟩
      | table pml4 call plain run => exact htable call pml4 run ht
  | table pml4 call run => exact htable call pml4 run ht

end EchOS
