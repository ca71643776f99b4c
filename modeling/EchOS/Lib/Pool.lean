/-
  EchOS.Lib.Pool

  A pool of resources shared by clients, as an abstract machine: resources are
  free, held by a client, or neither (never handed out, or lost).  A step takes
  distinct free resources out of the pool, or gives a held one back, after which
  the pool may or may not offer it again.

  `Inv` (what is held is held once and is not free) and `Within` (nothing outside
  a given set is free or held) hold along every run of steps from a state in
  which they hold.
-/
import Mathlib.Data.List.Nodup
import Mathlib.Logic.Relation

namespace Pool

variable {R : Type}

/-- The free resources, and the held ones in no particular order. -/
structure State (R : Type) where
  free : R → Prop
  held : List R

/-- One client request. -/
inductive Step [DecidableEq R] : State R → State R → Prop where
  | take {s : State R} {run : List R} {free' : R → Prop} (nodup : run.Nodup)
      (free : ∀ x ∈ run, s.free x) (rest : ∀ x, free' x → s.free x ∧ x ∉ run) :
      Step s ⟨free', run ++ s.held⟩
  | give {s : State R} {x : R} {free' : R → Prop} (held : x ∈ s.held)
      (rest : ∀ y, free' y → s.free y ∨ y = x) :
      Step s ⟨free', s.held.erase x⟩

/-- Every held resource is held once, and none is free. -/
structure Inv (s : State R) : Prop where
  nodup : s.held.Nodup
  not_free : ∀ x ∈ s.held, ¬ s.free x

/-- Only members of `u` are free or held. -/
def Within (u : R → Prop) (s : State R) : Prop :=
  ∀ x, s.free x ∨ x ∈ s.held → u x

section Run

variable [DecidableEq R] {s s' : State R} {u : R → Prop}

theorem Step.inv (h : Step s s') (hinv : Inv s) : Inv s' := by
  cases h with
  | take nodup free rest =>
      refine ⟨?_, fun x hx hfree => ?_⟩
      · rw [List.nodup_append]
        refine ⟨nodup, hinv.nodup, fun x hx y hy heq => ?_⟩
        -- what was free was not held
        subst heq
        exact hinv.not_free x hy (free x hx)
      · rcases List.mem_append.mp hx with hx | hx
        · exact (rest x hfree).2 hx
        · exact hinv.not_free x hx (rest x hfree).1
  | give held rest =>
      refine ⟨hinv.nodup.erase _, fun y hy hfree => ?_⟩
      have hmem := hinv.nodup.mem_erase_iff.mp hy
      rcases rest y hfree with h | h
      · exact hinv.not_free y hmem.2 h
      · exact hmem.1 h

theorem Step.within (h : Step s s') (hin : Within u s) : Within u s' := by
  cases h with
  | take nodup free rest =>
      rintro x (hx | hx)
      · exact hin x (.inl (rest x hx).1)
      · rcases List.mem_append.mp hx with hx | hx
        · exact hin x (.inl (free x hx))
        · exact hin x (.inr hx)
  | give held rest =>
      rintro y (hy | hy)
      · rcases rest y hy with h | rfl
        · exact hin y (.inl h)
        · exact hin y (.inr held)
      · exact hin y (.inr (List.mem_of_mem_erase hy))

/-- Both invariants hold along every run. -/
theorem run_inv (h : Relation.ReflTransGen Step s s') (hinv : Inv s) (hin : Within u s) :
    Inv s' ∧ Within u s' := by
  induction h with
  | refl => exact ⟨hinv, hin⟩
  | tail _ hstep ih => exact ⟨hstep.inv ih.1, hstep.within ih.2⟩

end Run

end Pool
