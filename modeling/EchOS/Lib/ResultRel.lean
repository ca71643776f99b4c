/-
  EchOS.Lib.ResultRel

  Two programs that can fail, one beside the other: both have a result, and the
  results are related, or both fail with the same error.  The relation goes
  through sequencing and through choices made alike on both sides, so a
  simulation of one program by another is proved part by part.
-/
import Mathlib.Logic.Basic

/-- Related results, or the same error. -/
inductive ResultRel {ε α β : Type} (R : α → β → Prop) : Except ε α → Except ε β → Prop
  | ok {a : α} {b : β} (rel : R a b) : ResultRel R (.ok a) (.ok b)
  | error (e : ε) : ResultRel R (.error e) (.error e)

namespace ResultRel

variable {ε α β γ δ : Type} {R : α → β → Prop} {S : γ → δ → Prop} {x : Except ε α} {y : Except ε β}

theorem bind (h : ResultRel R x y) {f : α → Except ε γ} {g : β → Except ε δ}
    (hrest : ∀ a b, R a b → ResultRel S (f a) (g b)) : ResultRel S (x >>= f) (y >>= g) := by
  cases h with
  | ok rel => exact hrest _ _ rel
  | error e => exact .error e

/-- One step that both sides take. -/
theorem same {P : α → Prop} (h : ∀ a, x = .ok a → P a) : ResultRel (fun a b => a = b ∧ P b) x x := by
  cases x with
  | ok a => exact .ok ⟨rfl, h a rfl⟩
  | error e => exact .error e

/-- A test that comes out alike on both sides. -/
theorem ite {p q : Prop} [Decidable p] [Decidable q] (hiff : p ↔ q) {x' : Except ε α}
    {y' : Except ε β} (ht : p → ResultRel R x y) (hf : ¬ p → ResultRel R x' y') :
    ResultRel R (if p then x else x') (if q then y else y') := by
  by_cases hp : p
  · rw [if_pos hp, if_pos (hiff.mp hp)]
    exact ht hp
  · rw [if_neg hp, if_neg fun hq => hp (hiff.mpr hq)]
    exact hf hp

theorem mono {R' : α → β → Prop} (h : ResultRel R x y) (himp : ∀ a b, R a b → R' a b) :
    ResultRel R' x y := by
  cases h with
  | ok rel => exact .ok (himp _ _ rel)
  | error e => exact .error e

/-- Beside an error there is the same error. -/
theorem mono_error {R' : α → β → Prop} {e : ε} (h : ResultRel R x (.error e : Except ε β)) :
    ResultRel R' x (.error e) := by
  cases h with
  | error e => exact .error e

theorem of_ok_left {a : α} (h : ResultRel R (.ok a : Except ε α) y) : ∃ b, y = .ok b ∧ R a b := by
  cases h with
  | ok rel => exact ⟨_, rfl, rel⟩

theorem of_ok_right {b : β} (h : ResultRel R x (.ok b : Except ε β)) : ∃ a, x = .ok a ∧ R a b := by
  cases h with
  | ok rel => exact ⟨_, rfl, rel⟩

end ResultRel
