/-
  EchOS.Lib.Oracle

  Programs that call an environment which may answer anything, and may make its
  answers depend on all that happened before.  A run extends the history of calls
  and answers; a triple relates the history before a program to its result and the
  history after it, for every environment.
-/
import Mathlib.Data.List.Basic

namespace Oracle

/-- The calls a program can make, and the answers each of them can get. -/
structure Interface where
  Call : Type
  Answer : Call → Type

/-- A call that was made, with its answer. -/
structure Event (I : Interface) where
  call : I.Call
  answer : I.Answer call

/-- What happened so far, oldest first. -/
abbrev History (I : Interface) := List (Event I)

/-- An environment answers each call from the history before it. -/
def Environment (I : Interface) := History I → (call : I.Call) → I.Answer call

/-- A program, run against an environment. -/
def Prog (I : Interface) (α : Type) := Environment I → History I → α × History I

variable {I : Interface} {α β : Type}

instance : Monad (Prog I) where
  pure a := fun _ history => (a, history)
  bind prog next := fun env history => next (prog env history).1 env (prog env history).2

/-- Make a call. -/
def call (c : I.Call) : Prog I (I.Answer c) := fun env history =>
  (env history c, history ++ [⟨c, env history c⟩])

/-- From every history with `P`, against every environment, `prog` ends in `Q`. -/
def Triple (P : History I → Prop) (prog : Prog I α) (Q : α → History I → Prop) : Prop :=
  ∀ env history, P history → Q (prog env history).1 (prog env history).2

namespace Triple

variable {P P' : History I → Prop} {Q Q' : α → History I → Prop}

/-- The result is as the postcondition says of the history as it is. -/
theorem pure {a : α} (h : ∀ history, P history → Q a history) :
    Triple P (Pure.pure a : Prog I α) Q :=
  fun _ history hP => h history hP

theorem bind {prog : Prog I α} {next : α → Prog I β} {R : β → History I → Prop}
    (hprog : Triple P prog Q) (hnext : ∀ a, Triple (Q a) (next a) R) :
    Triple P (prog >>= next) R :=
  fun env history hP => hnext _ env _ (hprog env history hP)

/-- A call adds itself and some answer to the history. -/
theorem call {c : I.Call} {Q : I.Answer c → History I → Prop}
    (h : ∀ answer history, P history → Q answer (history ++ [⟨c, answer⟩])) :
    Triple P (Oracle.call c) Q :=
  fun _ history hP => h _ history hP

theorem conseq {prog : Prog I α} (h : Triple P' prog Q') (hpre : ∀ history, P history → P' history)
    (hpost : ∀ a history, Q' a history → Q a history) : Triple P prog Q :=
  fun env history hP => hpost _ _ (h env history (hpre history hP))

theorem ite {p : Prop} [Decidable p] {prog other : Prog I α} (hthen : p → Triple P prog Q)
    (helse : ¬ p → Triple P other Q) : Triple P (if p then prog else other) Q := by
  split
  · next h => exact hthen h
  · next h => exact helse h

end Triple

/-- Every call was allowed by what had happened before it. -/
def Respects (allowed : History I → I.Call → Prop) (history : History I) : Prop :=
  ∀ before event after, history = before ++ event :: after → allowed before event.call

namespace Respects

variable {allowed : History I → I.Call → Prop} {history : History I}

theorem nil : Respects allowed [] := by
  intro before event after h
  exact absurd h.symm (List.append_ne_nil_of_right_ne_nil _ (List.cons_ne_nil _ _))

theorem concat (h : Respects allowed history) {event : Event I}
    (hevent : allowed history event.call) : Respects allowed (history ++ [event]) := by
  intro before event' after heq
  -- the call in question is the new one, or one before it
  rcases List.eq_nil_or_concat after with rfl | ⟨after', last, rfl⟩
  · obtain ⟨rfl, hlast⟩ := List.append_inj' heq rfl
    cases hlast
    exact hevent
  · rw [List.concat_eq_append, ← List.cons_append, ← List.append_assoc] at heq
    exact h before event' after' (List.append_inj' heq rfl).1

end Respects

end Oracle
