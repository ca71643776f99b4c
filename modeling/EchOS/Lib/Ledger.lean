/-
  EchOS.Lib.Ledger

  Resources that a program gets from its environment and has to give back.

  An accounting says of every call which resources it needs, which one it gives
  back and which one its answer hands out.  The ledger follows a list of events
  with the resources held at each moment and stops at a call that needs or gives
  back one that is not held.  `Emits` relates a program's result to the events it
  adds, from any history and against any environment.
-/
import EchOS.Lib.Oracle
import Mathlib.Algebra.Order.Group.Multiset

namespace Oracle

variable {I : Interface} {α β R : Type}

/-- From every history, against every environment, `prog` adds events that stand in
    the relation `F` to its result. -/
def Emits (prog : Prog I α) (F : α → History I → Prop) : Prop :=
  ∀ env before, ∃ events, (prog env before).2 = before ++ events ∧ F (prog env before).1 events

namespace Emits

variable {prog : Prog I α} {F G : α → History I → Prop}

theorem conseq (h : Emits prog F) (hpost : ∀ a events, F a events → G a events) : Emits prog G := by
  intro env before
  obtain ⟨events, hrun, hF⟩ := h env before
  exact ⟨events, hrun, hpost _ _ hF⟩

theorem pure {a : α} (h : F a []) : Emits (Pure.pure a : Prog I α) F :=
  fun _ before => ⟨[], (List.append_nil before).symm, h⟩

theorem bind {next : α → Prog I β} {G : β → History I → Prop} (hprog : Emits prog F)
    (hnext : ∀ a events, F a events → Emits (next a) fun b later => G b (events ++ later)) :
    Emits (prog >>= next) G := by
  intro env before
  obtain ⟨events, hrun, hF⟩ := hprog env before
  obtain ⟨later, hrun', hG⟩ := hnext _ _ hF env (prog env before).2
  refine ⟨events ++ later, ?_, hG⟩
  rw [← List.append_assoc, ← hrun]
  exact hrun'

/-- Make a call and go on with any answer. -/
theorem call_bind {c : I.Call} {next : I.Answer c → Prog I β} {G : β → History I → Prop}
    (h : ∀ answer, Emits (next answer) fun b later => G b (⟨c, answer⟩ :: later)) :
    Emits (Oracle.call c >>= next) G := by
  intro env before
  obtain ⟨later, hrun, hG⟩ := h (env before c) env (before ++ [⟨c, env before c⟩])
  refine ⟨⟨c, env before c⟩ :: later, ?_, hG⟩
  rw [← List.singleton_append, ← List.append_assoc]
  exact hrun

theorem ite {p : Prop} [Decidable p] {other : Prog I α} (hthen : p → Emits prog F)
    (helse : ¬ p → Emits other F) : Emits (if p then prog else other) F := by
  split
  · next h => exact hthen h
  · next h => exact helse h

end Emits

/-- What the calls of an interface do with resources. -/
structure Accounting (I : Interface) (R : Type) where
  needs : I.Call → List R
  gives : I.Call → Option R
  takes : (call : I.Call) → I.Answer call → Option R

namespace Accounting

variable [DecidableEq R] (A : Accounting I R)

/-- The resources held after a call, if all it needs and gives back was held. -/
def step (held : Multiset R) (event : Event I) : Option (Multiset R) :=
  if (∀ r ∈ A.needs event.call, r ∈ held) ∧ ∀ r ∈ A.gives event.call, r ∈ held then
    some (((A.gives event.call).elim held held.erase)
      + (A.takes event.call event.answer).elim 0 ({·}))
  else none

/-- The resources held after the events. -/
def ledger (held : Multiset R) (events : History I) : Option (Multiset R) :=
  events.foldlM A.step held

@[simp] theorem ledger_nil (held : Multiset R) : A.ledger held [] = some held := rfl

@[simp] theorem ledger_cons (held : Multiset R) (event : Event I) (events : History I) :
    A.ledger held (event :: events) = (A.step held event).bind fun held => A.ledger held events :=
  List.foldlM_cons

theorem ledger_append (held : Multiset R) (events later : History I) :
    A.ledger held (events ++ later)
      = (A.ledger held events).bind fun held => A.ledger held later :=
  List.foldlM_append

variable {A} in
theorem ledger_of_step {held held' : Multiset R} {event : Event I} {events : History I}
    (h : A.step held event = some held') : A.ledger held (event :: events) = A.ledger held' events := by
  rw [ledger_cons, h, Option.bind_some]

variable {A} in
theorem ledger_of_events {held held' : Multiset R} {events later : History I}
    (h : A.ledger held events = some held') :
    A.ledger held (events ++ later) = A.ledger held' later := by
  rw [ledger_append, h, Option.bind_some]

section Step

variable {A} {held : Multiset R} {event : Event I}
  (hneeds : ∀ r ∈ A.needs event.call, r ∈ held)

include hneeds

/-- A call that only uses what is held. -/
theorem step_needs (hgives : A.gives event.call = none)
    (htakes : A.takes event.call event.answer = none) : A.step held event = some held := by
  unfold step
  rw [hgives, htakes, if_pos ⟨hneeds, fun r hr => nomatch hr⟩]
  exact congrArg some (add_zero held)

theorem step_takes {r : R} (hgives : A.gives event.call = none)
    (htakes : A.takes event.call event.answer = some r) :
    A.step held event = some (r ::ₘ held) := by
  unfold step
  rw [hgives, htakes, if_pos ⟨hneeds, fun r hr => nomatch hr⟩, ← Multiset.singleton_add, add_comm]
  rfl

theorem step_gives {r : R} {left : Multiset R} (hgives : A.gives event.call = some r)
    (htakes : A.takes event.call event.answer = none) (hheld : held = r ::ₘ left) :
    A.step held event = some left := by
  have hr : ∀ r ∈ A.gives event.call, r ∈ held := by
    intro r' hr'
    rw [hgives] at hr'
    cases hr'
    rw [hheld]
    exact Multiset.mem_cons_self r left
  unfold step
  rw [if_pos ⟨hneeds, hr⟩, hgives, htakes, hheld, Option.elim_some, Multiset.erase_cons_head]
  exact congrArg some (add_zero left)

end Step

variable {A} in
/-- Whatever else is held does not matter to a call. -/
theorem step_frame {held held' : Multiset R} {event : Event I} (h : A.step held event = some held')
    (more : Multiset R) : A.step (held + more) event = some (held' + more) := by
  unfold step at h ⊢
  split at h
  · next hheld =>
      have hmore : (∀ r ∈ A.needs event.call, r ∈ held + more) ∧
          ∀ r ∈ A.gives event.call, r ∈ held + more :=
        ⟨fun r hr => Multiset.mem_add.mpr (.inl (hheld.1 r hr)),
          fun r hr => Multiset.mem_add.mpr (.inl (hheld.2 r hr))⟩
      rw [if_pos hmore]
      cases h
      cases hgives : A.gives event.call with
      | none =>
          rw [Option.elim_none, Option.elim_none, add_right_comm]
      | some r =>
          have hr : r ∈ held := hheld.2 r (by rw [hgives]; rfl)
          rw [Option.elim_some, Option.elim_some, Multiset.erase_add_left_pos _ hr, add_right_comm]
  · cases h

variable {A} in
/-- The frame rule: nor does it to a run of calls. -/
theorem ledger_frame {held held' : Multiset R} {events : History I}
    (h : A.ledger held events = some held') (more : Multiset R) :
    A.ledger (held + more) events = some (held' + more) := by
  induction events generalizing held with
  | nil =>
      cases h
      rfl
  | cons event events ih =>
      rw [ledger_cons] at h ⊢
      obtain ⟨held1, hstep, hrest⟩ := Option.bind_eq_some_iff.mp h
      rw [step_frame hstep more, Option.bind_some]
      exact ih hrest

variable {A} in
theorem ledger_of_empty {left : Multiset R} {events : History I} (h : A.ledger 0 events = some left)
    (held : Multiset R) : A.ledger held events = some (held + left) := by
  have hframe := ledger_frame h held
  rwa [zero_add, add_comm left] at hframe

/-- The resources that the events handed out, and those they gave back. -/
def taken (events : History I) : Multiset R :=
  (events.filterMap fun event => A.takes event.call event.answer : List R)

def given (events : History I) : Multiset R :=
  (events.filterMap fun event => A.gives event.call : List R)

variable {A} {held held' : Multiset R}

omit [DecidableEq R] in
theorem taken_singleton (event : Event I) :
    A.taken [event] = (A.takes event.call event.answer).elim 0 ({·}) := by
  unfold taken
  cases h : A.takes event.call event.answer <;> simp [h]

omit [DecidableEq R] in
theorem given_singleton (event : Event I) :
    A.given [event] = (A.gives event.call).elim 0 ({·}) := by
  unfold given
  cases h : A.gives event.call <;> simp [h]

theorem step_conserves {event : Event I} (h : A.step held event = some held') :
    held + A.taken [event] = held' + A.given [event] := by
  unfold step at h
  split at h
  · next hheld =>
      cases h
      rw [taken_singleton, given_singleton]
      cases hgives : A.gives event.call with
      | none => exact (add_zero _).symm
      | some r =>
          -- what is given back was held, so taking it out loses nothing else
          have hr : r ∈ held := hheld.2 r (by rw [hgives]; rfl)
          have herase : held.erase r + {r} = held := by
            rw [add_comm, Multiset.singleton_add, Multiset.cons_erase hr]
          rw [Option.elim_some, Option.elim_some, add_right_comm, herase]
  · cases h

/-- What a ledger has at its end is what was handed out and not given back: each
    resource was given back as often as it was handed out, but for those left. -/
theorem ledger_conserves {events : History I} (h : A.ledger held events = some held') :
    held + A.taken events = held' + A.given events := by
  induction events generalizing held with
  | nil =>
      cases h
      rfl
  | cons event events ih =>
      rw [ledger_cons] at h
      obtain ⟨held1, hstep, hrest⟩ := Option.bind_eq_some_iff.mp h
      -- the first event balances against what is held after it, the rest from there on
      have hfirst := step_conserves hstep
      have hlater := ih hrest
      have htaken : A.taken (event :: events) = A.taken [event] + A.taken events := by
        unfold taken
        rw [Multiset.coe_add, ← List.filterMap_append, List.singleton_append]
      have hgiven : A.given (event :: events) = A.given [event] + A.given events := by
        unfold given
        rw [Multiset.coe_add, ← List.filterMap_append, List.singleton_append]
      rw [htaken, hgiven, ← add_assoc, hfirst, add_right_comm, hlater, add_assoc,
        add_comm (A.given events)]

variable (A) in
/-- The events need and give back only what is held at that moment, and leave `left`:
    the rest of what they handed out was given back, each as often as it was
    handed out. -/
structure Balanced (events : History I) (left : Multiset R) : Prop where
  held : A.ledger 0 events = some left
  returned : A.taken events = left + A.given events

theorem balanced_of_ledger {events : History I} {left : Multiset R}
    (h : A.ledger 0 events = some left) : A.Balanced events left where
  held := h
  returned := by
    have hsum := ledger_conserves h
    rwa [zero_add] at hsum

end Accounting

end Oracle
