/-
  EchOS.Lib.Logged

  Computations that log events and may fail; what was logged before a failure is
  kept.  The result of a logged computation is that of the computation without its
  log (`result_bind`), and `Within` bounds its events: each is allowed, and at most
  `n` of them are of one kind.
-/
import Mathlib.Data.List.Count

/-- A result, and the events on the way to it, oldest first. -/
structure Logged (Event Error α : Type) where
  result : Except Error α
  events : List Event

namespace Logged

variable {Event Error α β : Type}

instance : Monad (Logged Event Error) where
  pure a := ⟨.ok a, []⟩
  bind x next :=
    match x.result with
    | .ok a => ⟨(next a).result, x.events ++ (next a).events⟩
    | .error e => ⟨.error e, x.events⟩

/-- Log an event. -/
def log (event : Event) : Logged Event Error Unit := ⟨.ok (), [event]⟩

/-- A computation that logs nothing. -/
def lift (result : Except Error α) : Logged Event Error α := ⟨result, []⟩

@[simp] theorem result_pure (a : α) : (pure a : Logged Event Error α).result = .ok a := rfl

@[simp] theorem result_log (event : Event) :
    (log event : Logged Event Error Unit).result = .ok () := rfl

@[simp] theorem result_lift (result : Except Error α) :
    (lift result : Logged Event Error α).result = result := rfl

@[simp] theorem result_bind (x : Logged Event Error α) (next : α → Logged Event Error β) :
    (x >>= next).result = x.result >>= fun a => (next a).result := by
  show (match x.result with | .ok a => _ | .error e => _ : Logged Event Error β).result = _
  cases x.result <;> rfl

/-- What follows a first part with a result. -/
theorem ok_bind (a : α) (events : List Event) (next : α → Logged Event Error β) :
    (⟨.ok a, events⟩ : Logged Event Error α) >>= next
      = ⟨(next a).result, events ++ (next a).events⟩ := rfl

theorem lift_ok_bind (a : α) (next : α → Logged Event Error β) :
    (lift (.ok a) : Logged Event Error α) >>= next = next a := rfl

/-- What the first part logs is kept. -/
theorem events_subset_bind (x : Logged Event Error α) (next : α → Logged Event Error β) :
    x.events ⊆ (x >>= next).events := by
  show x.events ⊆ (match x.result with | .ok a => _ | .error e => _ : Logged Event Error β).events
  cases x.result with
  | ok a => exact List.subset_append_left _ _
  | error e => exact List.Subset.refl _

theorem next_events_subset_bind {x : Logged Event Error α} {a : α} (h : x.result = .ok a)
    (next : α → Logged Event Error β) : (next a).events ⊆ (x >>= next).events := by
  obtain ⟨_, events⟩ := x
  cases h
  exact List.subset_append_right events (next a).events

@[simp] theorem result_ite {p : Prop} [Decidable p] (x y : Logged Event Error α) :
    (if p then x else y).result = if p then x.result else y.result :=
  apply_ite result p x y

/-- Every event is allowed, and at most `n` are of the given kind. -/
structure Within (allowed : Event → Prop) (kind : Event → Bool) (n : Nat)
    (x : Logged Event Error α) : Prop where
  allowed : ∀ event ∈ x.events, allowed event
  count : x.events.countP kind ≤ n

namespace Within

variable {allowed : Event → Prop} {kind : Event → Bool} {m n : Nat} {x : Logged Event Error α}

theorem mono (h : Within allowed kind m x) (hle : m ≤ n) : Within allowed kind n x :=
  ⟨h.allowed, Nat.le_trans h.count hle⟩

theorem pure {a : α} : Within allowed kind n (Pure.pure a : Logged Event Error α) :=
  ⟨fun _ h => (List.not_mem_nil h).elim, Nat.zero_le n⟩

theorem lift {result : Except Error α} :
    Within allowed kind n (Logged.lift result : Logged Event Error α) :=
  ⟨fun _ h => (List.not_mem_nil h).elim, Nat.zero_le n⟩

/-- An event that is not of the kind that is counted. -/
theorem log {event : Event} (h : allowed event) (hkind : kind event = false) :
    Within allowed kind 0 (Logged.log event : Logged Event Error Unit) where
  allowed e he := by rwa [List.mem_singleton.mp he]
  count := by
    show [event].countP kind ≤ 0
    rw [List.countP_singleton, hkind]
    exact Nat.le_refl _

theorem log_kind {event : Event} (h : allowed event) :
    Within allowed kind 1 (Logged.log event : Logged Event Error Unit) where
  allowed e he := by rwa [List.mem_singleton.mp he]
  count := List.countP_le_length

/-- The rest of a computation starts from a result of its first part. -/
theorem bind {next : α → Logged Event Error β} (hx : Within allowed kind m x)
    (hnext : ∀ a, x.result = .ok a → Within allowed kind n (next a)) :
    Within allowed kind (m + n) (x >>= next) := by
  -- the rest runs only when the first part has a result
  have hbind : (x >>= next).events = x.events ∨
      ∃ a, x.result = .ok a ∧ (x >>= next).events = x.events ++ (next a).events := by
    show (match x.result with | .ok a => _ | .error e => _ : Logged Event Error β).events = _ ∨
      ∃ a, _ ∧ (match x.result with | .ok a => _ | .error e => _ : Logged Event Error β).events = _
    cases x.result with
    | ok a => exact .inr ⟨a, rfl, rfl⟩
    | error e => exact .inl rfl
  rcases hbind with heq | ⟨a, ha, heq⟩
  · refine ⟨by rw [heq]; exact hx.allowed, ?_⟩
    rw [heq]
    exact Nat.le_trans hx.count (Nat.le_add_right m n)
  · have hrest := hnext a ha
    refine ⟨fun event h => ?_, ?_⟩
    · rw [heq] at h
      exact (List.mem_append.mp h).elim (hx.allowed event) (hrest.allowed event)
    · rw [heq, List.countP_append]
      exact Nat.add_le_add hx.count hrest.count

/-- A first part without events of the kind. -/
theorem bind_free {next : α → Logged Event Error β} (hx : Within allowed kind 0 x)
    (hnext : ∀ a, x.result = .ok a → Within allowed kind n (next a)) :
    Within allowed kind n (x >>= next) :=
  (bind hx hnext).mono (Nat.le_of_eq (Nat.zero_add n))

theorem ite {p : Prop} [Decidable p] {y : Logged Event Error α}
    (hx : p → Within allowed kind n x) (hy : ¬ p → Within allowed kind n y) :
    Within allowed kind n (if p then x else y) := by
  split
  · next h => exact hx h
  · next h => exact hy h

end Within

end Logged
