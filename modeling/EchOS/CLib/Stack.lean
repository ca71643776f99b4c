/-
  EchOS.CLib.Stack

  `stack64_push` and `stack64_pop` of `lib/stack.c`, on memory.

  Neither looks at `size`: a run of calls is a run of the stack as a list as long as it
  never pops the empty stack, and the bytes it may change reach as far as the stack
  ever grows.
-/
import EchOS.Basic
import EchOS.Lib.FlatMemory

namespace EchOS

open FlatMemory

/-! ## The code -/

/-- `stack64_t` -/
structure Stack64 where
  stack : Word
  size : Word
  sp : Word
  deriving Repr, DecidableEq

/-- `&stack[i]` -/
def Stack64.cell (s : Stack64) (i : Word) : Word := s.stack + 8#64 * i

/-- `stack64_push` -/
def stack64Push (mem : Memory 64) (s : Stack64) (value : Word) : Memory 64 × Stack64 :=
  (store mem (s.cell s.sp) value, { s with sp := s.sp + 1#64 })

/-- `stack64_pop` -/
def stack64Pop (mem : Memory 64) (s : Stack64) : Word × Stack64 :=
  let s := { s with sp := s.sp - 1#64 }
  (load 64 mem (s.cell s.sp), s)

inductive StackCall where
  | push (value : Word)
  | pop
  deriving Repr, DecidableEq

/-- Calls one after the other: what the pops return, and what they leave. -/
def Stack64.run : List StackCall → Memory 64 → Stack64 → List Word × Memory 64 × Stack64
  | [], mem, s => ([], mem, s)
  | .push value :: calls, mem, s =>
      Stack64.run calls (stack64Push mem s value).1 (stack64Push mem s value).2
  | .pop :: calls, mem, s =>
      let rest := Stack64.run calls mem (stack64Pop mem s).2
      ((stack64Pop mem s).1 :: rest.1, rest.2)

/-! ## The stack as a list -/

/-- What the calls do to a list with the top first; none if they pop the empty list. -/
def StackCall.runList : List StackCall → List Word → Option (List Word × List Word)
  | [], values => some ([], values)
  | .push value :: calls, values => StackCall.runList calls (value :: values)
  | .pop :: _, [] => none
  | .pop :: calls, value :: values =>
      (StackCall.runList calls values).map fun rest => (value :: rest.1, rest.2)

/-- The greatest depth on the way, from depth `n`. -/
def StackCall.deepest : List StackCall → Nat → Nat
  | [], n => n
  | .push _ :: calls, n => StackCall.deepest calls (n + 1)
  | .pop :: calls, n => max n (StackCall.deepest calls (n - 1))

theorem StackCall.le_deepest (calls : List StackCall) (n : Nat) : n ≤ deepest calls n := by
  induction calls generalizing n with
  | nil => exact Nat.le_refl n
  | cons call calls ih =>
      cases call with
      | push value => exact Nat.le_of_succ_le (ih (n + 1))
      | pop => exact Nat.le_max_left _ _

/-- The stack holds the values, the last one at the bottom. -/
structure Stack64.Shows (mem : Memory 64) (s : Stack64) (values : List Word) : Prop where
  sp_eq : s.sp.toNat = values.length
  cells : ∀ below value above, values = above ++ value :: below →
    load 64 mem (s.stack + BitVec.ofNat 64 (8 * below.length)) = value

namespace Stack64

variable {mem : Memory 64} {s : Stack64} {values : List Word}

/-- Cell `sp` lies behind the values. -/
theorem cell_sp (h : s.sp.toNat = values.length) :
    s.cell s.sp = s.stack + BitVec.ofNat 64 (8 * values.length) := by
  have hsp : s.sp = BitVec.ofNat 64 values.length := by
    rw [← h, BitVec.ofNat_toNat, BitVec.setWidth_eq]
  rw [cell, hsp, BitVec.ofNat_mul]

theorem Shows.push (h : s.Shows mem values) (hroom : values.length + 1 ≤ 2 ^ 61) (value : Word) :
    Shows (stack64Push mem s value).1 (stack64Push mem s value).2 (value :: values) ∧
    Set.EqOn (stack64Push mem s value).1 mem (span s.stack (8 * (values.length + 1)))ᶜ := by
  have hcell := cell_sp h.sp_eq
  refine ⟨⟨?_, fun below x above heq => ?_⟩, fun a ha => ?_⟩
  · show (s.sp + 1#64).toNat = _
    rw [BitVec.toNat_add, h.sp_eq, List.length_cons]
    exact Nat.mod_eq_of_lt (by simp; omega)
  · show load 64 (store mem (s.cell s.sp) value) (s.stack + _) = x
    rw [hcell]
    cases above with
    | nil =>
        cases heq
        exact load_store_same mem _ value (by decide) (by decide)
    | cons top above =>
        -- a cell further down is not written
        have heq : values = above ++ x :: below := (List.cons.inj heq).2
        have hlength := congrArg List.length heq
        rw [List.length_append, List.length_cons] at hlength
        rw [load_store_of_disjoint mem _ value (by decide) (by decide)
          (span_add_disjoint (by omega) (by omega)).symm]
        exact h.cells below x above heq
  · refine store_eqOn mem (s.cell s.sp) value fun hmem => ha ?_
    rw [hcell] at hmem
    exact span_add_subset (by omega) (by omega) hmem

theorem Shows.pop {value : Word} (h : s.Shows mem (value :: values)) (hroom : values.length < 2 ^ 61) :
    (stack64Pop mem s).1 = value ∧ (stack64Pop mem s).2.Shows mem values := by
  have hsp : (s.sp - 1#64).toNat = values.length := by
    have hlength := h.sp_eq
    rw [List.length_cons] at hlength
    bv_omega
  have hcell : (stack64Pop mem s).2.cell (stack64Pop mem s).2.sp
      = s.stack + BitVec.ofNat 64 (8 * values.length) := cell_sp hsp
  refine ⟨?_, hsp, fun below x above heq => ?_⟩
  · show load 64 mem ((stack64Pop mem s).2.cell (stack64Pop mem s).2.sp) = value
    rw [hcell]
    exact h.cells values value [] rfl
  · refine h.cells below x (value :: above) ?_
    rw [heq, List.cons_append]

end Stack64

/-- **The stack is a list.**  In a run of calls that never pops the empty stack, every pop
    returns what was pushed last and not yet popped, whatever `size` says, as long as the
    stack fits into memory.  No byte changes but those of the cells that the stack reaches on
    the way. -/
theorem stack64_refines_list {calls : List StackCall} {mem : Memory 64} {s : Stack64}
    {values out left : List Word} (h : s.Shows mem values)
    (hrun : StackCall.runList calls values = some (out, left))
    (hroom : StackCall.deepest calls values.length ≤ 2 ^ 61) :
    ∃ mem' s', Stack64.run calls mem s = (out, mem', s') ∧ s'.Shows mem' left ∧
      s'.stack = s.stack ∧ s'.size = s.size ∧
      Set.EqOn mem' mem (span s.stack (8 * StackCall.deepest calls values.length))ᶜ := by
  induction calls generalizing mem s values out with
  | nil =>
      cases hrun
      exact ⟨mem, s, rfl, h, rfl, rfl, Set.eqOn_refl _ _⟩
  | cons call calls ih =>
      cases call with
      | push value =>
          have hdepth := StackCall.le_deepest calls (values.length + 1)
          rw [StackCall.deepest] at hroom ⊢
          obtain ⟨hpush, hframe⟩ := h.push (by omega) value
          obtain ⟨mem', s', hcalls, hshows, hstack, hsize, heq⟩ := ih hpush hrun hroom
          refine ⟨mem', s', hcalls, hshows, hstack, hsize, fun a ha => ?_⟩
          rw [heq ha]
          exact hframe fun hmem => ha (Nat.lt_of_lt_of_le hmem (by omega))
      | pop =>
          cases values with
          | nil => cases hrun
          | cons value values =>
              obtain ⟨⟨out, left⟩, hrest, heq⟩ := Option.map_eq_some_iff.mp hrun
              cases heq
              rw [StackCall.deepest, List.length_cons, Nat.add_sub_cancel] at hroom ⊢
              obtain ⟨hvalue, hpop⟩ := h.pop (by omega)
              obtain ⟨mem', s', hcalls, hshows, hstack, hsize, heq⟩ := ih hpop hrest (by omega)
              refine ⟨mem', s', ?_, hshows, hstack, hsize, fun a ha => ?_⟩
              · rw [Stack64.run, hvalue, hcalls]
              · exact heq fun hmem => ha (Nat.lt_of_lt_of_le hmem (by omega))

/-- Three values through a stack that is two cells deep; the third cell stays. -/
theorem stack64_refines_list_three :
    ∃ mem s, Stack64.run [.push 5#64, .push 7#64, .pop, .push 9#64, .pop, .pop] (fun _ => 0xAB#8)
        ⟨0x8000#64, 2#64, 0#64⟩ = ([7#64, 9#64, 5#64], mem, s) ∧
      s.size = 2#64 ∧ mem 0x8010#64 = 0xAB#8 := by
  have hempty : Stack64.Shows (fun _ => 0xAB#8) ⟨0x8000#64, 2#64, 0#64⟩ [] :=
    ⟨rfl, fun below value above heq => absurd heq.symm (List.append_ne_nil_of_right_ne_nil _
      (List.cons_ne_nil _ _))⟩
  have hlist : StackCall.runList [.push 5#64, .push 7#64, .pop, .push 9#64, .pop, .pop] []
      = some ([7#64, 9#64, 5#64], []) := rfl
  obtain ⟨mem, s, hrun, _, _, hsize, heq⟩ := stack64_refines_list hempty hlist (by decide)
  refine ⟨mem, s, hrun, hsize, heq ?_⟩
  simp only [Set.mem_compl_iff, mem_span, StackCall.deepest]
  decide

end EchOS
