/-
  EchOS.Lib.CArray

  Arrays as C code uses them: an access outside the array has no result.  What
  sequential writes from the start leave is `overlay`, the data written followed
  by the rest of the array.
-/
import Mathlib.Data.List.Basic

namespace CArray

/-- Why code over arrays has no result: an access outside an array, an argument of
    another type than the one asked for, or a loop that outlives its step bound. -/
inductive Fault where
  | outOfBounds
  | badArgument
  | outOfFuel
  deriving Repr, DecidableEq

variable {α : Type}

/-- `a[i]` -/
def read (a : List α) (i : Nat) : Except Fault α :=
  match a[i]? with
  | some x => .ok x
  | none => .error .outOfBounds

/-- `a[i] = x` -/
def write (a : List α) (i : Nat) (x : α) : Except Fault (List α) :=
  if i < a.length then .ok (a.set i x) else .error .outOfBounds

/-- The array `a` after `data` was stored at its start. -/
def overlay (a data : List α) : List α := data ++ a.drop data.length

theorem overlay_nil (a : List α) : overlay a [] = a := rfl

theorem length_overlay {a data : List α} (h : data.length ≤ a.length) :
    (overlay a data).length = a.length := by
  simp only [overlay, List.length_append, List.length_drop]
  omega

/-- Rewriting the start of what was stored. -/
theorem overlay_append {a data data' tail : List α} (h : data'.length = data.length) :
    overlay (overlay a (data ++ tail)) data' = overlay a (data' ++ tail) := by
  unfold overlay
  rw [h, List.append_assoc, List.drop_left, List.append_assoc, List.length_append,
    List.length_append, h]

theorem read_of_drop {a rest : List α} {i : Nat} {x : α} (h : a.drop i = x :: rest) :
    read a i = .ok x := by
  have hx : a[i]? = some x := by
    rw [← List.head?_drop, h, List.head?_cons]
  rw [read, hx]

theorem drop_succ_of_drop {a rest : List α} {i : Nat} {x : α} (h : a.drop i = x :: rest) :
    a.drop (i + 1) = rest := by
  rw [← List.drop_drop, h, List.drop_one, List.tail_cons]

/-- The next element of a sequential fill. -/
theorem write_overlay {a data : List α} (h : data.length < a.length) (x : α) :
    write (overlay a data) data.length x = .ok (overlay a (data ++ [x])) := by
  rw [write, if_pos (by rw [length_overlay (Nat.le_of_lt h)]; exact h)]
  congr 1
  unfold overlay
  rw [List.set_append_right _ _ (Nat.le_refl _), Nat.sub_self, List.drop_eq_getElem_cons h,
    List.set_cons_zero, List.length_append, List.length_singleton, List.append_assoc,
    List.singleton_append]

end CArray
