/-
  EchOS.Lib.PointerTree

  Trees of nodes stored in a memory: a node is an address, its slots are read
  with an index, and a slot's contents may point to a child.  How a slot is read
  as a pointer may depend on the depth of the node that holds it.

  A path lists the indices taken from the root, the last one first, so that a
  path extends its tail.  `node` follows a path to an address, `slot` reads the
  contents a path ends in.  `Separate` says that no two paths meet, which is what
  makes a write to one slot invisible to every other path.

  `node_write`/`slot_write` describe a write that keeps the pointer in its slot,
  `node_link`/`slot_link` one that hangs a fresh empty node into an empty slot;
  both keep `Separate`.

  A slot may also hold a leaf instead of a pointer; `leafAt` reads the leaf a path
  ends in.  Neither hanging a node nor rewriting a pointer changes a leaf.
-/
import Mathlib.Logic.Function.Basic

namespace PointerTree

variable {Addr Idx Entry : Type}

/-- A memory of nodes. -/
abbrev Store (Addr Idx Entry : Type) := Addr → Idx → Entry

/-- Write one slot. -/
def write [DecidableEq Addr] [DecidableEq Idx] (st : Store Addr Idx Entry) (a : Addr) (i : Idx) (e : Entry) :
    Store Addr Idx Entry :=
  fun b j => if b = a ∧ j = i then e else st b j

/-- Fill every slot of a node. -/
def fill [DecidableEq Addr] (st : Store Addr Idx Entry) (a : Addr) (e : Entry) : Store Addr Idx Entry :=
  fun b j => if b = a then e else st b j

variable (next : Nat → Entry → Option Addr)

/-- The node at the end of a path. -/
def node (st : Store Addr Idx Entry) (root : Addr) : List Idx → Option Addr
  | [] => some root
  | i :: p => (node st root p).bind fun a => next p.length (st a i)

/-- The contents of the slot at the end of a path. -/
def slot (st : Store Addr Idx Entry) (root : Addr) : List Idx → Option Entry
  | [] => none
  | i :: p => (node next st root p).map fun a => st a i

/-- No two paths lead to one node. -/
def Separate (st : Store Addr Idx Entry) (root : Addr) : Prop :=
  ∀ p q a, node next st root p = some a → node next st root q = some a → p = q

variable {next} {st : Store Addr Idx Entry} {root : Addr}

theorem node_cons {i : Idx} {p : List Idx} {a : Addr} (h : node next st root p = some a) :
    node next st root (i :: p) = next p.length (st a i) := by
  rw [node, h]
  rfl

theorem slot_cons {i : Idx} {p : List Idx} {a : Addr} (h : node next st root p = some a) :
    slot next st root (i :: p) = some (st a i) := by
  rw [slot, h]
  rfl

theorem node_cons_eq_some {i : Idx} {p : List Idx} {b : Addr}
    (h : node next st root (i :: p) = some b) :
    ∃ a, node next st root p = some a ∧ next p.length (st a i) = some b := by
  rw [node, Option.bind_eq_some_iff] at h
  exact h

/-- A node on a path has its parent on it. -/
theorem node_tail_isSome {i : Idx} {p : List Idx}
    (h : (node next st root (i :: p)).isSome) : (node next st root p).isSome := by
  obtain ⟨b, hb⟩ := Option.isSome_iff_exists.mp h
  obtain ⟨a, ha, _⟩ := node_cons_eq_some hb
  rw [ha]
  rfl

theorem node_eq_slot_bind (i : Idx) (p : List Idx) :
    node next st root (i :: p) = (slot next st root (i :: p)).bind (next p.length) := by
  rw [node, slot]
  cases node next st root p <;> rfl

/-- The leaf at the end of a path. -/
def leafAt {Leaf : Type} (next : Nat → Entry → Option Addr) (leaf : Nat → Entry → Option Leaf)
    (st : Store Addr Idx Entry) (root : Addr) : List Idx → Option Leaf
  | [] => none
  | i :: p => (slot next st root (i :: p)).bind (leaf p.length)

theorem leafAt_cons {Leaf : Type} (leaf : Nat → Entry → Option Leaf) {i : Idx} {p : List Idx}
    {a : Addr} (h : node next st root p = some a) :
    leafAt next leaf st root (i :: p) = leaf p.length (st a i) := by
  rw [leafAt, slot_cons h]
  rfl

/-- A leaf hangs in a slot of a node. -/
theorem leafAt_node_isSome {Leaf : Type} {leaf : Nat → Entry → Option Leaf} {i : Idx}
    {p : List Idx} {x : Leaf} (h : leafAt next leaf st root (i :: p) = some x) :
    ∃ a, node next st root p = some a ∧ leaf p.length (st a i) = some x := by
  rw [leafAt, Option.bind_eq_some_iff] at h
  obtain ⟨e, hslot, hleaf⟩ := h
  rw [slot, Option.map_eq_some_iff] at hslot
  obtain ⟨a, ha, rfl⟩ := hslot
  exact ⟨a, ha, hleaf⟩

/-! ## Memories with the same nodes -/

/-- The tree depends on what its own nodes hold. -/
theorem node_congr {st' : Store Addr Idx Entry}
    (h : ∀ p a, node next st root p = some a → st' a = st a) (q : List Idx) :
    node next st' root q = node next st root q := by
  induction q with
  | nil => rfl
  | cons i q ih =>
      rw [node, node, ih]
      cases hq : node next st root q with
      | none => rfl
      | some a =>
          rw [Option.bind_some, Option.bind_some, h q a hq]

theorem slot_congr {st' : Store Addr Idx Entry}
    (h : ∀ p a, node next st root p = some a → st' a = st a) (q : List Idx) :
    slot next st' root q = slot next st root q := by
  cases q with
  | nil => rfl
  | cons i q =>
      rw [slot, slot, node_congr h]
      cases hq : node next st root q with
      | none => rfl
      | some a => rw [Option.map_some, Option.map_some, h q a hq]

theorem leafAt_congr {Leaf : Type} {st' : Store Addr Idx Entry}
    (h : ∀ p a, node next st root p = some a → st' a = st a) (leaf : Nat → Entry → Option Leaf)
    (q : List Idx) : leafAt next leaf st' root q = leafAt next leaf st root q := by
  cases q with
  | nil => rfl
  | cons i q => rw [leafAt, leafAt, slot_congr h]

/-! ## Writing a slot without moving its pointer -/

section Write

variable [DecidableEq Addr] [DecidableEq Idx] {p : List Idx} {a : Addr} {i : Idx} {e : Entry}
  (hsep : Separate next st root) (hp : node next st root p = some a)
  (hnext : next p.length e = next p.length (st a i))

include hsep hp hnext

theorem node_write (q : List Idx) :
    node next (write st a i e) root q = node next st root q := by
  induction q with
  | nil => rfl
  | cons j q ih =>
      rw [node, node, ih]
      cases hq : node next st root q with
      | none => rfl
      | some b =>
          simp only [Option.bind_some, write]
          split
          · next h =>
              obtain ⟨rfl, rfl⟩ := h
              -- the node written is met on its own path only, so the depth is that of `p`
              rw [hsep q p b hq hp, hnext]
          · rfl

theorem slot_write (q : List Idx) :
    slot next (write st a i e) root q
      = if q = i :: p then some e else slot next st root q := by
  cases q with
  | nil => simp [slot]
  | cons j q =>
      rw [slot, slot, node_write hsep hp hnext]
      cases hq : node next st root q with
      | none =>
          have hne : ¬ (j :: q = i :: p) := by
            rintro h
            cases h
            rw [hp] at hq
            cases hq
          rw [if_neg hne]
          rfl
      | some b =>
          simp only [Option.map_some, write]
          by_cases h : b = a ∧ j = i
          · obtain ⟨rfl, rfl⟩ := h
            rw [if_pos ⟨rfl, rfl⟩, if_pos (by rw [hsep q p b hq hp])]
          · rw [if_neg h, if_neg]
            rintro h'
            cases h'
            rw [hp] at hq
            exact h ⟨(Option.some.inj hq).symm, rfl⟩

theorem leafAt_write {Leaf : Type} (leaf : Nat → Entry → Option Leaf) (q : List Idx) :
    leafAt next leaf (write st a i e) root q
      = if q = i :: p then leaf p.length e else leafAt next leaf st root q := by
  cases q with
  | nil => rw [if_neg (List.cons_ne_nil i p).symm, leafAt, leafAt]
  | cons j q =>
      rw [leafAt, slot_write hsep hp hnext, leafAt]
      split
      · next h =>
          cases h
          rfl
      · rfl

theorem separate_write : Separate next (write st a i e) root := by
  intro q r b hq hr
  rw [node_write hsep hp hnext] at hq hr
  exact hsep q r b hq hr

end Write

/-! ## Hanging a fresh node into an empty slot -/

section Link

variable [DecidableEq Addr] [DecidableEq Idx] {p : List Idx} {a b : Addr} {i : Idx} {e empty : Entry}
  (hsep : Separate next st root) (hp : node next st root p = some a)
  (hfresh : ∀ q, node next st root q ≠ some b)
  (hnone : next p.length (st a i) = none) (hlink : next p.length e = some b)
  (hempty : ∀ d, next d empty = none)

include hsep hp hfresh hnone hlink hempty

omit hnone hlink hempty in
/-- The slots of a node, when the node is known. -/
theorem slot_link_of_node {q : List Idx} (hnode : node next (write (fill st b empty) a i e) root q
      = if q = i :: p then some b else node next st root q) (j : Idx) :
    slot next (write (fill st b empty) a i e) root (j :: q)
      = if j :: q = i :: p then some e
        else if q = i :: p then some empty else slot next st root (j :: q) := by
  have hab : a ≠ b := fun h => hfresh p (h ▸ hp)
  rw [slot, hnode]
  by_cases hq : q = i :: p
  · -- in the fresh node all slots are empty
    subst hq
    have hne : ¬ (j :: i :: p = i :: p) := fun h => by
      simpa using congrArg List.length h
    have hba : ¬ (b = a ∧ j = i) := fun h => hab h.1.symm
    rw [if_pos rfl, if_neg hne, if_pos rfl]
    simp only [Option.map_some, write, fill, if_neg hba, if_pos]
  · rw [if_neg hq, if_neg hq, slot]
    cases hqa : node next st root q with
    | none =>
        have hne : ¬ (j :: q = i :: p) := by
          rintro h
          cases h
          rw [hp] at hqa
          cases hqa
        rw [if_neg hne]
        rfl
    | some c =>
        -- in an old node only the slot that was written is new
        have hcb : c ≠ b := fun h => hfresh q (h ▸ hqa)
        simp only [Option.map_some, write, fill, if_neg hcb]
        by_cases h : c = a ∧ j = i
        · obtain ⟨rfl, rfl⟩ := h
          have hqp := hsep q p c hqa hp
          subst hqp
          rw [if_pos ⟨rfl, rfl⟩, if_pos rfl]
        · rw [if_neg h, if_neg]
          rintro h'
          cases h'
          rw [hp] at hqa
          exact h ⟨(Option.some.inj hqa).symm, rfl⟩

theorem node_link (q : List Idx) :
    node next (write (fill st b empty) a i e) root q
      = if q = i :: p then some b else node next st root q := by
  induction q with
  | nil => rfl
  | cons j q ih =>
      rw [node_eq_slot_bind, slot_link_of_node hsep hp hfresh ih]
      by_cases hj : j :: q = i :: p
      · cases hj
        rw [if_pos rfl, if_pos rfl]
        exact hlink
      · rw [if_neg hj, if_neg hj]
        by_cases hq : q = i :: p
        · -- no node hung there before
          rw [if_pos hq, hq, node, node_cons hp, hnone]
          exact hempty _
        · rw [if_neg hq, ← node_eq_slot_bind]

theorem slot_link (q : List Idx) :
    slot next (write (fill st b empty) a i e) root q
      = if q = i :: p then some e
        else if q.tail = i :: p then some empty else slot next st root q := by
  cases q with
  | nil => simp [slot]
  | cons j q =>
      exact slot_link_of_node hsep hp hfresh (node_link hsep hp hfresh hnone hlink hempty q) j

theorem leafAt_link {Leaf : Type} (leaf : Nat → Entry → Option Leaf)
    (hold : leaf p.length (st a i) = none) (hnew : leaf p.length e = none)
    (hemptyLeaf : ∀ d, leaf d empty = none) (q : List Idx) :
    leafAt next leaf (write (fill st b empty) a i e) root q = leafAt next leaf st root q := by
  cases q with
  | nil => rw [leafAt, leafAt]
  | cons j q =>
      rw [leafAt, slot_link hsep hp hfresh hnone hlink hempty]
      by_cases hq : j :: q = i :: p
      · cases hq
        rw [if_pos rfl, leafAt_cons leaf hp, hold]
        exact hnew
      · rw [if_neg hq]
        by_cases htail : (j :: q).tail = i :: p
        · -- no node hung there before, so no leaf did
          have hq' : q = i :: p := htail
          rw [if_pos htail, leafAt, slot, hq', node_cons hp, hnone]
          exact hemptyLeaf _
        · rw [if_neg htail, leafAt]

theorem separate_link :
    Separate next (write (fill st b empty) a i e) root := by
  intro q r c hq hr
  rw [node_link hsep hp hfresh hnone hlink hempty] at hq hr
  split at hq <;> split at hr
  · next hq' hr' => rw [hq', hr']
  · cases hq
    -- the fresh node was on no path before
    exact absurd hr (hfresh r)
  · cases hr
    exact absurd hq (hfresh q)
  · exact hsep q r c hq hr

end Link

/-! ## A fresh root -/

section Root

variable [DecidableEq Addr]

theorem node_fill_root {empty : Entry} (hempty : ∀ d, next d empty = none) (q : List Idx) :
    node next (fill st root empty) root q = if q.isEmpty then some root else none := by
  induction q with
  | nil => rfl
  | cons j q ih =>
      rw [node, ih]
      cases q with
      | nil => simp [fill, hempty]
      | cons k q => rfl

theorem separate_fill_root {empty : Entry} (hempty : ∀ d, next d empty = none) :
    Separate next (fill st root empty) root := by
  intro q r c hq hr
  rw [node_fill_root hempty] at hq hr
  cases q with
  | nil =>
      cases r with
      | nil => rfl
      | cons k r => cases hr
  | cons j q => cases hq

end Root

end PointerTree
