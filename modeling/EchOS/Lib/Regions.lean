/-
  EchOS.Lib.Regions

  Consecutive regions carved from one stretch of addresses, and regions inside
  them: what lies inside regions that are apart is apart.
-/
import Mathlib.Data.List.Forall2
import Mathlib.Algebra.GroupWithZero.Nat
import Mathlib.Algebra.BigOperators.Group.List.Basic
import Mathlib.Order.Interval.Finset.Nat

namespace Regions

/-- `size` addresses from `start` on. -/
structure Region where
  start : Nat
  size : Nat
  deriving Repr, DecidableEq

/-- No address belongs to both. -/
def Region.Apart (r s : Region) : Prop :=
  r.start + r.size ≤ s.start ∨ s.start + s.size ≤ r.start

def Region.Within (r s : Region) : Prop :=
  s.start ≤ r.start ∧ r.start + r.size ≤ s.start + s.size

/-- Regions of the given sizes, one after the other. -/
def carve (start : Nat) : List Nat → List Region
  | [] => []
  | size :: sizes => ⟨start, size⟩ :: carve (start + size) sizes

theorem Region.Within.trans {r s t : Region} (hrs : r.Within s) (hst : s.Within t) :
    r.Within t := by
  unfold Region.Within at *
  omega

/-- What lies inside regions that are apart is apart. -/
theorem Region.Apart.within {r s r' s' : Region} (h : r.Apart s) (hr : r'.Within r)
    (hs : s'.Within s) : r'.Apart s' := by
  unfold Region.Apart Region.Within at *
  omega

theorem within_of_mem_carve {start : Nat} {sizes : List Nat} {r : Region}
    (h : r ∈ carve start sizes) : r.Within ⟨start, sizes.sum⟩ := by
  induction sizes generalizing start with
  | nil => cases h
  | cons size sizes ih =>
      rw [List.sum_cons]
      rcases List.mem_cons.mp h with rfl | h
      · exact ⟨Nat.le_refl _, by simp only []; omega⟩
      · obtain ⟨hstart, hend⟩ := ih h
        simp only [] at hstart hend
        exact ⟨by simp only []; omega, by simp only []; omega⟩

theorem carve_apart (start : Nat) (sizes : List Nat) :
    (carve start sizes).Pairwise Region.Apart := by
  induction sizes generalizing start with
  | nil => exact List.Pairwise.nil
  | cons size sizes ih =>
      refine List.pairwise_cons.mpr ⟨fun r hr => ?_, ih (start + size)⟩
      exact .inl (within_of_mem_carve hr).1

/-- Regions that are apart, each split further into regions that are apart. -/
theorem flatten_apart {regions : List Region} {groups : List (List Region)}
    (happart : regions.Pairwise Region.Apart)
    (hgroups : List.Forall₂ (fun r group => (∀ x ∈ group, x.Within r) ∧
      group.Pairwise Region.Apart) regions groups) :
    groups.flatten.Pairwise Region.Apart := by
  induction hgroups with
  | nil => exact List.Pairwise.nil
  | @cons r group regions groups hgroup hrest ih =>
      obtain ⟨hfirst, happart⟩ := List.pairwise_cons.mp happart
      rw [List.flatten_cons, List.pairwise_append]
      refine ⟨hgroup.2, ih happart, fun x hx y hy => ?_⟩
      obtain ⟨group', hgroup', hy⟩ := List.mem_flatten.mp hy
      obtain ⟨i, hi, rfl⟩ := List.getElem_of_mem hgroup'
      have hlen : i < regions.length := hrest.length_eq ▸ hi
      have hwithin := (List.forall₂_iff_get.mp hrest).2 i hlen hi
      exact (hfirst _ (List.getElem_mem hlen)).within (hgroup.1 x hx) (hwithin.1 y hy)

theorem flatten_within {regions : List Region} {groups : List (List Region)} {whole : Region}
    (hwhole : ∀ r ∈ regions, r.Within whole)
    (hgroups : List.Forall₂ (fun r group => (∀ x ∈ group, x.Within r) ∧
      group.Pairwise Region.Apart) regions groups) :
    ∀ x ∈ groups.flatten, x.Within whole := by
  intro x hx
  obtain ⟨group, hgroup, hx⟩ := List.mem_flatten.mp hx
  obtain ⟨i, hi, rfl⟩ := List.getElem_of_mem hgroup
  have hlen : i < regions.length := hgroups.length_eq ▸ hi
  have hwithin := (List.forall₂_iff_get.mp hgroups).2 i hlen hi
  exact (hwithin.1 x hx).trans (hwhole _ (List.getElem_mem hlen))

/-- The addresses of regions that are apart, as a set with as many members. -/
theorem exists_addresses {regions : List Region} (happart : regions.Pairwise Region.Apart) :
    ∃ addresses : Finset Nat, addresses.card = (regions.map Region.size).sum ∧
      ∀ x ∈ addresses, ∃ r ∈ regions, r.start ≤ x ∧ x < r.start + r.size := by
  induction regions with
  | nil => exact ⟨∅, rfl, by simp⟩
  | cons r regions ih =>
      obtain ⟨hfirst, happart⟩ := List.pairwise_cons.mp happart
      obtain ⟨addresses, hcard, hmem⟩ := ih happart
      have hdisjoint : Disjoint (Finset.Ico r.start (r.start + r.size)) addresses := by
        refine Finset.disjoint_left.mpr fun x hx hx' => ?_
        obtain ⟨s, hs, hle, hlt⟩ := hmem x hx'
        have hr := Finset.mem_Ico.mp hx
        have hrs := hfirst s hs
        unfold Region.Apart at hrs
        omega
      refine ⟨Finset.Ico r.start (r.start + r.size) ∪ addresses, ?_, fun x hx => ?_⟩
      · rw [Finset.card_union_of_disjoint hdisjoint, Nat.card_Ico, hcard, List.map_cons,
          List.sum_cons, Nat.add_sub_cancel_left]
      · rcases Finset.mem_union.mp hx with hx | hx
        · exact ⟨r, List.mem_cons_self, Finset.mem_Ico.mp hx⟩
        · obtain ⟨s, hs, hin⟩ := hmem x hx
          exact ⟨s, List.mem_cons_of_mem _ hs, hin⟩

/-- Regions that are apart take up no more than what they lie in. -/
theorem sum_size_le {regions : List Region} {whole : Region}
    (happart : regions.Pairwise Region.Apart) (hwhole : ∀ r ∈ regions, r.Within whole) :
    (regions.map Region.size).sum ≤ whole.size := by
  obtain ⟨addresses, hcard, hmem⟩ := exists_addresses happart
  have hsub : addresses ⊆ Finset.Ico whole.start (whole.start + whole.size) := by
    intro x hx
    obtain ⟨r, hr, hin⟩ := hmem x hx
    have hwithin := hwhole r hr
    unfold Region.Within at hwithin
    exact Finset.mem_Ico.mpr (by omega)
  have hle := Finset.card_le_card hsub
  rwa [hcard, Nat.card_Ico, Nat.add_sub_cancel_left] at hle

end Regions
