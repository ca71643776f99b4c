/-
  EchOS.CLib.Memory

  `memset` and `memcpy` of `lib/string` on memory.

  `memcpy` copies forward, a byte at a time.  If the destination starts inside the
  source it reads what it has written, and the destination is filled with the
  bytes between the two pointers, over and over.
-/
import EchOS.Basic
import EchOS.Lib.FlatMemory

namespace EchOS

open FlatMemory

namespace Flat

/-- The loop of `memset`, with `left` bytes to go. -/
def memset.loop (s : Word) (c : Byte) : (left counter : Nat) → Memory 64 → Memory 64
  | 0, _, mem => mem
  | left + 1, counter, mem =>
      memset.loop s c left (counter + 1) (Function.update mem (s + BitVec.ofNat 64 counter) c)

/-- `memset` -/
def memset (mem : Memory 64) (s : Word) (c : BitVec 32) (n : Word) : Memory 64 :=
  memset.loop s (c.setWidth 8) n.toNat 0 mem

/-- The loop of `memcpy`, with `left` bytes to go. -/
def memcpy.loop (dest src : Word) : (left counter : Nat) → Memory 64 → Memory 64
  | 0, _, mem => mem
  | left + 1, counter, mem =>
      memcpy.loop dest src left (counter + 1)
        (Function.update mem (dest + BitVec.ofNat 64 counter) (mem (src + BitVec.ofNat 64 counter)))

/-- `memcpy` -/
def memcpy (mem : Memory 64) (dest src : Word) (length : Word) : Memory 64 :=
  if dest = src then mem else memcpy.loop dest src length.toNat 0 mem

end Flat

/-! ## What they write -/

theorem add_ofNat_eq_iff {a x : Word} {j : Nat} (hj : j < 2 ^ 64) :
    x = a + BitVec.ofNat 64 j ↔ offset a x = j := by
  constructor
  · rintro rfl
    exact offset_add hj
  · rintro rfl
    exact (add_offset a x).symm

theorem memset_loop (s : Word) (c : Byte) {left counter : Nat} (h : counter + left ≤ 2 ^ 64)
    (mem : Memory 64) (x : Word) :
    Flat.memset.loop s c left counter mem x
      = if counter ≤ offset s x ∧ offset s x < counter + left then c else mem x := by
  induction left generalizing counter mem with
  | zero => rw [Flat.memset.loop, if_neg (by omega)]
  | succ left ih =>
      rw [Flat.memset.loop, ih (by omega), Function.update_apply]
      have heq := add_ofNat_eq_iff (a := s) (x := x) (j := counter) (by omega)
      by_cases hx : offset s x = counter
      · rw [if_neg (by omega), if_pos (heq.mpr hx), if_pos (by omega)]
      · rw [if_neg fun h => hx (heq.mp h)]
        exact if_congr (by omega) rfl rfl

/-- `memset` fills the `n` bytes. -/
theorem memset_eq (mem : Memory 64) (s : Word) (c : BitVec 32) (n : Word) :
    Flat.memset mem s c n = fill mem s n.toNat (c.setWidth 8) := by
  funext x
  have hn := n.isLt
  rw [Flat.memset, memset_loop s _ (by omega), fill]
  exact if_congr (by omega) rfl rfl

/-- Where byte `j` of the source lies, counted from the destination. -/
theorem offset_source (dest src : Word) {j : Nat} (hj : j < 2 ^ 64) :
    offset dest (src + BitVec.ofNat 64 j)
      = if offset src dest ≤ j then j - offset src dest else 2 ^ 64 + j - offset src dest := by
  have hd : offset src dest < 2 ^ 64 := (dest - src).isLt
  have hsub : src + BitVec.ofNat 64 j - dest = BitVec.ofNat 64 j - (dest - src) := by
    bv_omega
  have hval : offset dest (src + BitVec.ofNat 64 j) = (2 ^ 64 - offset src dest + j) % 2 ^ 64 := by
    rw [offset, hsub, BitVec.toNat_sub, toNat_ofNat_of_lt hj]
    rfl
  rw [hval]
  split
  · omega
  · omega

/-- The destination after `counter` turns: the first `offset src dest` bytes of the
    source, over and over. -/
def copied (mem : Memory 64) (dest src : Word) (counter : Nat) : Memory 64 := fun x =>
  if offset dest x < counter then mem (src + BitVec.ofNat 64 (offset dest x % offset src dest))
  else mem x

/-- The byte that a turn reads is one it has written, if the destination has begun. -/
theorem copied_source {dest src : Word} (hne : dest ≠ src) (mem : Memory 64) {counter : Nat}
    (hc : counter < 2 ^ 64) :
    copied mem dest src counter (src + BitVec.ofNat 64 counter)
      = mem (src + BitVec.ofNat 64 (counter % offset src dest)) := by
  have hd : offset src dest < 2 ^ 64 := (dest - src).isLt
  have hpos : offset src dest ≠ 0 := fun h => by
    have hzero := add_offset src dest
    rw [h, BitVec.add_zero] at hzero
    exact hne hzero.symm
  rw [copied, offset_source dest src hc]
  by_cases hle : offset src dest ≤ counter
  · rw [if_pos hle, if_pos (by omega), ← Nat.mod_eq_sub_mod hle]
  · rw [if_neg hle, if_neg (by omega), Nat.mod_eq_of_lt (Nat.lt_of_not_le hle)]

theorem memcpy_loop_flat {dest src : Word} (hne : dest ≠ src) (mem : Memory 64)
    {left counter : Nat} (h : counter + left ≤ 2 ^ 64) :
    Flat.memcpy.loop dest src left counter (copied mem dest src counter)
      = copied mem dest src (counter + left) := by
  induction left generalizing counter with
  | zero => rfl
  | succ left ih =>
      have hc : counter < 2 ^ 64 := by omega
      rw [Flat.memcpy.loop, copied_source hne mem hc]
      have hstep : Function.update (copied mem dest src counter) (dest + BitVec.ofNat 64 counter)
          (mem (src + BitVec.ofNat 64 (counter % offset src dest)))
          = copied mem dest src (counter + 1) := by
        funext x
        rw [Function.update_apply]
        by_cases hx : offset dest x = counter
        · rw [if_pos ((add_ofNat_eq_iff hc).mpr hx), copied, if_pos (by omega), hx]
        · rw [if_neg fun h => hx ((add_ofNat_eq_iff hc).mp h), copied, copied]
          exact if_congr (by omega) rfl rfl
      rw [hstep, ih (by omega)]
      exact congrArg _ (by omega)

/-- **What `memcpy` writes, overlapping or not.**  Byte `k` of the destination is byte
    `k % d` of the old source, where the destination lies `d` bytes behind the source
    (and byte `k`, if they are the same), and no other byte changes. -/
theorem memcpy_eq (mem : Memory 64) (dest src length x : Word) :
    Flat.memcpy mem dest src length x
      = if offset dest x < length.toNat then
          mem (src + BitVec.ofNat 64 (offset dest x % offset src dest))
        else mem x := by
  rw [Flat.memcpy]
  by_cases heq : dest = src
  · subst heq
    have hzero : offset dest dest = 0 := by rw [offset, BitVec.sub_self]; rfl
    rw [if_pos rfl, hzero, Nat.mod_zero, add_offset, ite_self]
  · rw [if_neg heq]
    have hn := length.isLt
    have hstart : copied mem dest src 0 = mem := funext fun y => if_neg (Nat.not_lt_zero _)
    have hloop : Flat.memcpy.loop dest src length.toNat 0 (copied mem dest src 0)
        = copied mem dest src (0 + length.toNat) := memcpy_loop_flat heq mem (by omega)
    rw [hstart, Nat.zero_add] at hloop
    rw [hloop]
    rfl

/-- **When `memcpy` copies.**  The destination holds the old bytes of the source, whatever
    they are, exactly if it is the source or does not start in the bytes that are read. -/
theorem memcpy_copies_iff (dest src length : Word) :
    (∀ (mem : Memory 64) (k : Nat), k < length.toNat →
      Flat.memcpy mem dest src length (dest + BitVec.ofNat 64 k) = mem (src + BitVec.ofNat 64 k)) ↔
    dest = src ∨ length.toNat ≤ offset src dest := by
  have hn := length.isLt
  have hval : ∀ (mem : Memory 64) (k : Nat), k < length.toNat →
      Flat.memcpy mem dest src length (dest + BitVec.ofNat 64 k)
        = mem (src + BitVec.ofNat 64 (k % offset src dest)) := by
    intro mem k hk
    rw [memcpy_eq, offset_add (by omega), if_pos hk]
  constructor
  · intro h
    by_contra hnot
    rw [not_or, Nat.not_le] at hnot
    obtain ⟨hne, hlt⟩ := hnot
    -- a memory in which the first byte of the source is unlike the one it is copied over
    have hcopy := h (fun x => if x = src then 1#8 else 0#8) (offset src dest) hlt
    rw [hval _ _ hlt, Nat.mod_self, BitVec.add_zero, if_pos rfl, add_offset, if_neg hne] at hcopy
    exact absurd hcopy (by decide)
  · rintro (heq | hle) mem k hk
    · have hzero : offset src dest = 0 := by rw [heq, offset, BitVec.sub_self]; rfl
      rw [hval mem k hk, hzero, Nat.mod_zero]
    · rw [hval mem k hk, Nat.mod_eq_of_lt (Nat.lt_of_lt_of_le hk hle)]

end EchOS
