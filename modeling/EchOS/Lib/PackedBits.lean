/-
  EchOS.Lib.PackedBits

  Bit arrays packed into words of any width.  Bit `n` of the array that starts
  at word `base` is bit `n % w` of word `base + n / w`; several arrays may share
  one storage when their word ranges are disjoint.

  `get` reads a bit, `set` and `reset` write one, `setRange` writes a run, and
  `zeros` counts the clear bits of a prefix.  The `get_*` lemmas say what every
  write does to every bit, the `zeros_*` lemmas what it does to the count.
-/
import Mathlib.Data.Nat.Count
import Mathlib.Logic.Function.Basic

namespace PackedBits

variable {w : Nat}

/-- Storage: one word per index. -/
abbrev Words (w : Nat) := Nat → BitVec w

/-- Bit `n` of the array at word `base`. -/
def get (m : Words w) (base n : Nat) : Bool :=
  (m (base + n / w)).getLsbD (n % w)

/-- The storage with bit `n` of the array at `base` set. -/
def set (m : Words w) (base n : Nat) : Words w :=
  Function.update m (base + n / w) (m (base + n / w) ||| (1#w <<< (n % w)))

/-- The storage with bit `n` of the array at `base` cleared. -/
def reset (m : Words w) (base n : Nat) : Words w :=
  Function.update m (base + n / w) (m (base + n / w) &&& ~~~(1#w <<< (n % w)))

/-- The storage with the bits `[start, start + count)` set, lowest first. -/
def setRange (m : Words w) (base start : Nat) : Nat → Words w
  | 0 => m
  | count + 1 => set (setRange m base start count) base (start + count)

/-- Number of clear bits among the first `n`. -/
def zeros (m : Words w) (base n : Nat) : Nat :=
  Nat.count (fun i => get m base i = false) n

/-- `m'` differs from `m` in the words `[base, base + len)` at most. -/
def AgreeOff (m m' : Words w) (base len : Nat) : Prop :=
  ∀ i, ¬ (base ≤ i ∧ i < base + len) → m' i = m i

/-! ## Single bits of a word -/

theorem getLsbD_one_shift {k i : Nat} (hi : i < w) :
    (1#w <<< k).getLsbD i = decide (i = k) := by
  rw [BitVec.getLsbD_shiftLeft, BitVec.getLsbD_one]
  by_cases h : i = k
  · subst h
    simp [hi, Nat.lt_of_le_of_lt (Nat.zero_le i) hi]
  · by_cases hlt : i < k
    · simp [hlt, h]
    · have : ¬ i - k = 0 := by omega
      simp [this, h]

theorem div_mod_inj {a b : Nat} (hd : a / w = b / w) (hm : a % w = b % w) : a = b := by
  rw [← Nat.div_add_mod a w, ← Nat.div_add_mod b w, hd, hm]

/-! ## Reading after a write -/

/-- A write to a word that does not hold bit `k` leaves bit `k` alone. -/
theorem get_congr {m m' : Words w} {base k : Nat} (h : m' (base + k / w) = m (base + k / w)) :
    get m' base k = get m base k := by
  unfold get
  rw [h]

theorem get_set (hw : 0 < w) (m : Words w) (base n k : Nat) :
    get (set m base n) base k = (decide (k = n) || get m base k) := by
  unfold get set
  by_cases hd : k / w = n / w
  · rw [hd, Function.update_self, BitVec.getLsbD_or, getLsbD_one_shift (Nat.mod_lt _ hw)]
    by_cases hk : k = n
    · subst hk
      simp
    · have hm : k % w ≠ n % w := fun hm => hk (div_mod_inj hd hm)
      simp [hm, hk]
  · have hne : base + k / w ≠ base + n / w := by omega
    have hk : k ≠ n := fun h => hd (by rw [h])
    rw [Function.update_of_ne hne]
    simp [hk]

theorem get_reset (hw : 0 < w) (m : Words w) (base n k : Nat) :
    get (reset m base n) base k = (!decide (k = n) && get m base k) := by
  unfold get reset
  by_cases hd : k / w = n / w
  · have hlt : k % w < w := Nat.mod_lt _ hw
    rw [hd, Function.update_self, BitVec.getLsbD_and, BitVec.getLsbD_not,
      getLsbD_one_shift hlt]
    by_cases hk : k = n
    · subst hk
      simp
    · have hm : k % w ≠ n % w := fun hm => hk (div_mod_inj hd hm)
      simp [hm, hk, hlt]
  · have hne : base + k / w ≠ base + n / w := by omega
    have hk : k ≠ n := fun h => hd (by rw [h])
    rw [Function.update_of_ne hne]
    simp [hk]

theorem get_setRange (hw : 0 < w) (m : Words w) (base start count k : Nat) :
    get (setRange m base start count) base k
      = (decide (start ≤ k ∧ k < start + count) || get m base k) := by
  induction count with
  | zero =>
      have hout : ¬ (start ≤ k ∧ k < start + 0) := by omega
      rw [setRange, decide_eq_false hout, Bool.false_or]
  | succ count ih =>
      -- the bit set last extends the range by one
      rw [setRange, get_set hw, ih, ← Bool.or_assoc]
      congr 1
      rw [← Bool.decide_or]
      congr 1
      apply propext
      omega

/-- A run set from its lowest bit up. -/
theorem setRange_succ' (m : Words w) (base start count : Nat) :
    setRange m base start (count + 1) = setRange (set m base start) base (start + 1) count := by
  induction count with
  | zero => rfl
  | succ count ih =>
      rw [setRange, ih, setRange, show start + (count + 1) = start + 1 + count by omega]

/-! ## One numbering of all bits

Bit `n` of the array at word `base` is bit `w * base + n` of the storage. -/

theorem get_eq_get_zero (hw : 0 < w) (m : Words w) (base n : Nat) :
    get m base n = get m 0 (w * base + n) := by
  simp only [get, Nat.mul_add_div hw, Nat.mul_add_mod, Nat.zero_add]

theorem set_eq_set_zero (hw : 0 < w) (m : Words w) (base n : Nat) :
    set m base n = set m 0 (w * base + n) := by
  simp only [set, Nat.mul_add_div hw, Nat.mul_add_mod, Nat.zero_add]

theorem reset_eq_reset_zero (hw : 0 < w) (m : Words w) (base n : Nat) :
    reset m base n = reset m 0 (w * base + n) := by
  simp only [reset, Nat.mul_add_div hw, Nat.mul_add_mod, Nat.zero_add]

theorem setRange_eq_setRange_zero (hw : 0 < w) (m : Words w) (base start count : Nat) :
    setRange m base start count = setRange m 0 (w * base + start) count := by
  induction count with
  | zero => rfl
  | succ count ih => rw [setRange, setRange, ih, set_eq_set_zero hw, Nat.add_assoc]

/-- Storage is its bits. -/
theorem ext_get {m m' : Words w} (h : ∀ k, get m 0 k = get m' 0 k) : m = m' := by
  funext i
  apply BitVec.eq_of_getLsbD_eq
  intro j hj
  have hw : 0 < w := Nat.lt_of_le_of_lt (Nat.zero_le j) hj
  -- bit `j` of word `i`, in the one numbering
  have hbit := h (w * i + j)
  unfold get at hbit
  rwa [Nat.mul_add_div hw, Nat.div_eq_of_lt hj, Nat.mul_add_mod, Nat.mod_eq_of_lt hj,
    Nat.zero_add, Nat.add_zero] at hbit

/-! ## Writes stay inside their array -/

theorem agreeOff_refl (m : Words w) (base len : Nat) : AgreeOff m m base len :=
  fun _ _ => rfl

theorem AgreeOff.trans {m m' m'' : Words w} {base len : Nat}
    (h : AgreeOff m m' base len) (h' : AgreeOff m' m'' base len) :
    AgreeOff m m'' base len :=
  fun i hi => (h' i hi).trans (h i hi)

theorem agreeOff_update {m : Words w} {base len entry : Nat} (x : BitVec w) (h : entry < len) :
    AgreeOff m (Function.update m (base + entry) x) base len := by
  intro i hi
  exact Function.update_of_ne (by omega) _ _

theorem agreeOff_set {m : Words w} {base len n : Nat} (h : n / w < len) :
    AgreeOff m (set m base n) base len :=
  agreeOff_update _ h

theorem agreeOff_reset {m : Words w} {base len n : Nat} (h : n / w < len) :
    AgreeOff m (reset m base n) base len :=
  agreeOff_update _ h

theorem agreeOff_setRange {m : Words w} {base len start count : Nat}
    (h : ∀ n, n < start + count → n / w < len) :
    AgreeOff m (setRange m base start count) base len := by
  induction count with
  | zero => exact agreeOff_refl _ _ _
  | succ count ih =>
      exact (ih fun n hn => h n (by omega)).trans (agreeOff_set (h _ (by omega)))

/-- Bits of an array whose words lie outside the written range are unchanged. -/
theorem AgreeOff.get_eq {m m' : Words w} {base len base' k : Nat}
    (h : AgreeOff m m' base len) (hk : ¬ (base ≤ base' + k / w ∧ base' + k / w < base + len)) :
    get m' base' k = get m base' k :=
  get_congr (h _ hk)

/-! ## Counting clear bits -/

theorem zeros_le (m : Words w) (base n : Nat) : zeros m base n ≤ n :=
  Nat.count_le _

theorem zeros_congr {m m' : Words w} {base n : Nat}
    (h : ∀ i, i < n → get m' base i = get m base i) : zeros m' base n = zeros m base n := by
  unfold zeros
  induction n with
  | zero => simp
  | succ n ih =>
      rw [Nat.count_succ, Nat.count_succ, ih fun i hi => h i (by omega), h n (by omega)]

theorem zeros_eq_zero_iff {m : Words w} {base n : Nat} :
    zeros m base n = 0 ↔ ∀ i, i < n → get m base i = true := by
  unfold zeros
  rw [Nat.count_iff_forall_not]
  simp

theorem zeros_eq_self_iff {m : Words w} {base n : Nat} :
    zeros m base n = n ↔ ∀ i, i < n → get m base i = false :=
  Nat.count_iff_forall

/-- Setting a clear bit below `n` takes one off the count. -/
theorem zeros_set (hw : 0 < w) {m : Words w} {base n k : Nat} (hk : k < n)
    (h : get m base k = false) : zeros (set m base k) base n + 1 = zeros m base n := by
  induction n with
  | zero => omega
  | succ n ih =>
      unfold zeros at ih ⊢
      rw [Nat.count_succ, Nat.count_succ, get_set hw]
      -- bit `n` is counted last: it is another bit, or the one that was set
      rcases Nat.lt_or_ge k n with hlt | hge
      · have hne : ¬ n = k := by omega
        have := ih hlt
        simp only [hne, decide_false, Bool.false_or]
        omega
      · have hkn : n = k := by omega
        subst hkn
        have hsame : zeros (set m base n) base n = zeros m base n := by
          apply zeros_congr
          intro i hi
          have hne : ¬ i = n := by omega
          rw [get_set hw]
          simp [hne]
        unfold zeros at hsame
        simp [hsame, h]

/-- Clearing a set bit below `n` adds one to the count. -/
theorem zeros_reset (hw : 0 < w) {m : Words w} {base n k : Nat} (hk : k < n)
    (h : get m base k = true) : zeros (reset m base k) base n = zeros m base n + 1 := by
  have hclear : get (reset m base k) base k = false := by simp [get_reset hw]
  -- setting the bit again restores every bit that is counted
  have hset := zeros_set hw hk hclear
  rw [← hset]
  congr 1
  apply zeros_congr
  intro i _
  rw [get_set hw, get_reset hw]
  by_cases hik : i = k
  · subst hik
    simp [h]
  · simp [hik]

/-- Setting a run of `count` clear bits below `n` takes `count` off the count. -/
theorem zeros_setRange (hw : 0 < w) (m : Words w) (base : Nat) {n start count : Nat}
    (hn : start + count ≤ n)
    (h : ∀ i, start ≤ i → i < start + count → get m base i = false) :
    zeros (setRange m base start count) base n + count = zeros m base n := by
  induction count with
  | zero => rfl
  | succ count ih =>
      have hprev := ih (by omega) fun i h1 h2 => h i h1 (by omega)
      have hbit : get (setRange m base start count) base (start + count) = false := by
        rw [get_setRange hw, h _ (by omega) (by omega)]
        simp
      have hlast := zeros_set hw (n := n) (by omega) hbit
      rw [setRange]
      omega

end PackedBits
