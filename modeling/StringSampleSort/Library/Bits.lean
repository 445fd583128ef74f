import Mathlib.Data.Nat.Bitwise
import Mathlib.Data.Nat.Log
import Mathlib.Tactic.Ring

/-!
# Leading and trailing zero bits

Counts of zero bits at both ends of a `w`-bit word given as a natural number, with
the convention that the word zero has `w` of them.

## Main results

- `le_leadingZeros_iff`: `j` leading zeros mean `n < 2 ^ (w - j)`
- `le_trailingZeros_iff`: `j` trailing zeros mean `2 ^ j ∣ n`
- `xor_lt_two_pow_iff`: two words with a small xor agree above it
-/

namespace StringSampleSort.Library

/-! ## Definitions -/

/-- Number of zero bits of a `w`-bit word above its highest one. -/
def leadingZeros (w n : ℕ) : ℕ := if n = 0 then w else w - 1 - n.log2

/-- Number of zero bits of a `w`-bit word below its lowest one. -/
def trailingZeros : ℕ → ℕ → ℕ
  | 0, _ => 0
  | w + 1, n => if n % 2 = 1 then 0 else trailingZeros w (n / 2) + 1

/-! ## Characterizations -/

theorem leadingZeros_le (w n : ℕ) : leadingZeros w n ≤ w := by
  unfold leadingZeros
  split <;> omega

theorem le_leadingZeros_iff {w n j : ℕ} (hn : n < 2 ^ w) (hj : j ≤ w) :
    j ≤ leadingZeros w n ↔ n < 2 ^ (w - j) := by
  unfold leadingZeros
  split
  · next h => simp [h, hj]
  · next h =>
    have hw : n.log2 < w := (Nat.log2_lt h).mpr hn
    rw [← Nat.log2_lt h]
    omega

/-- The upper bits of a word have its leading zeros, unless they are all zero. -/
theorem leadingZeros_div {w k n : ℕ} (hn : n < 2 ^ (w + k)) (h : n / 2 ^ k ≠ 0) :
    leadingZeros w (n / 2 ^ k) = leadingZeros (w + k) n := by
  have hpos := Nat.two_pow_pos k
  have hdiv : n / 2 ^ k < 2 ^ w := by
    rw [Nat.div_lt_iff_lt_mul hpos, ← pow_add]
    exact hn
  refine eq_of_forall_le_iff fun j => ?_
  rcases Nat.lt_or_ge w j with hj | hj
  · refine iff_of_false ?_ fun hle => ?_
    · have := leadingZeros_le w (n / 2 ^ k)
      omega
    · -- so many zeros would leave nothing of the upper bits
      have hle' : w ≤ leadingZeros (w + k) n := hj.le.trans hle
      rw [le_leadingZeros_iff hn (Nat.le_add_right ..), Nat.add_sub_cancel_left] at hle'
      exact h (Nat.div_eq_of_lt hle')
  · rw [le_leadingZeros_iff hdiv hj, le_leadingZeros_iff hn (by omega),
      Nat.div_lt_iff_lt_mul hpos, ← pow_add, show w - j + k = w + k - j by omega]

theorem trailingZeros_le (w n : ℕ) : trailingZeros w n ≤ w := by
  induction w generalizing n with
  | zero => exact le_refl _
  | succ w ih =>
    rw [trailingZeros]
    split
    · exact Nat.zero_le _
    · exact Nat.succ_le_succ (ih _)

theorem le_trailingZeros_iff {w n j : ℕ} (hj : j ≤ w) :
    j ≤ trailingZeros w n ↔ 2 ^ j ∣ n := by
  induction w generalizing n j with
  | zero => simp [show j = 0 by omega]
  | succ w ih =>
    cases j with
    | zero => simp
    | succ j =>
      rw [trailingZeros]
      split
      · next hodd =>
        refine iff_of_false (by omega) fun hdvd => ?_
        have : 2 ∣ n := Dvd.dvd.trans ⟨2 ^ j, by ring⟩ hdvd
        omega
      · next heven =>
        have hn : n = 2 * (n / 2) := by omega
        rw [Nat.succ_le_succ_iff, ih (by omega), pow_succ, mul_comm]
        conv_rhs => rw [hn]
        exact (Nat.mul_dvd_mul_iff_left (by omega)).symm

/-- The exact number of trailing zeros of an odd multiple of a power of two. -/
theorem trailingZeros_mul_two_pow {w m j : ℕ} (hodd : m % 2 = 1) (hj : j < w) :
    trailingZeros w (m * 2 ^ j) = j := by
  refine le_antisymm ?_ ((le_trailingZeros_iff hj.le).mpr (Dvd.intro_left m rfl))
  by_contra hlt
  have hdvd := (le_trailingZeros_iff (w := w) (n := m * 2 ^ j) (j := j + 1) (by omega)).mp
    (by omega)
  rw [pow_succ, mul_comm m] at hdvd
  have := Nat.dvd_of_mul_dvd_mul_left (Nat.two_pow_pos j) hdvd
  omega

/-! ## Exclusive or -/

/-- The xor of two words is below `2 ^ k` when they agree from bit `k` on. -/
theorem xor_lt_two_pow_iff (a b k : ℕ) : a ^^^ b < 2 ^ k ↔ a / 2 ^ k = b / 2 ^ k := by
  rw [← Nat.shiftRight_eq_div_pow, ← Nat.shiftRight_eq_div_pow, ← Nat.xor_eq_zero_iff,
    ← Nat.shiftRight_xor_distrib, Nat.shiftRight_eq_div_pow, Nat.div_eq_zero_iff]
  have := Nat.two_pow_pos k
  omega

/-- Disjunction with a word whose bits above `k` are all set keeps these bits. -/
theorem shiftLeft_or_ones {a k m : ℕ} (ha : a < 2 ^ m) :
    a * 2 ^ k ||| (2 ^ m - 1) * 2 ^ k = (2 ^ m - 1) * 2 ^ k := by
  have hor : a ||| (2 ^ m - 1) = 2 ^ m - 1 := by
    apply Nat.eq_of_testBit_eq
    intro i
    rw [Nat.testBit_or, Nat.testBit_two_pow_sub_one]
    by_cases hi : i < m
    · simp [hi]
    · have : a < 2 ^ i := lt_of_lt_of_le ha (Nat.pow_le_pow_right (by omega) (by omega))
      simp [hi, Nat.testBit_lt_two_pow this]
  rw [← Nat.shiftLeft_eq, ← Nat.shiftLeft_eq, ← Nat.shiftLeft_or_distrib, hor]

/-- Disjunction of disjoint bit ranges is addition. -/
theorem mul_two_pow_or {a b k : ℕ} (hb : b < 2 ^ k) : a * 2 ^ k ||| b = a * 2 ^ k + b := by
  rw [← Nat.shiftLeft_eq, Nat.shiftLeft_add_eq_or_of_lt hb]

end StringSampleSort.Library
