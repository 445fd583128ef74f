import StringSampleSort.Library.Bits
import StringSampleSort.Library.PerfectTree
import Mathlib.Data.Nat.Factorization.Basic

/-!
# Level order and in-order of a splitter tree

Model of `TreeCalculations` of `src/tools/stringtools.hpp`.  A tree of `treebits` levels has
the nodes `1` to `numnodes` in level order, and so has the in-order, which the code calls
preorder.

## Main results

- `levelToPreorder_eq`, `preToLevelorder_eq`: both transformations by level and position
- `inorder_preToLevelorder`: `pre_to_levelorder` finds the splitters in sorted order
- `inorder_levelToPreorder`: `level_to_preorder` finds the place of a node
-/

namespace StringSampleSort

open Library

namespace TreeCalculations

/-! ## Model -/

/-- `numnodes`. -/
def numnodes (treebits : ℕ) : ℕ := 1 <<< treebits - 1

/-- `count_high_zero_bits<uint32_t>`. -/
def countHighZeroBits32 (t : ℕ) : ℕ := leadingZeros 32 t

/-- `count_low_zero_bits<uint32_t>`. -/
def countLowZeroBits32 (t : ℕ) : ℕ := trailingZeros 32 t

/-- `level_to_preorder`; none where the assertion `id > 0` fails.  The mask makes the
overflow of the shift immaterial. -/
def levelToPreorder (treebits id : ℕ) : Option ℕ :=
  if id = 0 then none
  else
    let hi := treebits + countHighZeroBits32 id - 32
    some ((id <<< (hi + 1) &&& numnodes treebits) ||| 1 <<< hi)

/-- `pre_to_levelorder`; none where the assertion `id > 0` fails. -/
def preToLevelorder (treebits id : ℕ) : Option ℕ :=
  if id = 0 then none
  else
    let lo := countLowZeroBits32 id + 1
    some ((id >>> lo &&& numnodes treebits) ||| 1 <<< (treebits - lo))

/-! ## By level and position -/

theorem numnodes_eq (treebits : ℕ) : numnodes treebits = 2 ^ treebits - 1 := by
  rw [numnodes, Nat.one_shiftLeft]

/-- Every node is the `x`-th one of some level `d`. -/
theorem exists_level {treebits id : ℕ} (h : 1 ≤ id) (hlt : id < 2 ^ treebits) :
    ∃ d x, d < treebits ∧ x < 2 ^ d ∧ id = 2 ^ d + x := by
  have hid : id ≠ 0 := by omega
  have hlow := Nat.log2_self_le hid
  have hhigh := Nat.lt_log2_self (n := id)
  rw [pow_succ] at hhigh
  exact ⟨id.log2, id - 2 ^ id.log2, (Nat.log2_lt hid).mpr hlt, by omega, by omega⟩

/-- Every position is the middle one of some subtree. -/
theorem exists_odd {treebits id : ℕ} (h : 1 ≤ id) (hlt : id < 2 ^ treebits) :
    ∃ d x, d < treebits ∧ x < 2 ^ d ∧ id = (2 * x + 1) * 2 ^ (treebits - 1 - d) := by
  obtain ⟨k, m, hm, rfl⟩ := Nat.exists_eq_two_pow_mul_odd (n := id) (by omega)
  obtain ⟨x, rfl⟩ := hm
  have hk : k < treebits := by
    by_contra hge
    have : 2 ^ treebits ≤ 2 ^ k := Nat.pow_le_pow_right (by omega) (by omega)
    have : 2 ^ k ≤ 2 ^ k * (2 * x + 1) := Nat.le_mul_of_pos_right _ (by omega)
    omega
  refine ⟨treebits - 1 - k, x, by omega, ?_, ?_⟩
  · by_contra hge
    have hx : 2 ^ (treebits - 1 - k) ≤ x := by omega
    have hmul : 2 ^ k * (2 * 2 ^ (treebits - 1 - k)) ≤ 2 ^ k * (2 * x + 1) :=
      Nat.mul_le_mul_left _ (by omega)
    rw [← pow_succ', ← pow_add, show k + (treebits - 1 - k + 1) = treebits by omega] at hmul
    omega
  · rw [show treebits - 1 - (treebits - 1 - k) = k by omega, mul_comm]

theorem levelToPreorder_eq {treebits d x : ℕ} (ht : treebits ≤ 32) (hd : d < treebits)
    (hx : x < 2 ^ d) :
    levelToPreorder treebits (2 ^ d + x) = some ((2 * x + 1) * 2 ^ (treebits - 1 - d)) := by
  have hpos := Nat.two_pow_pos d
  have hlog : (2 ^ d + x).log2 = d :=
    (Nat.log2_eq_iff (by omega)).mpr ⟨by omega, by rw [pow_succ]; omega⟩
  have hhi : treebits + countHighZeroBits32 (2 ^ d + x) - 32 = treebits - 1 - d := by
    rw [countHighZeroBits32, leadingZeros, if_neg (by omega), hlog]
    omega
  rw [levelToPreorder, if_neg (by omega)]
  simp only [hhi]
  obtain ⟨k, rfl⟩ : ∃ k, treebits = d + 1 + k := ⟨treebits - d - 1, by omega⟩
  -- the shift pushes the leading one of the index out of the mask
  have hmask : (2 ^ d + x) <<< (d + 1 + k - 1 - d + 1) &&& numnodes (d + 1 + k) =
      2 * x * 2 ^ k := by
    have hlt : 2 * x * 2 ^ k < 2 ^ (d + 1 + k) := by
      have h2x : 2 * x < 2 ^ (d + 1) := by rw [pow_succ]; omega
      rw [pow_add]
      exact Nat.mul_lt_mul_of_pos_right h2x (Nat.two_pow_pos k)
    rw [numnodes_eq, Nat.and_two_pow_sub_one_eq_mod, Nat.shiftLeft_eq,
      show (2 ^ d + x) * 2 ^ (d + 1 + k - 1 - d + 1) = 2 * x * 2 ^ k + 2 ^ (d + 1 + k) by
        rw [show d + 1 + k - 1 - d + 1 = k + 1 by omega]; ring,
      Nat.add_mod_right, Nat.mod_eq_of_lt hlt]
  rw [hmask, show d + 1 + k - 1 - d = k by omega, Nat.one_shiftLeft, Option.some_inj]
  calc 2 * x * 2 ^ k ||| 2 ^ k
      = (x * 2 ^ 1 ||| 1) * 2 ^ k := by
        rw [← Nat.shiftLeft_eq (x * 2 ^ 1 ||| 1), Nat.shiftLeft_or_distrib,
          Nat.one_shiftLeft, Nat.shiftLeft_eq]
        ring_nf
    _ = (2 * x + 1) * 2 ^ k := by
        rw [mul_two_pow_or (by omega)]
        ring

theorem preToLevelorder_eq {treebits d x : ℕ} (ht : treebits ≤ 32) (hd : d < treebits)
    (hx : x < 2 ^ d) :
    preToLevelorder treebits ((2 * x + 1) * 2 ^ (treebits - 1 - d)) = some (2 ^ d + x) := by
  obtain ⟨k, rfl⟩ : ∃ k, treebits = d + 1 + k := ⟨treebits - d - 1, by omega⟩
  have hpos := Nat.two_pow_pos k
  have hne : (2 * x + 1) * 2 ^ k ≠ 0 := by
    have := Nat.mul_le_mul_right (2 ^ k) (show 1 ≤ 2 * x + 1 by omega)
    omega
  have hlo : countLowZeroBits32 ((2 * x + 1) * 2 ^ k) = k :=
    trailingZeros_mul_two_pow (by omega) (by omega)
  rw [show d + 1 + k - 1 - d = k by omega, preToLevelorder, if_neg hne]
  simp only [hlo]
  have hshift : ((2 * x + 1) * 2 ^ k) >>> (k + 1) = x := by
    rw [Nat.shiftRight_eq_div_pow, pow_succ, ← Nat.div_div_eq_div_mul,
      Nat.mul_div_cancel _ hpos]
    omega
  have hmask : x &&& numnodes (d + 1 + k) = x := by
    rw [numnodes_eq, Nat.and_two_pow_sub_one_eq_mod, Nat.mod_eq_of_lt]
    exact hx.trans_le (Nat.pow_le_pow_right (by omega) (by omega))
  have hor := mul_two_pow_or (a := 1) hx
  rw [one_mul] at hor
  rw [hshift, hmask, show d + 1 + k - (k + 1) = d by omega, Nat.one_shiftLeft,
    Nat.or_comm, hor]

/-! ## Positions in the sorted order -/

variable {α : Type*}

/-- `pre_to_levelorder` of a position gives the node whose key stands there. -/
theorem inorder_preToLevelorder {treebits : ℕ} (ht : treebits ≤ 32) (tree : ℕ → α) {id : ℕ}
    (h : 1 ≤ id) (hlt : id < 2 ^ treebits) :
    ∃ node, preToLevelorder treebits id = some node ∧
      (inorder tree treebits 1)[id - 1]? = some (tree node) := by
  obtain ⟨d, x, hd, hx, rfl⟩ := exists_odd h hlt
  refine ⟨2 ^ d + x, preToLevelorder_eq ht hd hx, ?_⟩
  rw [getElem?_inorder tree 1 hd hx, one_mul]

/-- `level_to_preorder` of a node gives the position at which its key stands. -/
theorem inorder_levelToPreorder {treebits id : ℕ} (ht : treebits ≤ 32) (tree : ℕ → α)
    (h : 1 ≤ id) (hlt : id < 2 ^ treebits) :
    ∃ pos, levelToPreorder treebits id = some pos ∧ 1 ≤ pos ∧ pos < 2 ^ treebits ∧
      (inorder tree treebits 1)[pos - 1]? = some (tree id) := by
  obtain ⟨d, x, hd, hx, rfl⟩ := exists_level h hlt
  have hpow := Nat.two_pow_pos (treebits - 1 - d)
  refine ⟨_, levelToPreorder_eq ht hd hx, ?_, ?_, ?_⟩
  · exact Nat.mul_pos (by omega) hpow
  · calc (2 * x + 1) * 2 ^ (treebits - 1 - d)
        < 2 ^ (d + 1) * 2 ^ (treebits - 1 - d) :=
          Nat.mul_lt_mul_of_pos_right (by rw [pow_succ]; omega) hpow
      _ = 2 ^ treebits := by
          rw [← pow_add]
          congr 1
          omega
  · rw [getElem?_inorder tree 1 hd hx, one_mul]

end TreeCalculations

end StringSampleSort
