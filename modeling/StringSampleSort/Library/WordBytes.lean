import StringSampleSort.Library.BigEndian
import StringSampleSort.Library.Bits

/-!
# Words and their bytes

A word of `n` bytes stands for the list of its bytes, the highest one first.  The library relates
the order of words, the zero bits in front of their xor, and the masks that cut off lower bytes to
the byte lists.

## Main results

- `WordBytes.lt_iff`, `WordBytes.eq_iff`: words are compared by their bytes
- `WordBytes.leadingZeros_xor`: the zero bits of a xor count the bytes that two words share
- `WordBytes.maskBehindZero`: a cascade of masks clears what lies behind the first zero byte
- `wordBytes_orBytes`: the bitwise or of shifted bytes
-/

namespace StringSampleSort.Library

/-- The word `a` consists of the `n` bytes `u`. -/
structure WordBytes {w : ℕ} (n : ℕ) (a : BitVec w) (u : List ℕ) : Prop where
  width : w = 8 * n
  length_eq : u.length = n
  digits : Digits 256 u
  value : a.toNat = packBE 256 u

theorem two_pow_eight_mul (n : ℕ) : 2 ^ (8 * n) = 256 ^ n := by
  rw [pow_mul]
  norm_num

/-- A mask shifted to the left sees the word shifted to the right. -/
theorem and_shiftLeft (a m j : ℕ) : a &&& m <<< j = (a >>> j &&& m) <<< j := by
  apply Nat.eq_of_testBit_eq
  intro i
  simp only [Nat.testBit_and, Nat.testBit_shiftLeft, Nat.testBit_shiftRight]
  by_cases hi : j ≤ i
  · simp [hi]
  · simp [hi]

/-- The mask of byte `k`. -/
def byteMask (w n k : ℕ) : BitVec w := BitVec.ofNat w (255 <<< (8 * (n - 1 - k)))

/-- The mask of the upper `k` bytes. -/
def highMask (w n k : ℕ) : BitVec w := BitVec.ofNat w ((2 ^ (8 * k) - 1) <<< (8 * (n - k)))

/-- The bytes up to the first zero, and zeros behind it. -/
def cutBytes : List ℕ → List ℕ
  | [] => []
  | b :: t => if b = 0 then 0 :: List.replicate t.length 0 else b :: cutBytes t

@[simp] theorem length_cutBytes (u : List ℕ) : (cutBytes u).length = u.length := by
  induction u with
  | nil => rfl
  | cons b t ih =>
    rw [cutBytes]
    split <;> simp [ih]

/-- Bytes without a zero in front of the place `r`. -/
theorem cutBytes_eq_append {u : List ℕ} {r : ℕ} (hnz : ∀ b ∈ u.take r, b ≠ 0) :
    cutBytes u = u.take r ++ cutBytes (u.drop r) := by
  induction r generalizing u with
  | zero => simp
  | succ r ih =>
    cases u with
    | nil => rfl
    | cons b t =>
      rw [List.take_succ_cons] at hnz
      rw [cutBytes, if_neg (hnz b (List.mem_cons_self ..)), List.take_succ_cons,
        List.drop_succ_cons, List.cons_append,
        ← ih fun c hc => hnz c (List.mem_cons_of_mem _ hc)]

/-- Tests of the bytes from byte `r` on, all but the last one.  The first zero byte ends the
word. -/
def maskBehindZero {w : ℕ} (n : ℕ) (v : BitVec w) : ℕ → ℕ → BitVec w
  | 0, _ => v
  | tests + 1, r =>
    if v &&& byteMask w n r = 0 then v &&& highMask w n (r + 1)
    else maskBehindZero n v tests (r + 1)

/-- The bitwise or of shifted bytes. -/
def orBytes (w : ℕ) : List ℕ → BitVec w
  | [] => 0
  | b :: t => BitVec.ofNat w b <<< (8 * t.length) ||| orBytes w t

namespace WordBytes

variable {w n : ℕ} {a b : BitVec w} {u v : List ℕ}

theorem lt_iff (ha : WordBytes n a u) (hb : WordBytes n b v) : a < b ↔ u < v := by
  rw [BitVec.lt_def, ha.value, hb.value,
    packBE_lt_iff ha.digits hb.digits (ha.length_eq.trans hb.length_eq.symm)]

theorem eq_iff (ha : WordBytes n a u) (hb : WordBytes n b v) : a = b ↔ u = v := by
  rw [← BitVec.toNat_inj, ha.value, hb.value,
    packBE_inj ha.digits hb.digits (ha.length_eq.trans hb.length_eq.symm)]

/-- The upper `k` bytes as a number. -/
theorem shiftRight_eq (ha : WordBytes n a u) (k : ℕ) :
    a.toNat / 2 ^ (8 * (n - k)) = packBE 256 (u.take k) := by
  have hdiv := packBE_div ha.digits (by norm_num) k
  rw [ha.length_eq] at hdiv
  rw [ha.value, two_pow_eight_mul, hdiv]

/-- The highest bit is that of the first byte. -/
theorem topBit_eq (ha : WordBytes n a u) {c : ℕ} (hc : u[0]? = some c) :
    a.toNat / 2 ^ (w - 1) = c / 128 := by
  obtain ⟨hpos, hget⟩ := List.getElem?_eq_some_iff.mp hc
  have hw := ha.width
  have hn := ha.length_eq
  have hfirst := ha.shiftRight_eq 1
  rw [List.take_succ_eq_append_getElem hpos, hget, List.take_zero, List.nil_append] at hfirst
  rw [show w - 1 = 8 * (n - 1) + 7 by omega, pow_add, ← Nat.div_div_eq_div_mul, hfirst]
  simp

/-- The zero bits of the xor count the leading bytes on which two words agree. -/
theorem leadingZeros_xor (ha : WordBytes n a u) (hb : WordBytes n b v) :
    leadingZeros w (a ^^^ b).toNat / 8 = lcpLen u v := by
  have hw := ha.width
  have hle : ∀ k, k ≤ leadingZeros w (a ^^^ b).toNat / 8 ↔ k ≤ lcpLen u v := by
    intro k
    rw [le_lcpLen_iff, ha.length_eq, hb.length_eq]
    rcases Nat.lt_or_ge n k with hk | hk
    · have := leadingZeros_le w (a ^^^ b).toNat
      exact iff_of_false (by omega) (by omega)
    · have hdiv : k ≤ leadingZeros w (a ^^^ b).toNat / 8 ↔
          8 * k ≤ leadingZeros w (a ^^^ b).toNat := by omega
      rw [hdiv, le_leadingZeros_iff (a ^^^ b).isLt (by omega), BitVec.toNat_xor,
        xor_lt_two_pow_iff, show w - 8 * k = 8 * (n - k) by omega, ha.shiftRight_eq,
        hb.shiftRight_eq, packBE_inj (ha.digits.take k) (hb.digits.take k)
          (by simp [ha.length_eq, hb.length_eq])]
      exact ⟨fun h => ⟨hk, hk, h⟩, fun h => h.2.2⟩
  exact le_antisymm ((hle _).mp (le_refl _)) ((hle _).mpr (le_refl _))

/-! ## Masks -/

/-- A mask of byte `k` from above. -/
theorem and_byteMask_iff (ha : WordBytes n a u) {k : ℕ} (hk : k < n) :
    a &&& byteMask w n k = 0 ↔ u[k]? = some 0 := by
  have hw := ha.width
  have hlt : k < u.length := hk.trans_eq ha.length_eq.symm
  have hmask : 255 <<< (8 * (n - 1 - k)) % 2 ^ w = 255 <<< (8 * (n - 1 - k)) := by
    refine Nat.mod_eq_of_lt ?_
    rw [Nat.shiftLeft_eq]
    calc 255 * 2 ^ (8 * (n - 1 - k)) < 2 ^ 8 * 2 ^ (8 * (n - 1 - k)) :=
          Nat.mul_lt_mul_of_pos_right (by norm_num) (Nat.two_pow_pos _)
      _ = 2 ^ (8 + 8 * (n - 1 - k)) := (pow_add ..).symm
      _ ≤ 2 ^ w := Nat.pow_le_pow_right (by omega) (by omega)
  have hbyte : a.toNat / 2 ^ (8 * (n - 1 - k)) % 256 = u[k] := by
    rw [show n - 1 - k = n - (k + 1) by omega, ha.shiftRight_eq,
      List.take_succ_eq_append_getElem hlt, packBE_concat]
    have := ha.digits u[k] (List.getElem_mem hlt)
    omega
  rw [← BitVec.toNat_inj, BitVec.toNat_and, byteMask, BitVec.toNat_ofNat, hmask, and_shiftLeft,
    show (255 : ℕ) = 2 ^ 8 - 1 from rfl, Nat.and_two_pow_sub_one_eq_mod,
    Nat.shiftRight_eq_div_pow, show (2 : ℕ) ^ 8 = 256 from rfl, hbyte, Nat.shiftLeft_eq,
    List.getElem?_eq_getElem hlt, Option.some_inj]
  simp

/-- A mask of the upper `k` bytes. -/
theorem and_highMask (ha : WordBytes n a u) {k : ℕ} (hk : k ≤ n) :
    WordBytes n (a &&& highMask w n k) (u.take k ++ List.replicate (n - k) 0) where
  width := ha.width
  length_eq := by
    rw [List.length_append, List.length_take, List.length_replicate, ha.length_eq]
    omega
  digits := by
    intro b hb
    rcases List.mem_append.mp hb with hb | hb
    · exact ha.digits.take k b hb
    · rw [List.eq_of_mem_replicate hb]
      norm_num
  value := by
    have hw := ha.width
    have hmask : (2 ^ (8 * k) - 1) <<< (8 * (n - k)) % 2 ^ w =
        (2 ^ (8 * k) - 1) <<< (8 * (n - k)) := by
      refine Nat.mod_eq_of_lt ?_
      rw [Nat.shiftLeft_eq]
      calc (2 ^ (8 * k) - 1) * 2 ^ (8 * (n - k)) < 2 ^ (8 * k) * 2 ^ (8 * (n - k)) :=
            Nat.mul_lt_mul_of_pos_right (Nat.sub_lt (Nat.two_pow_pos _) Nat.one_pos)
              (Nat.two_pow_pos _)
        _ = 2 ^ w := by
            rw [← pow_add]
            congr 1
            omega
    have hlt : packBE 256 (u.take k) < 2 ^ (8 * k) := by
      have := packBE_lt (ha.digits.take k)
      rwa [List.length_take, ha.length_eq, min_eq_left hk, ← two_pow_eight_mul] at this
    rw [BitVec.toNat_and, highMask, BitVec.toNat_ofNat, hmask, and_shiftLeft,
      Nat.shiftRight_eq_div_pow, ha.shiftRight_eq, Nat.and_two_pow_sub_one_eq_mod,
      Nat.mod_eq_of_lt hlt, Nat.shiftLeft_eq, packBE_append, packBE_replicate_zero,
      List.length_replicate, Nat.add_zero, two_pow_eight_mul]

/-- A cascade of tests keeps the bytes up to the first zero. -/
theorem maskBehindZero (ha : WordBytes n a u) {tests r : ℕ} (hn : r + tests + 1 = n)
    (hnz : ∀ b ∈ u.take r, b ≠ 0) :
    WordBytes n (Library.maskBehindZero n a tests r) (cutBytes u) := by
  induction tests generalizing r with
  | zero =>
    rw [Library.maskBehindZero]
    -- whatever the last byte is, nothing lies behind it
    have hcut : cutBytes u = u := by
      obtain ⟨x, hx⟩ : ∃ x, u.drop r = [x] := by
        rw [← List.length_eq_one_iff, List.length_drop, ha.length_eq]
        omega
      have hlast : cutBytes [x] = [x] := by
        rw [cutBytes]
        split <;> simp_all [cutBytes]
      rw [cutBytes_eq_append hnz, hx, hlast, ← hx, List.take_append_drop]
    rw [hcut]
    exact ha
  | succ tests ih =>
    rw [Library.maskBehindZero]
    have hr : r < u.length := by rw [ha.length_eq]; omega
    by_cases htest : a &&& byteMask w n r = 0
    · rw [if_pos htest]
      rw [ha.and_byteMask_iff (by omega), List.getElem?_eq_getElem hr, Option.some_inj] at htest
      have hcut : cutBytes u = u.take (r + 1) ++ List.replicate (n - (r + 1)) 0 := by
        rw [cutBytes_eq_append hnz, List.drop_eq_getElem_cons hr, htest, cutBytes, if_pos rfl,
          List.take_succ_eq_append_getElem hr, htest, List.length_drop, ha.length_eq,
          List.append_assoc]
        rfl
      rw [hcut]
      exact ha.and_highMask (by omega)
    · rw [if_neg htest]
      apply ih
      · omega
      · intro b hb
        rw [List.take_succ_eq_append_getElem hr, List.mem_append, List.mem_singleton] at hb
        rcases hb with hb | rfl
        · exact hnz b hb
        · intro hzero
          rw [ha.and_byteMask_iff (by omega), List.getElem?_eq_getElem hr, hzero] at htest
          exact htest rfl

end WordBytes

/-- The bitwise or of shifted bytes stands for them. -/
theorem wordBytes_orBytes {w n : ℕ} (hw : w = 8 * n) {u : List ℕ} (hlen : u.length = n)
    (hu : Digits 256 u) : WordBytes n (orBytes w u) u where
  width := hw
  length_eq := hlen
  digits := hu
  value := by
    have hle : 8 * u.length ≤ w := by omega
    clear hlen
    induction u with
    | nil => rfl
    | cons b t ih =>
      have hb := hu.head
      rw [List.length_cons] at hle
      have hbw : b < 2 ^ w := by
        calc b < 2 ^ 8 := hb
          _ ≤ 2 ^ w := Nat.pow_le_pow_right (by omega) (by omega)
      have hbig : b * 2 ^ (8 * t.length) < 2 ^ w := by
        calc b * 2 ^ (8 * t.length) < 2 ^ 8 * 2 ^ (8 * t.length) :=
              Nat.mul_lt_mul_of_pos_right hb (Nat.two_pow_pos _)
          _ = 2 ^ (8 + 8 * t.length) := (pow_add ..).symm
          _ ≤ 2 ^ w := Nat.pow_le_pow_right (by omega) (by omega)
      have hlow : packBE 256 t < 2 ^ (8 * t.length) := by
        rw [two_pow_eight_mul]
        exact packBE_lt hu.tail
      rw [orBytes, BitVec.toNat_or, BitVec.toNat_shiftLeft, BitVec.toNat_ofNat,
        Nat.mod_eq_of_lt hbw, Nat.shiftLeft_eq, Nat.mod_eq_of_lt hbig, ih hu.tail (by omega),
        mul_two_pow_or hlow, packBE_cons, two_pow_eight_mul]

end StringSampleSort.Library
