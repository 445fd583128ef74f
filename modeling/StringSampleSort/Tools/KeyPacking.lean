import StringSampleSort.Library.WordBytes
import StringSampleSort.Tools.StringSet
import Mathlib.Tactic.IntervalCases
import Mathlib.Tactic.NormNum

/-!
# Packing eight characters into a key

Model of `get_char_uint64_simple` and `get_uint64` of `src/tools/stringset.hpp`, and of
the functions `lcpKeyType`, `lcpKeyDepth` and `getCharAtDepth` that read a key again
(`src/parallel/bingmann-parallel_sample_sort.hpp`).

A key is the bitwise or of eight shifted characters.  With a signed `Char` every
character `≥ 0x80` is sign extended over all characters before it, so the key of a
window holds `0xFF` in front of its last such character.

## Main results

- `getUint64_toNat`: the key is the big-endian number of the window's key bytes
- `lcpKeyType_eq`: `lcpKeyType` is the common prefix length of the key bytes
- `lcpKeyDepth_eq`: `lcpKeyDepth` is the length without trailing zero bytes
-/

namespace StringSampleSort

open Library

/-- `key_type`. -/
abbrev KeyType := BitVec 64

/-- Keys are ordered as unsigned numbers. -/
instance : LinearOrder KeyType where
  le_refl := BitVec.le_refl
  le_trans _ _ _ := BitVec.le_trans
  le_antisymm _ _ := BitVec.le_antisymm
  le_total := BitVec.le_total
  lt_iff_le_not_ge a b := by
    rw [BitVec.lt_def, BitVec.le_def, BitVec.le_def]
    omega
  toDecidableLE := inferInstance
  toDecidableLT := inferInstance
  toDecidableEq := inferInstance

/-! ## Model -/

/-- The rounds of `get_char_uint64_simple`, which the code unrolls: the character at
`i` goes to the `k`-th byte from below, the scan ends at the end of the string. -/
def getCharUint64Loop {S : Type} (ss : StringSet S) (s : S) : ℕ → ℕ → KeyType → KeyType
  | 0, _, v => v
  | k + 1, i, v =>
    if ss.isEnd s i then v
    else getCharUint64Loop ss s k (i + 1)
      (v ||| charUint64 ss.signedChar (ss.deref i) <<< (8 * k))

/-- `get_char_uint64_simple(s, i)`. -/
def getCharUint64Simple {S : Type} (ss : StringSet S) (s : S) (i : ℕ) : KeyType :=
  getCharUint64Loop ss s 8 i 0

/-- `get_uint64(s, depth)`. -/
def getUint64 {S : Type} (ss : StringSet S) (s : S) (depth : ℕ) : KeyType :=
  getCharUint64Simple ss s (ss.getChars s depth)

/-- `count_high_zero_bits<uint64_t>`. -/
def countHighZeroBits (t : KeyType) : ℕ := leadingZeros 64 t.toNat

/-- `count_low_zero_bits<uint64_t>`. -/
def countLowZeroBits (t : KeyType) : ℕ := trailingZeros 64 t.toNat

/-- `lcpKeyType`: XOR both values and count the number of zero bytes. -/
def lcpKeyType (a b : KeyType) : ℕ := countHighZeroBits (a ^^^ b) / 8

/-- `lcpKeyDepth`: the number of bytes in front of the trailing zero bytes. -/
def lcpKeyDepth (a : KeyType) : ℕ := 8 - countLowZeroBits a / 8

/-- `getCharAtDepth`: the `d`-th character in the (swapped) key. -/
def getCharAtDepth (a : KeyType) (d : ℕ) : CharType := (a >>> (8 * (8 - 1 - d))).setWidth 8

/-- `key & 0xFF`, which the code tests for a terminator. -/
def lowByte (a : KeyType) : KeyType := a &&& 0xFF#64

/-! ## Windows and key bytes -/

/-- The next `k` characters, padded with zeros behind the end of the string. -/
def window : ℕ → List CharType → List ℕ
  | 0, _ => []
  | k + 1, [] => 0 :: window k []
  | k + 1, c :: cs => c.toNat :: window k cs

/-- Some byte of the window is `≥ 0x80`. -/
def anyHigh (w : List ℕ) : Bool := w.any fun b => decide (128 ≤ b)

/-- The window in which `0xFF` replaces every byte that a byte `≥ 0x80` follows. -/
def smear : List ℕ → List ℕ
  | [] => []
  | b :: t => (if anyHigh t then 255 else b) :: smear t

/-- The bytes that a window contributes to its key. -/
def keyBytes (signedChar : Bool) (w : List ℕ) : List ℕ := if signedChar then smear w else w

@[simp] theorem length_window (k : ℕ) (cs : List CharType) : (window k cs).length = k := by
  induction k generalizing cs with
  | zero => rfl
  | succ k ih => cases cs <;> simp [window, ih]

theorem digits_window (k : ℕ) (cs : List CharType) : Digits 256 (window k cs) := by
  induction k generalizing cs with
  | zero => intro b hb; simp [window] at hb
  | succ k ih =>
    cases cs with
    | nil =>
      intro b hb
      rcases List.mem_cons.mp hb with rfl | hb
      · omega
      · exact ih [] b hb
    | cons c cs =>
      intro b hb
      rcases List.mem_cons.mp hb with rfl | hb
      · exact c.isLt
      · exact ih cs b hb

@[simp] theorem length_smear (w : List ℕ) : (smear w).length = w.length := by
  induction w with
  | nil => rfl
  | cons b t ih => simp [smear, ih]

theorem digits_smear {w : List ℕ} (hw : Digits 256 w) : Digits 256 (smear w) := by
  induction w with
  | nil => exact hw
  | cons b t ih =>
    intro c hc
    rcases List.mem_cons.mp hc with rfl | hc
    · split
      · omega
      · exact hw.head
    · exact ih hw.tail c hc

@[simp] theorem length_keyBytes (sg : Bool) (w : List ℕ) :
    (keyBytes sg w).length = w.length := by
  cases sg <;> simp [keyBytes]

theorem digits_keyBytes (sg : Bool) {w : List ℕ} (hw : Digits 256 w) :
    Digits 256 (keyBytes sg w) := by
  cases sg with
  | false => exact hw
  | true => exact digits_smear hw

theorem anyHigh_cons (b : ℕ) (t : List ℕ) :
    anyHigh (b :: t) = (decide (128 ≤ b) || anyHigh t) := rfl

theorem window_getElem?_nil {k i : ℕ} (hi : i < k) : (window k [])[i]? = some 0 := by
  induction k generalizing i with
  | zero => omega
  | succ k ih =>
    cases i with
    | zero => rfl
    | succ i => simpa [window] using ih (by omega)

/-- A window lists the characters, then zeros. -/
theorem window_getElem? (cs : List CharType) {k i : ℕ} (hi : i < k) :
    (window k cs)[i]? = some ((cs[i]?).elim 0 BitVec.toNat) := by
  induction k generalizing cs i with
  | zero => omega
  | succ k ih =>
    cases cs with
    | nil => simpa using window_getElem?_nil hi
    | cons c cs =>
      cases i with
      | zero => rfl
      | succ i => simpa [window] using ih cs (by omega)

/-! ## The value of a key -/

/-- The or of the shifted characters of a list, as the loop accumulates it. -/
def orChars (sg : Bool) : ℕ → List CharType → KeyType
  | 0, _ => 0
  | _ + 1, [] => 0
  | k + 1, c :: cs => charUint64 sg c <<< (8 * k) ||| orChars sg k cs

theorem window_nil_value (sg : Bool) (k : ℕ) :
    anyHigh (window k []) = false ∧ packBE 256 (keyBytes sg (window k [])) = 0 := by
  induction k with
  | zero => cases sg <;> exact ⟨rfl, rfl⟩
  | succ k ih =>
    cases sg with
    | false => simpa [window, anyHigh_cons, keyBytes] using ih
    | true => simpa [window, anyHigh_cons, keyBytes, smear, ih.1] using ih.2

theorem charUint64_toNat_low {sg : Bool} {c : CharType} (h : sg = false ∨ c.toNat < 128) :
    (charUint64 sg c).toNat = c.toNat := by
  cases sg with
  | false =>
    have := c.isLt
    simp only [charUint64, Bool.false_eq_true, if_false, BitVec.toNat_setWidth]
    omega
  | true =>
    have hc : c.toNat < 128 := by simpa using h
    have hmsb : c.msb = false := by
      rw [BitVec.msb_eq_decide]
      simpa using hc
    simp only [charUint64, if_true, BitVec.signExtend_eq_setWidth_of_msb_false hmsb,
      BitVec.toNat_setWidth]
    exact Nat.mod_eq_of_lt (by omega)

theorem charUint64_toNat_high {c : CharType} (h : 128 ≤ c.toNat) :
    (charUint64 true c).toNat = 2 ^ 64 - 256 + c.toNat := by
  have hmsb : c.msb = true := by
    rw [BitVec.msb_eq_decide]
    simpa using h
  simp only [charUint64, if_true, BitVec.toNat_signExtend, hmsb, BitVec.toNat_setWidth]
  have := c.isLt
  omega

/-- A character shifted to byte `k` of the key. -/
theorem shifted_char_toNat (sg : Bool) (c : CharType) {k : ℕ} (hk : k < 8) :
    (charUint64 sg c <<< (8 * k)).toNat =
      (if sg && decide (128 ≤ c.toNat) then 2 ^ 64 - 256 ^ (k + 1) else 0) +
        c.toNat * 256 ^ k := by
  have hc := c.isLt
  rw [BitVec.toNat_shiftLeft, Nat.shiftLeft_eq]
  split
  · next h =>
    simp only [Bool.and_eq_true, decide_eq_true_eq] at h
    -- a negative character sets all bits above it
    rw [h.1, charUint64_toNat_high h.2]
    interval_cases k <;> omega
  · next h =>
    have h' : sg = false ∨ c.toNat < 128 := by
      cases sg with
      | false => exact Or.inl rfl
      | true => right; simpa using h
    rw [charUint64_toNat_low h']
    interval_cases k <;> omega

/-- The value of the accumulated characters: the key bytes of the window, below ones if
some character of the window is negative. -/
theorem orChars_toNat (sg : Bool) (cs : List CharType) {k : ℕ} (hk : k ≤ 8) :
    (orChars sg k cs).toNat =
      (if sg && anyHigh (window k cs) then 2 ^ 64 - 256 ^ k else 0) +
        packBE 256 (keyBytes sg (window k cs)) := by
  induction k generalizing cs with
  | zero => cases sg <;> simp [orChars, window, keyBytes, smear, anyHigh]
  | succ k ih =>
    cases cs with
    | nil =>
      obtain ⟨hhigh, hval⟩ := window_nil_value sg (k + 1)
      simp [orChars, hhigh, hval]
    | cons c cs =>
      have hlow : packBE 256 (keyBytes sg (window k cs)) < 256 ^ k := by
        simpa using packBE_lt (digits_keyBytes sg (digits_window k cs))
      rw [orChars, BitVec.toNat_or, ih cs (by omega), shifted_char_toNat sg c (by omega)]
      have hpow : (256 : ℕ) ^ k = 2 ^ (8 * k) := by rw [pow_mul]; norm_num
      have hc := c.isLt
      have hk8 : k < 8 := hk
      by_cases hneg : (sg && anyHigh (window k cs)) = true
      · -- a later character has already set every bit from byte `k` on
        simp only [Bool.and_eq_true] at hneg
        obtain ⟨rfl, hhigh⟩ := hneg
        have hones : (2 : ℕ) ^ 64 - 2 ^ (8 * k) = (2 ^ (64 - 8 * k) - 1) * 2 ^ (8 * k) := by
          rw [Nat.sub_mul, one_mul, ← pow_add, show 64 - 8 * k + 8 * k = 64 by omega]
        obtain ⟨a, ha, hchar⟩ : ∃ a, a < 2 ^ (64 - 8 * k) ∧
            (if true && decide (128 ≤ c.toNat) then 2 ^ 64 - 256 ^ (k + 1) else 0) +
              c.toNat * 256 ^ k = a * 2 ^ (8 * k) := by
          split
          · refine ⟨2 ^ (64 - 8 * k) - 256 + c.toNat, ?_, ?_⟩ <;>
              interval_cases k <;> omega
          · refine ⟨c.toNat, ?_, ?_⟩ <;> interval_cases k <;> omega
        simp only [Bool.true_and, anyHigh_cons, window, hhigh, Bool.or_true, if_true, keyBytes,
          smear, packBE_cons, length_smear, length_window]
        rw [Bool.true_and] at hchar
        rw [hchar, hpow, hones, ← mul_two_pow_or (hpow ▸ hlow), ← Nat.or_assoc,
          shiftLeft_or_ones ha, mul_two_pow_or (hpow ▸ hlow), ← hones, ← hpow]
        interval_cases k <;> omega
      · -- no later character is negative, and this one shifts past their bytes
        have hzero : (if sg && anyHigh (window k cs) then 2 ^ 64 - 256 ^ k else 0) = 0 :=
          if_neg hneg
        have hmul : ∃ a, (if sg && decide (128 ≤ c.toNat) then 2 ^ 64 - 256 ^ (k + 1) else 0) +
            c.toNat * 256 ^ k = a * 2 ^ (8 * k) := by
          split
          · refine ⟨2 ^ (64 - 8 * k) - 256 + c.toNat, ?_⟩
            interval_cases k <;> omega
          · exact ⟨c.toNat, by rw [hpow, zero_add]⟩
        obtain ⟨a, ha⟩ := hmul
        have hbytes : keyBytes sg (c.toNat :: window k cs) =
            c.toNat :: keyBytes sg (window k cs) := by
          cases sg with
          | false => rfl
          | true =>
            have : anyHigh (window k cs) = false := by simpa using hneg
            simp [keyBytes, smear, this]
        have hany : (sg && anyHigh (window (k + 1) (c :: cs))) =
            (sg && decide (128 ≤ c.toNat)) := by
          rw [window, anyHigh_cons]
          cases sg with
          | false => rfl
          | true =>
            have : anyHigh (window k cs) = false := by simpa using hneg
            simp [this]
        rw [hzero, zero_add, ha, mul_two_pow_or (hpow ▸ hlow), ← ha, hany, window, hbytes,
          packBE_cons, length_keyBytes, length_window, Nat.add_assoc]

/-- The loop accumulates the characters up to the end of the string. -/
theorem getCharUint64Loop_eq {S : Type} {ss : StringSet S} (h : ss.Lawful) (s : S)
    (k d : ℕ) (v : KeyType) (hd : d ≤ ss.length s) :
    getCharUint64Loop ss s k (ss.getChars s d) v =
      v ||| orChars ss.signedChar k ((ss.chars s).drop d) := by
  induction k generalizing d v with
  | zero => simp [getCharUint64Loop, orChars]
  | succ k ih =>
    rw [getCharUint64Loop]
    -- the scan stops at the end of the string, where no characters are left
    by_cases hend : d = ss.length s
    · rw [if_pos ((h.isEnd_iff s d hd).mpr hend), ss.drop_chars_nil s hend.ge]
      simp [orChars]
    · have hnext : ss.getChars s d + 1 = ss.getChars s (d + 1) := by
        rw [h.getChars_add s d, h.getChars_add s (d + 1), Nat.add_assoc]
      rw [if_neg fun he => hend ((h.isEnd_iff s d hd).mp he), hnext,
        ih (d + 1) _ (by omega), BitVec.or_assoc,
        ss.drop_chars_cons s (lt_of_le_of_ne hd hend)]
      rfl

/-- The key of a string is the big-endian number of its key bytes. -/
theorem getUint64_toNat {S : Type} {ss : StringSet S} (h : ss.Lawful) (s : S) (d : ℕ)
    (hd : d ≤ ss.length s) :
    (getUint64 ss s d).toNat =
      packBE 256 (keyBytes ss.signedChar (window 8 ((ss.chars s).drop d))) := by
  rw [getUint64, getCharUint64Simple, getCharUint64Loop_eq h s 8 d 0 hd,
    show (0 : KeyType) = 0#64 from rfl, BitVec.zero_or, orChars_toNat _ _ (le_refl 8)]
  simp

/-- Behind the end of a length-delimited string the key is zero. -/
theorem getUint64_of_length_le {S : Type} {ss : StringSet S} (h : ss.BaseDerived) (s : S)
    (d : ℕ) (hd : ss.length s ≤ d) : getUint64 ss s d = 0 := by
  have hend : ss.isEnd s (ss.getChars s d) = true := by
    rw [h.isEnd_iff, h.getChars_add s d, h.getChars_add s (ss.length s)]
    omega
  rw [getUint64, getCharUint64Simple, getCharUint64Loop, if_pos hend]

/-! ## Reading a key -/

section ReadKey

variable {a b : KeyType} {u v : List ℕ}

/-- A key stands for the bytes `u`. -/
structure IsKey (a : KeyType) (u : List ℕ) : Prop where
  length_eq : u.length = 8
  digits : Digits 256 u
  value : a.toNat = packBE 256 u

theorem isKey_getUint64 {S : Type} {ss : StringSet S} (h : ss.Lawful) (s : S) (d : ℕ)
    (hd : d ≤ ss.length s) :
    IsKey (getUint64 ss s d) (keyBytes ss.signedChar (window 8 ((ss.chars s).drop d))) where
  length_eq := by simp
  digits := digits_keyBytes _ (digits_window _ _)
  value := getUint64_toNat h s d hd

/-- Every key stands for some bytes. -/
theorem exists_isKey (a : KeyType) : ∃ u, IsKey a u := by
  have hdigits : ∀ (k n : ℕ), n < 256 ^ k →
      ∃ u : List ℕ, u.length = k ∧ Digits 256 u ∧ packBE 256 u = n := by
    intro k
    induction k with
    | zero => intro n hn; exact ⟨[], rfl, fun b hb => by simp at hb, by simp at hn ⊢; omega⟩
    | succ k ih =>
      intro n hn
      -- the last byte is split off
      obtain ⟨u, hlen, hu, hval⟩ := ih (n / 256) (by
        rw [pow_succ] at hn
        exact Nat.div_lt_of_lt_mul (by rwa [mul_comm]))
      refine ⟨u ++ [n % 256], by simp [hlen], ?_, ?_⟩
      · intro b hb
        rcases List.mem_append.mp hb with hb | hb
        · exact hu b hb
        · rw [List.mem_singleton.mp hb]
          exact Nat.mod_lt _ (by norm_num)
      · rw [packBE_concat, hval]
        omega
  obtain ⟨u, hlen, hu, hval⟩ := hdigits 8 a.toNat (by simpa using a.isLt)
  exact ⟨u, hlen, hu, hval.symm⟩

theorem isKey_iff : IsKey a u ↔ WordBytes 8 a u :=
  ⟨fun h => ⟨rfl, h.length_eq, h.digits, h.value⟩, fun h => ⟨h.length_eq, h.digits, h.value⟩⟩

theorem IsKey.lt_iff (ha : IsKey a u) (hb : IsKey b v) : a < b ↔ u < v :=
  (isKey_iff.mp ha).lt_iff (isKey_iff.mp hb)

theorem IsKey.eq_iff (ha : IsKey a u) (hb : IsKey b v) : a = b ↔ u = v :=
  (isKey_iff.mp ha).eq_iff (isKey_iff.mp hb)

/-- `lcpKeyType` counts the leading bytes on which two keys agree. -/
theorem lcpKeyType_eq (ha : IsKey a u) (hb : IsKey b v) : lcpKeyType a b = lcpLen u v :=
  (isKey_iff.mp ha).leadingZeros_xor (isKey_iff.mp hb)

/-- `getCharAtDepth` reads one byte of the key. -/
theorem getCharAtDepth_toNat (ha : IsKey a u) {d : ℕ} (hd : d < 8) :
    some (getCharAtDepth a d).toNat = u[d]? := by
  have hpow : (2 : ℕ) ^ (8 * (8 - 1 - d)) = 256 ^ (8 - (d + 1)) := by
    rw [pow_mul, show 8 - 1 - d = 8 - (d + 1) by omega]
    norm_num
  have hdiv := packBE_div ha.digits (by norm_num) (d + 1)
  rw [ha.length_eq] at hdiv
  have hlt : d < u.length := by rw [ha.length_eq]; exact hd
  rw [getCharAtDepth, BitVec.toNat_setWidth, BitVec.toNat_ushiftRight,
    Nat.shiftRight_eq_div_pow, hpow, ha.value, hdiv, List.take_succ_eq_append_getElem hlt,
    packBE_concat, List.getElem?_eq_getElem hlt, Option.some_inj]
  have := ha.digits _ (List.getElem_mem hlt)
  omega

/-- The low byte of a key is its last byte. -/
theorem lowByte_eq_zero_iff (ha : IsKey a u) : lowByte a = 0 ↔ u[7]? = some 0 := by
  have hlt : 7 < u.length := by rw [ha.length_eq]; norm_num
  have hsplit : u = u.take 7 ++ [u[7]] := by
    have := List.take_succ_eq_append_getElem hlt
    rwa [show 7 + 1 = u.length from ha.length_eq.symm, List.take_length] at this
  have hval : a.toNat % 256 = u[7] := by
    rw [ha.value]
    conv_lhs => rw [hsplit, packBE_concat]
    have := ha.digits _ (List.getElem_mem hlt)
    omega
  rw [← BitVec.toNat_inj, lowByte, BitVec.toNat_and, List.getElem?_eq_getElem hlt,
    Option.some_inj, ← hval]
  show a.toNat &&& (2 ^ 8 - 1) = 0 ↔ _
  rw [Nat.and_two_pow_sub_one_eq_mod]

/-- A key whose bytes end in zeros behind position `m` and not before. -/
theorem lcpKeyDepth_eq (ha : IsKey a u) {m : ℕ} (hm : m ≤ 8)
    (hzero : ∀ i, m ≤ i → i < 8 → u[i]? = some 0)
    (hlast : m = 0 ∨ u[m - 1]? ≠ some 0) : lcpKeyDepth a = m := by
  have hdvd : ∀ k ≤ 8, (8 * k ≤ trailingZeros 64 a.toNat ↔
      ∀ i, 8 - k ≤ i → i < 8 → u[i]? = some 0) := by
    intro k hk
    have hlow : packBE 256 (u.drop (8 - k)) < 256 ^ k := by
      have := packBE_lt (ha.digits.drop (8 - k))
      rwa [List.length_drop, ha.length_eq, show 8 - (8 - k) = k by omega] at this
    have hpow : (2 : ℕ) ^ (8 * k) = 256 ^ k := by rw [pow_mul]; norm_num
    have hsplit : a.toNat = packBE 256 (u.take (8 - k)) * 256 ^ k + packBE 256 (u.drop (8 - k)) := by
      rw [ha.value]
      conv_lhs => rw [← List.take_append_drop (8 - k) u, packBE_append, List.length_drop,
        ha.length_eq, show 8 - (8 - k) = k by omega]
    rw [le_trailingZeros_iff (by omega), hpow, hsplit,
      Nat.dvd_add_right (Dvd.intro_left _ rfl)]
    -- the lower `k` bytes are below `256 ^ k`, so they are zero if it divides them
    have hzeros : packBE 256 (u.drop (8 - k)) = 0 ↔ u.drop (8 - k) = List.replicate k 0 := by
      have hrep : packBE 256 (List.replicate k 0) = 0 := by
        clear hlow hsplit hk hpow
        induction k with
        | zero => rfl
        | succ k ih => simp [List.replicate_succ, ih]
      rw [← packBE_inj (ha.digits.drop _) (l := u.drop (8 - k)) (m := List.replicate k 0)
        (fun b hb => by rw [List.eq_of_mem_replicate hb]; norm_num)
        (by simp [ha.length_eq]; omega), hrep]
    constructor
    · intro h i hi hi8
      have heq := hzeros.mp (Nat.eq_zero_of_dvd_of_lt h hlow)
      have hget := congrArg (fun l => l[i - (8 - k)]?) heq
      simp only [List.getElem?_drop, List.getElem?_replicate] at hget
      rw [show 8 - k + (i - (8 - k)) = i by omega, if_pos (by omega)] at hget
      exact hget
    · intro h
      rw [hzeros.mpr]
      · exact dvd_zero _
      · apply List.ext_getElem?
        intro i
        rw [List.getElem?_drop, List.getElem?_replicate]
        split
        · exact h _ (by omega) (by omega)
        · rw [List.getElem?_eq_none (by rw [ha.length_eq]; omega)]
  have hle := (hdvd (8 - m) (by omega)).mpr (by
    intro i hi hi8
    exact hzero i (by omega) hi8)
  have hub := trailingZeros_le 64 a.toNat
  rw [lcpKeyDepth, countLowZeroBits]
  by_contra hne
  -- one more trailing zero byte would include byte `m - 1`
  have hlt : 8 * (8 - m + 1) ≤ trailingZeros 64 a.toNat := by omega
  rcases hlast with rfl | hlast
  · omega
  · exact hlast ((hdvd (8 - m + 1) (by omega)).mp hlt (m - 1) (by omega) (by omega))

end ReadKey

end StringSampleSort
