import Mathlib.Data.List.Lex
import Mathlib.Order.Lattice
import Mathlib.Tactic.Ring
import Mathlib.Tactic.Linarith

/-!
# Big-endian digit strings

A list of digits below a base `B`, most significant digit first, packed into one
natural number.  For digit strings of one length the numeric order is the
lexicographic order, and dropping low digits is an integer division.

## Main results

- `packBE_lt_iff`: numeric order is lexicographic order (equal lengths)
- `packBE_inj`: packing is injective (equal lengths)
- `packBE_div`: the leading `k` digits are the quotient by `B ^ (length - k)`
- `lcpLen_eq_iff`: the length of the longest common prefix by its two properties
-/

namespace StringSampleSort.Library

/-! ## Packing -/

/-- The number whose base-`B` digits are `l`, most significant digit first. -/
def packBE (B : ℕ) : List ℕ → ℕ
  | [] => 0
  | b :: bs => b * B ^ bs.length + packBE B bs

/-- Every entry of the list is a base-`B` digit. -/
def Digits (B : ℕ) (l : List ℕ) : Prop := ∀ b ∈ l, b < B

section Packing

variable {B : ℕ}

@[simp] theorem packBE_nil : packBE B [] = 0 := rfl

@[simp] theorem packBE_cons (b : ℕ) (bs : List ℕ) :
    packBE B (b :: bs) = b * B ^ bs.length + packBE B bs := rfl

theorem Digits.head {b : ℕ} {bs : List ℕ} (h : Digits B (b :: bs)) : b < B :=
  h b (List.mem_cons_self ..)

theorem Digits.tail {b : ℕ} {bs : List ℕ} (h : Digits B (b :: bs)) : Digits B bs :=
  fun c hc => h c (List.mem_cons_of_mem _ hc)

theorem Digits.take {l : List ℕ} (h : Digits B l) (k : ℕ) : Digits B (l.take k) :=
  fun b hb => h b (List.mem_of_mem_take hb)

theorem Digits.drop {l : List ℕ} (h : Digits B l) (k : ℕ) : Digits B (l.drop k) :=
  fun b hb => h b (List.mem_of_mem_drop hb)

theorem packBE_lt {l : List ℕ} (h : Digits B l) : packBE B l < B ^ l.length := by
  induction l with
  | nil => simp
  | cons b bs ih =>
    have hb : b + 1 ≤ B := h.head
    have hbs := ih h.tail
    calc packBE B (b :: bs)
        < b * B ^ bs.length + B ^ bs.length := by rw [packBE_cons]; omega
      _ = (b + 1) * B ^ bs.length := by ring
      _ ≤ B * B ^ bs.length := Nat.mul_le_mul_right _ hb
      _ = B ^ (b :: bs).length := by rw [List.length_cons, pow_succ']

theorem packBE_append (l m : List ℕ) :
    packBE B (l ++ m) = packBE B l * B ^ m.length + packBE B m := by
  induction l with
  | nil => simp
  | cons b bs ih =>
    rw [List.cons_append, packBE_cons, packBE_cons, ih, List.length_append, pow_add]
    ring

/-- The leading `k` digits are the quotient by the weight of the remaining ones. -/
theorem packBE_div {l : List ℕ} (h : Digits B l) (hB : 0 < B) (k : ℕ) :
    packBE B l / B ^ (l.length - k) = packBE B (l.take k) := by
  have hsplit : packBE B l = packBE B (l.take k) * B ^ (l.length - k) + packBE B (l.drop k) := by
    conv_lhs => rw [← List.take_append_drop k l, packBE_append, List.length_drop]
  have hlow : packBE B (l.drop k) < B ^ (l.length - k) := by
    simpa only [List.length_drop] using packBE_lt (h.drop k)
  have hpos : 0 < B ^ (l.length - k) := Nat.pow_pos hB
  rw [hsplit, mul_comm, Nat.mul_add_div hpos, Nat.div_eq_of_lt hlow, Nat.add_zero]

/-- Digit strings of one length are ordered as the numbers they denote. -/
theorem packBE_lt_iff {l m : List ℕ} (hl : Digits B l) (hm : Digits B m)
    (hlen : l.length = m.length) : packBE B l < packBE B m ↔ l < m := by
  induction l generalizing m with
  | nil =>
    cases m with
    | nil => simp
    | cons c cs => simp at hlen
  | cons b bs ih =>
    cases m with
    | nil => simp at hlen
    | cons c cs =>
      have hlen' : bs.length = cs.length := by simpa using hlen
      have hbs := packBE_lt hl.tail
      have hcs := packBE_lt hm.tail
      rw [List.cons_lt_cons_iff, ← ih hl.tail hm.tail hlen', packBE_cons, packBE_cons, hlen']
      rw [hlen'] at hbs
      rcases lt_trichotomy b c with hbc | rfl | hbc
      · -- a smaller leading digit outweighs everything behind it
        have hmul : (b + 1) * B ^ cs.length ≤ c * B ^ cs.length := Nat.mul_le_mul_right _ hbc
        have hstep : (b + 1) * B ^ cs.length = b * B ^ cs.length + B ^ cs.length := by ring
        exact iff_of_true (by omega) (Or.inl hbc)
      · simp
      · have hmul : (c + 1) * B ^ cs.length ≤ b * B ^ cs.length := Nat.mul_le_mul_right _ hbc
        have hstep : (c + 1) * B ^ cs.length = c * B ^ cs.length + B ^ cs.length := by ring
        exact iff_of_false (by omega) (by omega)

/-- Digit strings of one length are determined by the number they denote. -/
theorem packBE_inj {l m : List ℕ} (hl : Digits B l) (hm : Digits B m)
    (hlen : l.length = m.length) : packBE B l = packBE B m ↔ l = m := by
  refine ⟨fun h => ?_, fun h => h ▸ rfl⟩
  rcases lt_trichotomy l m with hlt | heq | hgt
  · exact absurd ((packBE_lt_iff hl hm hlen).mpr hlt) (by omega)
  · exact heq
  · exact absurd ((packBE_lt_iff hm hl hlen.symm).mpr hgt) (by omega)

/-- Leading digits keep the order of the numbers. -/
theorem packBE_take_le {l m : List ℕ} (hl : Digits B l) (hm : Digits B m) (hB : 0 < B)
    (hlen : l.length = m.length) (h : packBE B l ≤ packBE B m) (k : ℕ) :
    packBE B (l.take k) ≤ packBE B (m.take k) := by
  rw [← packBE_div hl hB, ← packBE_div hm hB, hlen]
  exact Nat.div_le_div_right h

theorem packBE_replicate_zero (k : ℕ) : packBE B (List.replicate k 0) = 0 := by
  induction k with
  | zero => rfl
  | succ k ih => rw [List.replicate_succ, packBE_cons, ih, Nat.zero_mul]

/-- The last digit is the remainder modulo the base. -/
theorem packBE_concat (l : List ℕ) (b : ℕ) : packBE B (l ++ [b]) = packBE B l * B + b := by
  rw [packBE_append]
  simp

end Packing

/-! ## Longest common prefixes -/

/-- Length of the longest common prefix of two lists. -/
def lcpLen {α : Type*} [DecidableEq α] : List α → List α → ℕ
  | a :: as, b :: bs => if a = b then lcpLen as bs + 1 else 0
  | _, _ => 0

section CommonPrefix

variable {α : Type*} [DecidableEq α]

@[simp] theorem lcpLen_nil_left (l : List α) : lcpLen [] l = 0 := by cases l <;> rfl

@[simp] theorem lcpLen_nil_right (l : List α) : lcpLen l [] = 0 := by cases l <;> rfl

theorem lcpLen_cons (a b : α) (as bs : List α) :
    lcpLen (a :: as) (b :: bs) = if a = b then lcpLen as bs + 1 else 0 := rfl

theorem lcpLen_comm (l m : List α) : lcpLen l m = lcpLen m l := by
  induction l generalizing m with
  | nil => simp
  | cons a as ih =>
    cases m with
    | nil => simp
    | cons b bs => simp only [lcpLen_cons, ih bs, eq_comm (a := a)]

@[simp] theorem lcpLen_self (l : List α) : lcpLen l l = l.length := by
  induction l with
  | nil => rfl
  | cons a as ih => simp [lcpLen_cons, ih]

theorem lcpLen_le_left (l m : List α) : lcpLen l m ≤ l.length := by
  induction l generalizing m with
  | nil => simp
  | cons a as ih =>
    cases m with
    | nil => simp
    | cons b bs =>
      rw [lcpLen_cons]
      split
      · simpa using ih bs
      · exact Nat.zero_le _

theorem lcpLen_le_right (l m : List α) : lcpLen l m ≤ m.length :=
  lcpLen_comm l m ▸ lcpLen_le_left m l

/-- A number is below the common prefix length when it is within both lists and
the lists agree up to there. -/
theorem le_lcpLen_iff (l m : List α) (k : ℕ) :
    k ≤ lcpLen l m ↔ k ≤ l.length ∧ k ≤ m.length ∧ l.take k = m.take k := by
  induction l generalizing m k with
  | nil => cases k <;> simp
  | cons a as ih =>
    cases m with
    | nil => cases k <;> simp
    | cons b bs =>
      cases k with
      | zero => simp
      | succ k =>
        rw [lcpLen_cons]
        by_cases hab : a = b
        · simp [hab, ih]
        · simp [hab]

/-- Lists that are common prefixes of each other in full are the same. -/
theorem eq_of_lcpLen_eq {l m : List α} (hl : l.length ≤ lcpLen l m)
    (hm : m.length ≤ lcpLen l m) : l = m := by
  have h := ((le_lcpLen_iff l m (lcpLen l m)).mp (le_refl _)).2.2
  rwa [List.take_of_length_le hl, List.take_of_length_le hm] at h

/-- The common prefix has length `d` when the lists agree up to `d` and not beyond. -/
theorem lcpLen_eq_iff (l m : List α) (d : ℕ) :
    lcpLen l m = d ↔ d ≤ l.length ∧ d ≤ m.length ∧ l.take d = m.take d ∧
      (d = l.length ∨ d = m.length ∨ l[d]? ≠ m[d]?) := by
  induction l generalizing m d with
  | nil => cases d <;> simp
  | cons a as ih =>
    cases m with
    | nil => cases d <;> simp
    | cons b bs =>
      rw [lcpLen_cons]
      by_cases hab : a = b
      · cases d with
        | zero => simp [hab]
        | succ d => simp [hab, ih]
      · cases d with
        | zero => simp [hab]
        | succ d => simp [hab]

theorem lcpLen_append_left (p l m : List α) :
    lcpLen (p ++ l) (p ++ m) = p.length + lcpLen l m := by
  induction p with
  | nil => simp
  | cons a as ih => simp [lcpLen_cons, ih]; omega

/-- A shared prefix of length `d` can be split off. -/
theorem lcpLen_of_take_eq {l m : List α} {d : ℕ} (hl : d ≤ l.length)
    (h : l.take d = m.take d) : lcpLen l m = d + lcpLen (l.drop d) (m.drop d) := by
  conv_lhs => rw [← List.take_append_drop d l, ← List.take_append_drop d m, ← h]
  rw [lcpLen_append_left, List.length_take, Nat.min_eq_left hl]

end CommonPrefix

/-! ## Lexicographic order beyond a shared prefix -/

section Lex

variable {α : Type*} [LinearOrder α]

theorem append_lt_append_left_iff (p l m : List α) : p ++ l < p ++ m ↔ l < m := by
  induction p with
  | nil => simp
  | cons a as ih => rw [List.cons_append, List.cons_append, List.cons_lt_cons_iff, ih]; simp

/-- Lists that agree on their first `d` entries are compared by the rest. -/
theorem lt_iff_drop_lt {l m : List α} {d : ℕ} (h : l.take d = m.take d) :
    l < m ↔ l.drop d < m.drop d := by
  conv_lhs => rw [← List.take_append_drop d l, ← List.take_append_drop d m, ← h]
  exact append_lt_append_left_iff _ _ _

end Lex

end StringSampleSort.Library
