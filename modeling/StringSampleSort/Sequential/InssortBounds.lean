import StringSampleSort.Sequential.RadixSort
import StringSampleSort.Sequential.SampleSort

/-!
# Insertion sort within bounds

The two insertion sorts of `src/sequential/inssort.hpp` with all their accesses checked: `inssort`,
which counts down with an `int` and reads characters through raw pointers, and `inssort_generic`,
which counts down with a `size_t` and compares by the predicates of the string set.

The loop of `inssort_generic` ends with `--n != 0`, so an empty array makes the counter wrap.

## Main results

- `inssortCompare_eq`: a comparison reads no character behind a terminator
- `inssortChecked_eq`, `inssortGenericChecked_eq`: all accesses are within bounds
- `inssortGeneric_iff_nonempty`: both sorts leave the same arrangement, unless the array is empty
-/

namespace StringSampleSort

open Library Slice

variable {mem : ℕ → CharType}

/-! ## Model -/

/-- `*p`, for a pointer into the string or to its terminator. -/
def CString.read (s : CString mem) (p : ℕ) : Option CharType :=
  if s.ptr ≤ p ∧ p ≤ s.ptr + s.len then some (mem p) else none

/-- `for (; *s == *t && *s != 0; ++s, ++t);` and then `*s <= *t`, for at most `fuel` rounds. -/
def inssortCompare (a b : CString mem) : ℕ → ℕ → ℕ → Option Bool
  | 0, _, _ => none
  | fuel + 1, s, t =>
    (a.read s).bind fun c => (b.read t).bind fun c' =>
      if c = c' ∧ c ≠ 0 then inssortCompare a b fuel (s + 1) (t + 1) else some (decide (c ≤ c'))

/-- The comparison of `inssort` from `s = *(pj-1)+d, t = tmp+d` on. -/
def inssortLeqChecked (d : ℤ) (a b : CString mem) : Option Bool :=
  inssortCompare a b (a.len + 1) (a.ptr + d).toNat (b.ptr + d).toNat

/-- `inssort(str, n, d)`. -/
def inssortChecked (strings : ℕ → CString mem) (n d : ℤ) : Option (ℕ → CString mem) :=
  insertionLoopChecked n.toNat (inssortLeqChecked d) (n - 1).toNat 1 strings

/-- `inssort_generic(ss, depth)` for `n` strings. -/
def inssortGenericChecked {S : Type} (ss : StringSet S) (strings : ℕ → S) (n depth : ℕ) :
    Option (ℕ → S) :=
  insertionLoopChecked n (fun a b => some (leqAtMismatch ss depth a b)) (decrementRounds n) 1 strings

/-! ## Comparisons -/

section Compare

variable {a b : CString mem} {w : List CharType} {depth : ℕ}

theorem CString.read_eq (a : CString mem) {k : ℕ} (hk : k ≤ a.len) :
    a.read (a.ptr + k) = some (mem (a.ptr + k)) := if_pos ⟨by omega, by omega⟩

theorem SharePrefix.le_len (h : SharePrefix depth w ((UCharStringSet mem).chars a)) :
    depth ≤ a.len := by
  have hle := h.right
  rwa [StringSet.length_chars] at hle

/-- The scan reads up to the terminators and no further. -/
theorem inssortCompare_eq {fuel i j : ℕ} (hi : i ≤ a.len) (hj : j ≤ b.len)
    (hfuel : a.len - i ≤ fuel) :
    inssortCompare a b (fuel + 1) (a.ptr + i) (b.ptr + j) =
      some ((UCharStringSet mem).isLeq a
        ((UCharStringSet mem).scanEqual a b fuel (a.ptr + i) (b.ptr + j)).1 b
        ((UCharStringSet mem).scanEqual a b fuel (a.ptr + i) (b.ptr + j)).2) := by
  have hleq : ∀ s t, (UCharStringSet mem).isLeq a s b t = decide (mem s ≤ mem t) := fun s t =>
    decide_eq_decide.mpr (by simp [charVal, BitVec.le_def])
  have hequal : ∀ s t, (UCharStringSet mem).isEqual a s b t = true ↔ mem s = mem t ∧ mem s ≠ 0 :=
    fun s t => by simp [UCharStringSet, GenericCharStringSet]
  induction fuel generalizing i j with
  | zero =>
    -- the scan of a string that has ended stops at once
    have hend : mem (a.ptr + i) = 0 := by rw [show i = a.len by omega, a.nul]
    rw [inssortCompare, a.read_eq hi, b.read_eq hj, Option.bind_some, Option.bind_some,
      if_neg (fun h => h.2 hend), StringSet.scanEqual, hleq]
  | succ fuel ih =>
    rw [inssortCompare, a.read_eq hi, b.read_eq hj, Option.bind_some, Option.bind_some,
      StringSet.scanEqual]
    by_cases h : mem (a.ptr + i) = mem (b.ptr + j) ∧ mem (a.ptr + i) ≠ 0
    · -- neither string has ended
      have hi' : i ≠ a.len := fun heq => h.2 (heq ▸ a.nul)
      have hj' : j ≠ b.len := fun heq => h.2 (h.1.trans (heq ▸ b.nul))
      have hi'' : i < a.len := Nat.lt_of_le_of_ne hi hi'
      have hj'' : j < b.len := Nat.lt_of_le_of_ne hj hj'
      rw [if_pos h, if_pos ((hequal _ _).mpr h)]
      exact ih hi'' hj'' (by omega)
    · rw [if_neg h, if_neg (fun hb => h ((hequal _ _).mp hb)), hleq]

/-- From a shared depth on, the comparison stays within both strings. -/
theorem inssortLeqChecked_eq (ha : depth ≤ a.len) (hb : depth ≤ b.len) :
    inssortLeqChecked (depth : ℤ) a b = some (inssortLeq mem depth a b) := by
  rw [inssortLeqChecked, inssortLeq, ← Nat.cast_add, ← Nat.cast_add, Int.toNat_natCast,
    Int.toNat_natCast, inssortCompare_eq ha hb (Nat.sub_le _ _)]

/-- Both sorts compare alike. -/
theorem leqAtMismatch_eq_inssortLeq (a b : CString mem) (depth : ℕ) :
    leqAtMismatch (UCharStringSet mem) depth a b = inssortLeq mem depth a b := by
  rw [inssortLeq, ← Nat.cast_add, ← Nat.cast_add, Int.toNat_natCast, Int.toNat_natCast]
  rfl

/-- The comparison is exact. -/
theorem inssortLeq_iff (ha : SharePrefix depth w ((UCharStringSet mem).chars a))
    (hb : SharePrefix depth w ((UCharStringSet mem).chars b)) :
    inssortLeq mem depth a b = true ↔
      (UCharStringSet mem).chars a ≤ (UCharStringSet mem).chars b := by
  have hss := UCharStringSet.sortable mem
  rw [← leqAtMismatch_eq_inssortLeq, leqAtMismatch, hss.lawful.mismatch_eq (ha.symm.trans hb)]
  exact hss.isLeq_iff a b _ rfl

end Compare

/-! ## The sorts -/

section Sorts

variable {strings : ℕ → CString mem} {n depth : ℕ}

/-- Strings that share their depth share it with the first one. -/
theorem SharesDepth.shares (h : SharesDepth (UCharStringSet mem).chars strings n depth) :
    ∃ w, ∀ p < n, SharePrefix depth w ((UCharStringSet mem).chars (strings p)) := by
  rcases Nat.eq_zero_or_pos n with rfl | hn
  · exact ⟨[], fun p hp => absurd hp (Nat.not_lt_zero p)⟩
  · exact ⟨_, h 0 hn⟩

/-- `inssort` stays within bounds, whatever the number of strings is. -/
theorem inssortChecked_eq (hn : n < 2 ^ 31) (hdepth : depth < 2 ^ 31)
    (hshare : SharesDepth (UCharStringSet mem).chars strings n depth) :
    inssortChecked strings (toInt n) (toInt depth) =
      some (inssort strings (toInt n) (toInt depth)) := by
  obtain ⟨w, hw⟩ := hshare.shares
  rw [inssortChecked, inssort, toInt_eq hn, toInt_eq hdepth, Int.toNat_natCast,
    show ((n : ℤ) - 1).toNat = n - 1 by omega]
  have hbounds := insertionLoopChecked_eq (inssortLeqChecked (depth : ℤ)) (inssortLeq mem depth)
    (D := fun s => SharePrefix depth w ((UCharStringSet mem).chars s)) (k := 0) (r := n - 1)
    (fun x y hx hy => inssortLeqChecked_eq hx.le_len hy.le_len) hw (by omega)
  rwa [Nat.zero_add, Nat.zero_add] at hbounds

/-- `inssort_generic` stays within bounds unless the array is empty, and compares as `inssort`
does. -/
theorem inssortGenericChecked_eq (hpos : 0 < n) :
    inssortGenericChecked (UCharStringSet mem) strings n depth =
      some (insertionRounds (inssortLeq mem depth) (n - 1) strings) := by
  have hbounds := insertionLoopChecked_eq
    (fun a b => some (leqAtMismatch (UCharStringSet mem) depth a b)) (inssortLeq mem depth)
    (n := n) (A := strings) (D := fun _ => True) (k := 0) (r := n - 1)
    (fun x y _ _ => congrArg some (leqAtMismatch_eq_inssortLeq x y depth)) (fun _ _ => trivial)
    (by omega)
  rw [Nat.zero_add, Nat.zero_add] at hbounds
  rwa [inssortGenericChecked, show decrementRounds n = n - 1 from if_neg hpos.ne']

/-- For an empty array the counter wraps, and the first round reads behind the array. -/
theorem inssortGenericChecked_empty {S : Type} (ss : StringSet S) (A : ℕ → S) (depth : ℕ) :
    inssortGenericChecked ss A 0 depth = none := by
  rw [inssortGenericChecked, show decrementRounds 0 = (2 ^ 64 - 2) + 1 from rfl,
    insertionLoopChecked, readAt_of_ge A (Nat.zero_le 1)]
  rfl

/-- `inssort` is a stable sort. -/
theorem inssort_stable (hn : n < 2 ^ 31) (hdepth : depth < 2 ^ 31)
    (hshare : SharesDepth (UCharStringSet mem).chars strings n depth) :
    StableSort (UCharStringSet mem).chars strings n
      (inssort strings (toInt n) (toInt depth)) := by
  obtain ⟨w, hw⟩ := hshare.shares
  rw [inssort, toInt_eq hn, toInt_eq hdepth, show ((n : ℤ) - 1).toNat = n - 1 by omega]
  exact insertionRounds_stable (fun x y => inssortLeq_iff) hw

/-- The generic insertion sort stays within the array and leaves what the plain one leaves, the
stable sorted arrangement, exactly when the array is not empty. -/
theorem inssortGeneric_iff_nonempty (strings : ℕ → CString mem) {n depth : ℕ} (hn : n < 2 ^ 31)
    (hdepth : depth < 2 ^ 31) (hshare : SharesDepth (UCharStringSet mem).chars strings n depth) :
    (∃ B, inssortGenericChecked (UCharStringSet mem) strings n depth = some B ∧
      inssortChecked strings (toInt n) (toInt depth) = some B ∧
      StableSort (UCharStringSet mem).chars strings n B) ↔ n ≠ 0 := by
  refine ⟨fun ⟨B, hB, _⟩ hzero => ?_, fun hne => ?_⟩
  · rw [hzero, inssortGenericChecked_empty] at hB
    exact absurd hB (by simp)
  · refine ⟨_, ?_, inssortChecked_eq hn hdepth hshare, inssort_stable hn hdepth hshare⟩
    rw [inssortGenericChecked_eq (Nat.pos_of_ne_zero hne), inssort, toInt_eq hn, toInt_eq hdepth,
      show ((n : ℤ) - 1).toNat = n - 1 by omega]

theorem inssortGeneric_iff_nonempty_words :
    (∃ B, inssortGenericChecked (UCharStringSet wordMem) word 5 0 = some B ∧
      inssortChecked word (toInt 5) (toInt 0) = some B ∧
      StableSort (UCharStringSet wordMem).chars word 5 B) ↔ 5 ≠ 0 :=
  inssortGeneric_iff_nonempty word (by norm_num) (by norm_num)
    fun _ _ _ _ => SharePrefix.zero _ _

/-- An empty array is read behind its end by the generic sort, while `inssort` leaves it alone. -/
theorem inssortGeneric_empty_fails :
    ¬ ∃ B, inssortGenericChecked (UCharStringSet fun _ => 0) (fun _ => emptyString) 0 0 = some B ∧
      inssortChecked (fun _ => emptyString) (toInt 0) (toInt 0) = some B ∧
      StableSort (UCharStringSet fun _ => 0).chars (fun _ => emptyString) 0 B := by
  rintro ⟨B, hB, -⟩
  rw [inssortGenericChecked_empty] at hB
  exact absurd hB (by simp)

end Sorts

end StringSampleSort
