import StringSampleSort.Library.Slice
import Mathlib.Order.Max

/-!
# Split-end partitioning

The partition of multikey quicksort.  Two scans run towards each other; elements that are equal
to the pivot are collected at both ends of the array, and are exchanged with the smaller and the
larger ones when the scans have met.  The largest of the smaller elements and the smallest of the
larger ones are kept on the way.

## Main results

- `SplitEnd.Ok.scanUp`, `SplitEnd.Ok.scanDown`: what a scan preserves, and where it stops
- `SplitEnd.Ok.splitLoop`: the scans meet
- `exchange_blocks`: exchanging the ends of two neighbouring blocks exchanges the blocks
- `partition_ok`: the array is partitioned, and the extremes are right
-/

namespace StringSampleSort.Library

variable {α ι : Type*}

/-! ## Model -/

/-- `std::swap(A[i], A[j])`. -/
def swapAt (A : ℕ → α) (i j : ℕ) : ℕ → α := A ∘ Equiv.swap i j

/-- `std::swap_ranges(A + a, A + a + size, A + b)`. -/
def swapRanges (a b : ℕ) : ℕ → (ℕ → α) → ℕ → α
  | 0, A => A
  | k + 1, A => swapAt (swapRanges a b k A) (a + k) (b + k)

/-- The array and the indexes into it: `0 [===] leq [<<<] llt [???] rgt [>>>] req [===] n-1`. -/
structure SplitEnd (α ι : Type*) where
  array : ℕ → α
  leq : ℕ
  llt : ℕ
  rgt : ℕ
  req : ℕ
  max_lt : ι
  min_gt : ι

/-- A partitioned array, the sizes of its areas, and the extremes next to the pivot. -/
structure Partition (α ι : Type*) where
  array : ℕ → α
  num_lt : ℕ
  num_eq : ℕ
  num_gt : ℕ
  max_lt : ι
  min_gt : ι

section Model

variable [LinearOrder ι] (key : α → ι) (pivot : ι)

/-- The first inner loop, which moves `llt` up to an element above the pivot. -/
def scanUp : ℕ → SplitEnd α ι → SplitEnd α ι
  | 0, s => s
  | k + 1, s =>
    if s.llt ≤ s.rgt then
      let c := key (s.array s.llt)
      if pivot < c then { s with min_gt := min s.min_gt c }
      else if c = pivot then
        scanUp k { s with
          array := swapAt s.array s.leq s.llt
          leq := s.leq + 1
          llt := s.llt + 1 }
      else scanUp k { s with
        max_lt := max s.max_lt c
        llt := s.llt + 1 }
    else s

/-- The second inner loop, which moves `rgt` down to an element below the pivot. -/
def scanDown : ℕ → SplitEnd α ι → SplitEnd α ι
  | 0, s => s
  | k + 1, s =>
    if s.llt ≤ s.rgt then
      let c := key (s.array s.rgt)
      if c < pivot then { s with max_lt := max s.max_lt c }
      else if c = pivot then
        scanDown k { s with
          array := swapAt s.array s.req s.rgt
          req := s.req - 1
          rgt := s.rgt - 1 }
      else scanDown k { s with
        min_gt := min s.min_gt c
        rgt := s.rgt - 1 }
    else s

/-- So many rounds of the outer loop, each of which ends with an exchange. -/
def splitLoop : ℕ → SplitEnd α ι → SplitEnd α ι
  | 0, s => s
  | k + 1, s =>
    let s := scanUp key pivot (s.rgt + 1 - s.llt) s
    let s := scanDown key pivot (s.rgt + 1 - s.llt) s
    if s.llt > s.rgt then s
    else splitLoop k { s with
      array := swapAt s.array s.llt s.rgt
      llt := s.llt + 1
      rgt := s.rgt - 1 }

/-- The equal elements are swapped from both ends of `n` places to the center. -/
def SplitEnd.center (n : ℕ) (s : SplitEnd α ι) : Partition α ι :=
  let num_leq := s.leq
  let num_req := n - 1 - s.req
  let num_lt := s.llt - s.leq
  let num_gt := s.req - s.rgt
  let size1 := min num_leq num_lt
  let size2 := min num_req num_gt
  { array := swapRanges s.llt (n - size2) size2 (swapRanges 0 (s.llt - size1) size1 s.array)
    num_lt := num_lt
    num_eq := num_leq + num_req
    num_gt := num_gt
    max_lt := s.max_lt
    min_gt := s.min_gt }

/-- The partition of `n` elements by the first one.  The extremes start with `lo` and `hi`. -/
def partition (lo hi : ι) (n : ℕ) (A : ℕ → α) : Partition α ι :=
  (splitLoop key (key (A 0)) n ⟨A, 1, 1, n - 1, n - 1, lo, hi⟩).center n

end Model

/-! ## Exchanges -/

section Swaps

variable {A : ℕ → α} {i j p : ℕ}

@[simp] theorem swapAt_left (A : ℕ → α) (i j : ℕ) : swapAt A i j i = A j := by simp [swapAt]

@[simp] theorem swapAt_right (A : ℕ → α) (i j : ℕ) : swapAt A i j j = A i := by simp [swapAt]

theorem swapAt_of_ne (A : ℕ → α) (hi : p ≠ i) (hj : p ≠ j) : swapAt A i j p = A p := by
  simp [swapAt, Equiv.swap_apply_of_ne_of_ne hi hj]

theorem swapAt_perm (A : ℕ → α) {n : ℕ} (hi : i < n) (hj : j < n) :
    (contents (swapAt A i j) n).Perm (contents A n) := perm_swap A hi hj

/-- What `swap_ranges` leaves at each place, for ranges that do not overlap. -/
theorem swapRanges_apply (A : ℕ → α) {a b k : ℕ} (hab : a + k ≤ b) (p : ℕ) :
    swapRanges a b k A p =
      if a ≤ p ∧ p < a + k then A (b + (p - a))
      else if b ≤ p ∧ p < b + k then A (a + (p - b)) else A p := by
  induction k generalizing p with
  | zero => rw [swapRanges, if_neg (by omega), if_neg (by omega)]
  | succ k ih =>
    have ih := fun p => ih (by omega) p
    rw [swapRanges]
    by_cases hpa : p = a + k
    · rw [hpa, swapAt_left, ih, if_neg (by omega), if_neg (by omega), if_pos (by omega),
        Nat.add_sub_cancel_left]
    · by_cases hpb : p = b + k
      · rw [hpb, swapAt_right, ih, if_neg (by omega), if_neg (by omega), if_neg (by omega),
          if_pos (by omega), Nat.add_sub_cancel_left]
      · rw [swapAt_of_ne _ hpa hpb, ih]
        refine if_congr (by omega) rfl (if_congr (by omega) rfl rfl)

theorem swapRanges_perm (A : ℕ → α) {a b k n : ℕ} (ha : a + k ≤ n) (hb : b + k ≤ n) :
    (contents (swapRanges a b k A) n).Perm (contents A n) := by
  induction k with
  | zero => exact List.Perm.refl _
  | succ k ih =>
    exact (swapAt_perm _ (by omega) (by omega)).trans (ih (by omega) (by omega))

/-- Exchanging the outer ends of two neighbouring blocks, as far as the shorter one reaches,
exchanges the blocks. -/
theorem exchange_blocks (A : ℕ → α) {P Q : α → Prop} {a m k : ℕ}
    (hP : ∀ p, a ≤ p → p < a + m → P (A p)) (hQ : ∀ p, a + m ≤ p → p < a + m + k → Q (A p)) :
    let B := swapRanges a (a + m + k - min m k) (min m k) A
    (∀ p, a ≤ p → p < a + k → Q (B p)) ∧ (∀ p, a + k ≤ p → p < a + m + k → P (B p)) ∧
      ∀ p, p < a ∨ a + m + k ≤ p → B p = A p := by
  intro B
  have hB := swapRanges_apply A (a := a) (b := a + m + k - min m k) (k := min m k) (by omega)
  refine ⟨fun p h₁ h₂ => ?_, fun p h₁ h₂ => ?_, fun p hp => ?_⟩
  · rw [show B p = _ from hB p]
    split_ifs with h h'
    · exact hQ _ (by omega) (by omega)
    · omega
    · exact hQ _ (by omega) (by omega)
  · rw [show B p = _ from hB p]
    split_ifs with h h'
    · omega
    · exact hP _ (by omega) (by omega)
    · exact hP _ (by omega) (by omega)
  · rw [show B p = _ from hB p, if_neg (by omega), if_neg (by omega)]

end Swaps

/-! ## The scans -/

section Scans

variable [LinearOrder ι] {key : α → ι} {pivot lo hi : ι} {n : ℕ} {A₀ : ℕ → α}

/-- The areas between the indexes hold what they are for, and the extremes bound them and are
taken on. -/
structure SplitEnd.Ok (key : α → ι) (pivot lo hi : ι) (n : ℕ) (A₀ : ℕ → α) (s : SplitEnd α ι) :
    Prop where
  one_le : 1 ≤ s.leq
  leq_le : s.leq ≤ s.llt
  llt_le : s.llt ≤ s.rgt + 1
  rgt_le : s.rgt ≤ s.req
  req_lt : s.req < n
  perm : (contents s.array n).Perm (contents A₀ n)
  left : ∀ p < s.leq, key (s.array p) = pivot
  below : ∀ p, s.leq ≤ p → p < s.llt → key (s.array p) < pivot ∧ key (s.array p) ≤ s.max_lt
  above : ∀ p, s.rgt < p → p ≤ s.req → pivot < key (s.array p) ∧ s.min_gt ≤ key (s.array p)
  right : ∀ p, s.req < p → p < n → key (s.array p) = pivot
  max_lt : s.max_lt = lo ∨ ∃ x ∈ contents A₀ n, key x < pivot ∧ key x = s.max_lt
  min_gt : s.min_gt = hi ∨ ∃ x ∈ contents A₀ n, pivot < key x ∧ key x = s.min_gt

namespace SplitEnd.Ok

variable {s : SplitEnd α ι}

theorem mem (h : s.Ok key pivot lo hi n A₀) {p : ℕ} (hp : p < n) :
    s.array p ∈ contents A₀ n := h.perm.mem_iff.mp (mem_contents.mpr ⟨p, hp, rfl⟩)

/-- A larger maximum bounds the same elements, and is taken on by the new one. -/
theorem raise_max (h : s.Ok key pivot lo hi n A₀) {p : ℕ} (hp : p < n) (hlt : key (s.array p) < pivot) :
    Ok key pivot lo hi n A₀ { s with max_lt := max s.max_lt (key (s.array p)) } where
  __ := h
  below q h₁ h₂ := ⟨(h.below q h₁ h₂).1, (h.below q h₁ h₂).2.trans (le_max_left _ _)⟩
  max_lt := by
    rcases max_choice s.max_lt (key (s.array p)) with heq | heq
    · simpa only [heq] using h.max_lt
    · exact Or.inr ⟨_, h.mem hp, hlt, heq.symm⟩

/-- A smaller minimum bounds the same elements, and is taken on by the new one. -/
theorem lower_min (h : s.Ok key pivot lo hi n A₀) {p : ℕ} (hp : p < n) (hgt : pivot < key (s.array p)) :
    Ok key pivot lo hi n A₀ { s with min_gt := min s.min_gt (key (s.array p)) } where
  __ := h
  above q h₁ h₂ := ⟨(h.above q h₁ h₂).1, (min_le_left _ _).trans (h.above q h₁ h₂).2⟩
  min_gt := by
    rcases min_choice s.min_gt (key (s.array p)) with heq | heq
    · simpa only [heq] using h.min_gt
    · exact Or.inr ⟨_, h.mem hp, hgt, heq.symm⟩

/-- An element below the pivot is passed by `llt`. -/
theorem pass_lt (h : s.Ok key pivot lo hi n A₀) (hle : s.llt ≤ s.rgt)
    (hlt : key (s.array s.llt) < pivot) (hmax : key (s.array s.llt) ≤ s.max_lt) :
    Ok key pivot lo hi n A₀ { s with llt := s.llt + 1 } where
  __ := h
  leq_le := h.leq_le.trans (Nat.le_succ _)
  llt_le := Nat.succ_le_succ hle
  below q h₁ h₂ := by
    rcases Nat.lt_succ_iff_lt_or_eq.mp h₂ with h₂ | rfl
    · exact h.below q h₁ h₂
    · exact ⟨hlt, hmax⟩

/-- An element above the pivot is passed by `rgt`. -/
theorem pass_gt (h : s.Ok key pivot lo hi n A₀) (hle : s.llt ≤ s.rgt)
    (hgt : pivot < key (s.array s.rgt)) (hmin : s.min_gt ≤ key (s.array s.rgt)) :
    Ok key pivot lo hi n A₀ { s with rgt := s.rgt - 1 } where
  __ := h
  llt_le := by
    show s.llt ≤ s.rgt - 1 + 1
    have := h.one_le
    have := h.leq_le
    omega
  rgt_le := (Nat.sub_le _ _).trans h.rgt_le
  above q h₁ h₂ := by
    have h₁ : s.rgt - 1 < q := h₁
    by_cases hq : q = s.rgt
    · rw [hq]
      exact ⟨hgt, hmin⟩
    · exact h.above q (by omega) h₂

/-- An element equal to the pivot is moved to the left end. -/
theorem collect_left (h : s.Ok key pivot lo hi n A₀) (hle : s.llt ≤ s.rgt)
    (heq : key (s.array s.llt) = pivot) :
    Ok key pivot lo hi n A₀ { s with
      array := swapAt s.array s.leq s.llt
      leq := s.leq + 1
      llt := s.llt + 1 } := by
  have h₁ := h.leq_le
  have h₂ := h.rgt_le
  have h₃ := h.req_lt
  refine ⟨by simp, Nat.succ_le_succ h₁, Nat.succ_le_succ hle, h₂, h₃,
    (swapAt_perm _ (by omega) (by omega)).trans h.perm, fun p hp => ?_, fun p hp hp' => ?_,
    fun p hp hp' => ?_, fun p hp hp' => ?_, h.max_lt, h.min_gt⟩
  · dsimp only at hp ⊢
    rcases Nat.lt_succ_iff_lt_or_eq.mp hp with hp | rfl
    · rw [swapAt_of_ne _ (by omega) (by omega)]
      exact h.left p hp
    · rwa [swapAt_left]
  · -- the first element of the area moves behind its end
    dsimp only at hp hp' ⊢
    rcases Nat.lt_succ_iff_lt_or_eq.mp hp' with hp' | rfl
    · rw [swapAt_of_ne _ (by omega) (by omega)]
      exact h.below p (by omega) hp'
    · rw [swapAt_right]
      exact h.below _ (le_refl _) (by omega)
  · dsimp only at hp hp' ⊢
    rw [swapAt_of_ne _ (by omega) (by omega)]
    exact h.above p hp hp'
  · dsimp only at hp ⊢
    rw [swapAt_of_ne _ (by omega) (by omega)]
    exact h.right p hp hp'

/-- An element equal to the pivot is moved to the right end. -/
theorem collect_right (h : s.Ok key pivot lo hi n A₀) (hle : s.llt ≤ s.rgt)
    (heq : key (s.array s.rgt) = pivot) :
    Ok key pivot lo hi n A₀ { s with
      array := swapAt s.array s.req s.rgt
      req := s.req - 1
      rgt := s.rgt - 1 } := by
  have h₀ := h.one_le
  have h₁ := h.leq_le
  have h₂ := h.rgt_le
  have h₃ := h.req_lt
  refine ⟨h₀, h₁, ?_, Nat.sub_le_sub_right h₂ 1, (Nat.sub_le _ _).trans_lt h₃,
    (swapAt_perm _ (by omega) (by omega)).trans h.perm, fun p hp => ?_, fun p hp hp' => ?_,
    fun p hp hp' => ?_, fun p hp hp' => ?_, h.max_lt, h.min_gt⟩
  · show s.llt ≤ s.rgt - 1 + 1
    omega
  · dsimp only at hp ⊢
    rw [swapAt_of_ne _ (by omega) (by omega)]
    exact h.left p hp
  · dsimp only at hp hp' ⊢
    rw [swapAt_of_ne _ (by omega) (by omega)]
    exact h.below p hp hp'
  · dsimp only at hp hp' ⊢
    by_cases hpr : p = s.rgt
    · rw [hpr, swapAt_right]
      exact h.above _ (by omega) (le_refl _)
    · rw [swapAt_of_ne _ (by omega) (by omega)]
      exact h.above p (by omega) (by omega)
  · dsimp only at hp ⊢
    by_cases hpr : p = s.req
    · rwa [hpr, swapAt_left]
    · rw [swapAt_of_ne _ (by omega) (by omega)]
      exact h.right p (by omega) hp'

/-- The element at `llt` is above the pivot, and the minimum knows it. -/
def StopsUp (key : α → ι) (pivot : ι) (s : SplitEnd α ι) : Prop :=
  s.llt ≤ s.rgt → pivot < key (s.array s.llt) ∧ s.min_gt ≤ key (s.array s.llt)

/-- The element at `rgt` is below the pivot, and the maximum knows it. -/
def StopsDown (key : α → ι) (pivot : ι) (s : SplitEnd α ι) : Prop :=
  s.llt ≤ s.rgt → key (s.array s.rgt) < pivot ∧ key (s.array s.rgt) ≤ s.max_lt

/-- The first scan stops at an element above the pivot, or when it has passed `rgt`. -/
theorem scanUp {k : ℕ} (hk : s.rgt + 1 - s.llt ≤ k) (h : s.Ok key pivot lo hi n A₀) :
    let s' := Library.scanUp key pivot k s
    s'.Ok key pivot lo hi n A₀ ∧ StopsUp key pivot s' ∧ s'.rgt = s.rgt ∧ s.llt ≤ s'.llt := by
  induction k generalizing s with
  | zero => exact ⟨h, fun hle => by change s.llt ≤ s.rgt at hle; omega, rfl, le_refl _⟩
  | succ k ih =>
    rw [Library.scanUp]
    split
    · next hle =>
      have hn : s.llt < n := by
        have := h.rgt_le
        have := h.req_lt
        omega
      dsimp only
      split
      · next hgt => exact ⟨h.lower_min hn hgt, fun _ => ⟨hgt, min_le_right _ _⟩, rfl, le_refl _⟩
      · next hngt =>
        split
        · next heq =>
          obtain ⟨h₁, h₂, h₃, h₄⟩ := ih (by simp only; omega) (h.collect_left hle heq)
          exact ⟨h₁, h₂, h₃, (Nat.le_succ _).trans h₄⟩
        · next hne =>
          have hlt := lt_of_le_of_ne (not_lt.mp hngt) hne
          obtain ⟨h₁, h₂, h₃, h₄⟩ := ih (by simp only; omega)
            ((h.raise_max hn hlt).pass_lt hle hlt (le_max_right _ _))
          exact ⟨h₁, h₂, h₃, (Nat.le_succ _).trans h₄⟩
    · next hgt => exact ⟨h, fun hle => absurd hle hgt, rfl, le_refl _⟩

/-- The second scan stops at an element below the pivot, or when it has passed `llt`. -/
theorem scanDown {k : ℕ} (hk : s.rgt + 1 - s.llt ≤ k) (h : s.Ok key pivot lo hi n A₀)
    (hup : StopsUp key pivot s) :
    let s' := Library.scanDown key pivot k s
    s'.Ok key pivot lo hi n A₀ ∧ StopsUp key pivot s' ∧ StopsDown key pivot s' ∧
      s'.llt = s.llt ∧ s'.rgt ≤ s.rgt := by
  induction k generalizing s with
  | zero =>
    have hgt : ¬ s.llt ≤ s.rgt := by omega
    exact ⟨h, hup, fun hle => absurd hle hgt, rfl, le_refl _⟩
  | succ k ih =>
    rw [Library.scanDown]
    split
    · next hle =>
      have h₀ := h.one_le
      have h₁ := h.leq_le
      have h₂ := h.rgt_le
      have h₃ := h.req_lt
      have hn : s.rgt < n := by omega
      obtain ⟨hllt, hmin⟩ := hup hle
      dsimp only
      split
      · next hlt => exact ⟨h.raise_max hn hlt, hup, fun _ => ⟨hlt, le_max_right _ _⟩, rfl, le_refl _⟩
      · next hnlt =>
        split
        · next heq =>
          -- the element at `llt` is not this one
          have hne : s.llt ≠ s.rgt := fun hsame => hllt.ne' (hsame ▸ heq)
          obtain ⟨g₁, g₂, g₃, g₄, g₅⟩ := ih (by simp only; omega) (h.collect_right hle heq)
            fun _ => by
              show pivot < key (swapAt s.array s.req s.rgt s.llt) ∧
                s.min_gt ≤ key (swapAt s.array s.req s.rgt s.llt)
              rw [swapAt_of_ne _ (by omega) (by omega)]
              exact ⟨hllt, hmin⟩
          exact ⟨g₁, g₂, g₃, g₄, g₅.trans (Nat.sub_le _ _)⟩
        · next hne =>
          have hgt := lt_of_le_of_ne (not_lt.mp hnlt) (Ne.symm hne)
          obtain ⟨g₁, g₂, g₃, g₄, g₅⟩ := ih (by simp only; omega)
            ((h.lower_min hn hgt).pass_gt hle hgt (min_le_right _ _))
            fun _ => ⟨hllt, (min_le_left _ _).trans hmin⟩
          exact ⟨g₁, g₂, g₃, g₄, g₅.trans (Nat.sub_le _ _)⟩
    · next hgt => exact ⟨h, hup, fun hle => absurd hle hgt, rfl, le_refl _⟩

/-- The elements at which the scans have stopped are exchanged. -/
theorem exchange (h : s.Ok key pivot lo hi n A₀) (hle : s.llt ≤ s.rgt)
    (hup : StopsUp key pivot s) (hdown : StopsDown key pivot s) :
    s.llt < s.rgt ∧ Ok key pivot lo hi n A₀ { s with
      array := swapAt s.array s.llt s.rgt
      llt := s.llt + 1
      rgt := s.rgt - 1 } := by
  have h₀ := h.one_le
  have h₁ := h.leq_le
  have h₂ := h.rgt_le
  have h₃ := h.req_lt
  obtain ⟨hgt, hmin⟩ := hup hle
  obtain ⟨hlt, hmax⟩ := hdown hle
  have hne : s.llt ≠ s.rgt := fun hsame => by
    rw [← hsame] at hlt
    exact lt_asymm hlt hgt
  refine ⟨by omega, h₀, h₁.trans (Nat.le_succ _), ?_, (Nat.sub_le _ _).trans h₂, h₃,
    (swapAt_perm _ (by omega) (by omega)).trans h.perm, fun p hp => ?_, fun p hp hp' => ?_,
    fun p hp hp' => ?_, fun p hp hp' => ?_, h.max_lt, h.min_gt⟩
  · show s.llt + 1 ≤ s.rgt - 1 + 1
    omega
  · dsimp only at hp ⊢
    rw [swapAt_of_ne _ (by omega) (by omega)]
    exact h.left p hp
  · dsimp only at hp hp' ⊢
    rcases Nat.lt_succ_iff_lt_or_eq.mp hp' with hp' | rfl
    · rw [swapAt_of_ne _ (by omega) (by omega)]
      exact h.below p hp hp'
    · rw [swapAt_left]
      exact ⟨hlt, hmax⟩
  · dsimp only at hp ⊢
    by_cases hpr : p = s.rgt
    · rw [hpr, swapAt_right]
      exact ⟨hgt, hmin⟩
    · rw [swapAt_of_ne _ (by omega) hpr]
      exact h.above p (by omega) hp'
  · dsimp only at hp ⊢
    rw [swapAt_of_ne _ (by omega) (by omega)]
    exact h.right p hp hp'

/-- The scans meet. -/
theorem splitLoop {k : ℕ} (hk : s.rgt + 1 - s.llt < k) (h : s.Ok key pivot lo hi n A₀) :
    let s' := Library.splitLoop key pivot k s
    s'.Ok key pivot lo hi n A₀ ∧ s'.llt = s'.rgt + 1 := by
  induction k generalizing s with
  | zero => omega
  | succ k ih =>
    obtain ⟨h₁, hup, hrgt, hllt⟩ := h.scanUp (le_refl _)
    obtain ⟨h₂, hup', hdown, hllt', hrgt'⟩ := h₁.scanDown (le_refl _) hup
    rw [Library.splitLoop]
    dsimp only
    split
    · next hgt =>
      have hle := h₂.llt_le
      exact ⟨h₂, by omega⟩
    · next hle =>
      obtain ⟨hlt, h₃⟩ := h₂.exchange (not_lt.mp hle) hup' hdown
      refine ih ?_ h₃
      show _ - 1 + 1 - (_ + 1) < k
      omega

end SplitEnd.Ok

end Scans

/-! ## The partition -/

section Partition

variable [LinearOrder ι] {key : α → ι} {pivot lo hi : ι} {n : ℕ} {A : ℕ → α}

/-- The areas of a partitioned array, and the extremes next to the pivot. -/
structure Partition.Ok (key : α → ι) (pivot : ι) (n : ℕ) (A : ℕ → α) (r : Partition α ι) :
    Prop where
  size : r.num_lt + r.num_eq + r.num_gt = n
  eq_pos : 0 < r.num_eq
  perm : (contents r.array n).Perm (contents A n)
  lt : ∀ p < r.num_lt, key (r.array p) < pivot ∧ key (r.array p) ≤ r.max_lt
  eq : ∀ p, r.num_lt ≤ p → p < r.num_lt + r.num_eq → key (r.array p) = pivot
  gt : ∀ p, r.num_lt + r.num_eq ≤ p → p < n →
    pivot < key (r.array p) ∧ r.min_gt ≤ key (r.array p)
  max_lt : 0 < r.num_lt → ∃ p < r.num_lt, key (r.array p) = r.max_lt
  min_gt : 0 < r.num_gt → ∃ p, r.num_lt + r.num_eq ≤ p ∧ p < n ∧ key (r.array p) = r.min_gt

/-- Exchanging the ends leaves a partitioned array. -/
theorem SplitEnd.Ok.center {s : SplitEnd α ι} (h : s.Ok key pivot lo hi n A) (hlo : IsBot lo)
    (hhi : IsTop hi) (hmeet : s.llt = s.rgt + 1) : (s.center n).Ok key pivot n A := by
  have h₀ := h.one_le
  have h₁ := h.leq_le
  have h₂ := h.rgt_le
  have h₃ := h.req_lt
  set B := swapRanges 0 (s.llt - min s.leq (s.llt - s.leq)) (min s.leq (s.llt - s.leq)) s.array
    with hBdef
  -- the left ends
  have hleft := exchange_blocks s.array (P := fun x => key x = pivot)
    (Q := fun x => key x < pivot ∧ key x ≤ s.max_lt) (a := 0) (m := s.leq) (k := s.llt - s.leq)
    (fun p _ hp => h.left p (by omega)) (fun p hp hp' => h.below p (by omega) (by omega))
  rw [show 0 + s.leq + (s.llt - s.leq) = s.llt by omega] at hleft
  obtain ⟨hlt, heq, hkeep⟩ := hleft
  rw [← hBdef] at hlt heq hkeep
  -- the right ends
  have hright := exchange_blocks B (P := fun x => pivot < key x ∧ s.min_gt ≤ key x)
    (Q := fun x => key x = pivot) (a := s.llt) (m := s.req - s.rgt) (k := n - 1 - s.req)
    (fun p hp hp' => by
      rw [hkeep p (by omega)]
      exact h.above p (by omega) (by omega))
    (fun p hp hp' => by
      rw [hkeep p (by omega)]
      exact h.right p (by omega) (by omega))
  rw [show s.llt + (s.req - s.rgt) + (n - 1 - s.req) = n by omega,
    Nat.min_comm (s.req - s.rgt)] at hright
  obtain ⟨heq', hgt, hkeep'⟩ := hright
  have hperm : (contents (s.center n).array n).Perm (contents A n) :=
    (swapRanges_perm _ (by omega) (by omega)).trans
      ((swapRanges_perm _ (by omega) (by omega)).trans h.perm)
  have hltC : ∀ p < (s.center n).num_lt, key ((s.center n).array p) < pivot ∧
      key ((s.center n).array p) ≤ s.max_lt := fun p hp => by
    have hp : p < s.llt - s.leq := hp
    rw [show (s.center n).array p = B p from hkeep' p (by omega)]
    exact hlt p (Nat.zero_le _) (by omega)
  have heqC : ∀ p, (s.center n).num_lt ≤ p → p < (s.center n).num_lt + (s.center n).num_eq →
      key ((s.center n).array p) = pivot := fun p hp hp' => by
    have hp : s.llt - s.leq ≤ p := hp
    have hp' : p < s.llt - s.leq + (s.leq + (n - 1 - s.req)) := hp'
    by_cases hpl : p < s.llt
    · rw [show (s.center n).array p = B p from hkeep' p (by omega)]
      exact heq p (by omega) hpl
    · exact heq' p (by omega) (by omega)
  have hgtC : ∀ p, (s.center n).num_lt + (s.center n).num_eq ≤ p → p < n →
      pivot < key ((s.center n).array p) ∧ s.min_gt ≤ key ((s.center n).array p) :=
    fun p hp hp' => by
      have hp : s.llt - s.leq + (s.leq + (n - 1 - s.req)) ≤ p := hp
      exact hgt p (by omega) (by omega)
  refine ⟨?_, ?_, hperm, hltC, heqC, hgtC, fun hpos => ?_, fun hpos => ?_⟩
  · show s.llt - s.leq + (s.leq + (n - 1 - s.req)) + (s.req - s.rgt) = n
    omega
  · show 0 < s.leq + (n - 1 - s.req)
    omega
  · rcases h.max_lt with hbot | ⟨x, hx, hxlt, hxeq⟩
    · exact ⟨0, hpos, le_antisymm (hltC 0 hpos).2 (hbot.trans_le (hlo _))⟩
    · obtain ⟨p, hp, rfl⟩ := mem_contents.mp (hperm.mem_iff.mpr hx)
      refine ⟨p, ?_, hxeq⟩
      by_contra hge
      by_cases hpe : p < (s.center n).num_lt + (s.center n).num_eq
      · exact hxlt.ne (heqC p (not_lt.mp hge) hpe)
      · exact lt_asymm hxlt (hgtC p (not_lt.mp hpe) hp).1
  · have hsize : (s.center n).num_lt + (s.center n).num_eq < n := by
      have hpos : 0 < s.req - s.rgt := hpos
      show s.llt - s.leq + (s.leq + (n - 1 - s.req)) < n
      omega
    rcases h.min_gt with htop | ⟨x, hx, hxgt, hxeq⟩
    · exact ⟨_, le_refl _, hsize, le_antisymm ((hhi _).trans_eq htop.symm) (hgtC _ (le_refl _) hsize).2⟩
    · obtain ⟨p, hp, rfl⟩ := mem_contents.mp (hperm.mem_iff.mpr hx)
      refine ⟨p, ?_, hp, hxeq⟩
      by_contra hlt'
      by_cases hpl : p < (s.center n).num_lt
      · exact lt_asymm hxgt (hltC p hpl).1
      · exact hxgt.ne' (heqC p (not_lt.mp hpl) (not_le.mp hlt'))

/-- Before the first scan only the pivot is known. -/
theorem SplitEnd.Ok.start (key : α → ι) (lo hi : ι) (A : ℕ → α) (hn : 0 < n) :
    SplitEnd.Ok key (key (A 0)) lo hi n A ⟨A, 1, 1, n - 1, n - 1, lo, hi⟩ := by
  refine ⟨le_refl _, le_refl _, ?_, le_refl _, ?_, List.Perm.refl _, fun p hp => ?_,
    fun p hp hp' => ?_, fun p hp hp' => ?_, fun p hp hp' => ?_, Or.inl rfl, Or.inl rfl⟩
  · show 1 ≤ n - 1 + 1
    omega
  · show n - 1 < n
    omega
  · rw [Nat.lt_one_iff.mp hp]
  · exact absurd hp' (not_lt.mpr hp)
  · exact absurd hp' (not_le.mpr hp)
  · have hp : n - 1 < p := hp
    omega

/-- The array is partitioned by its first element. -/
theorem partition_ok (hlo : IsBot lo) (hhi : IsTop hi) (hn : 0 < n) :
    (partition key lo hi n A).Ok key (key (A 0)) n A := by
  obtain ⟨hok, hmeet⟩ := (SplitEnd.Ok.start key lo hi A hn).splitLoop (k := n) (by simp only; omega)
  exact hok.center hlo hhi hmeet

end Partition

end StringSampleSort.Library
