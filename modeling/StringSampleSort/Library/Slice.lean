import StringSampleSort.Library.Buckets
import Mathlib.Data.List.Sort

/-!
# Slices of arrays

The elements of an array from one place on, and how an array is related to its sorted
rearrangement: when elements are arranged by classes that follow the order, each class takes
up the same places in both.

## Main results

- `Slice.perm_widen`: rearranging a part rearranges the whole
- `Slice.class_eq`: arrays that are arranged by classes have the same class at every place
- `Slice.perm_class`: so the elements of one class are a rearrangement of each other
-/

namespace StringSampleSort.Library

variable {α β ι : Type*}

/-- The `n` elements of an array from `lo` on. -/
def slice (A : ℕ → α) (lo n : ℕ) : List α := contents (fun i => A (lo + i)) n

/-- The place `p` is one of the `n` places from `lo` on. -/
def InWindow (lo n p : ℕ) : Prop := lo ≤ p ∧ p < lo + n

instance (lo n p : ℕ) : Decidable (InWindow lo n p) := inferInstanceAs (Decidable (_ ∧ _))

namespace Slice

@[simp] theorem length_slice (A : ℕ → α) (lo n : ℕ) : (slice A lo n).length = n :=
  length_contents _ n

theorem getElem?_slice (A : ℕ → α) (lo : ℕ) {n i : ℕ} (hi : i < n) :
    (slice A lo n)[i]? = some (A (lo + i)) := by
  simp [slice, contents, hi]

theorem mem_slice {A : ℕ → α} {lo n : ℕ} {x : α} :
    x ∈ slice A lo n ↔ ∃ p, InWindow lo n p ∧ A p = x := by
  rw [slice, mem_contents]
  constructor
  · rintro ⟨i, hi, rfl⟩
    exact ⟨lo + i, ⟨Nat.le_add_right .., Nat.add_lt_add_left hi lo⟩, rfl⟩
  · rintro ⟨p, ⟨hlo, hhi⟩, rfl⟩
    exact ⟨p - lo, by omega, by rw [Nat.add_sub_cancel' hlo]⟩

theorem slice_congr {A B : ℕ → α} {lo n : ℕ} (h : ∀ p, InWindow lo n p → A p = B p) :
    slice A lo n = slice B lo n :=
  contents_congr fun _ hi => h _ ⟨Nat.le_add_right .., Nat.add_lt_add_left hi lo⟩

theorem slice_zero (A : ℕ → α) (n : ℕ) : slice A 0 n = contents A n := by
  simp only [slice, Nat.zero_add]

theorem map_slice (f : α → β) (A : ℕ → α) (lo n : ℕ) :
    (slice A lo n).map f = slice (f ∘ A) lo n := by
  simp [slice, contents]

theorem slice_append (A : ℕ → α) (lo m n : ℕ) :
    slice A lo (m + n) = slice A lo m ++ slice A (lo + m) n := by
  simp only [slice, contents, List.range_add, List.map_append, List.map_map]
  refine congrArg _ (List.map_congr_left fun _ _ => ?_)
  rw [Function.comp_apply, Nat.add_assoc]

/-- A slice in three parts. -/
theorem slice_split (A : ℕ → α) {lo n s m : ℕ} (hlo : lo ≤ s) (hhi : s + m ≤ lo + n) :
    slice A lo n = slice A lo (s - lo) ++ (slice A s m ++ slice A (s + m) (lo + n - (s + m))) := by
  have h₁ := slice_append A lo (s - lo) (n - (s - lo))
  have h₂ := slice_append A s m (lo + n - (s + m))
  rw [show s - lo + (n - (s - lo)) = n by omega, show lo + (s - lo) = s by omega] at h₁
  rw [show m + (lo + n - (s + m)) = n - (s - lo) by omega] at h₂
  rw [h₁, h₂]

/-- Rearranging a part rearranges the whole. -/
theorem perm_widen {A B : ℕ → α} {lo n s m : ℕ} (h : (slice A s m).Perm (slice B s m))
    (hout : ∀ p, ¬ InWindow s m p → A p = B p) (hlo : lo ≤ s) (hhi : s + m ≤ lo + n) :
    (slice A lo n).Perm (slice B lo n) := by
  rw [slice_split A hlo hhi, slice_split B hlo hhi]
  have hfront : slice A lo (s - lo) = slice B lo (s - lo) :=
    slice_congr fun p hp => hout p fun hin => by
      have := hp.2
      have := hin.1
      omega
  have hback : slice A (s + m) (lo + n - (s + m)) = slice B (s + m) (lo + n - (s + m)) :=
    slice_congr fun p hp => hout p fun hin => by
      have := hp.1
      have := hin.2
      omega
  rw [hfront, hback]
  exact (h.append_right _).append_left _

/-- The filter of a slice by the places of a part. -/
theorem filter_slice {A : ℕ → α} {q : α → Bool} {lo n s m : ℕ} (hlo : lo ≤ s)
    (hhi : s + m ≤ lo + n) (h : ∀ p, InWindow lo n p → (q (A p) = true ↔ InWindow s m p)) :
    (slice A lo n).filter q = slice A s m := by
  rw [slice_split A hlo hhi, List.filter_append, List.filter_append]
  have hfront : (slice A lo (s - lo)).filter q = [] := by
    rw [List.filter_eq_nil_iff]
    intro x hx
    obtain ⟨p, ⟨h₁, h₂⟩, rfl⟩ := mem_slice.mp hx
    rw [h p ⟨h₁, by omega⟩]
    exact fun hin => by have := hin.1; omega
  have hmid : (slice A s m).filter q = slice A s m := by
    rw [List.filter_eq_self]
    intro x hx
    obtain ⟨p, hp, rfl⟩ := mem_slice.mp hx
    exact (h p ⟨hlo.trans hp.1, hp.2.trans_le hhi⟩).mpr hp
  have hback : (slice A (s + m) (lo + n - (s + m))).filter q = [] := by
    rw [List.filter_eq_nil_iff]
    intro x hx
    obtain ⟨p, ⟨h₁, h₂⟩, rfl⟩ := mem_slice.mp hx
    rw [h p ⟨by omega, by omega⟩]
    exact fun hin => by have := hin.2; omega
  rw [hfront, hmid, hback, List.nil_append, List.append_nil]

/-- The array in which the window from `lo` on is overwritten by another array. -/
def splice (A : ℕ → α) (lo n : ℕ) (B : ℕ → α) (p : ℕ) : α :=
  if InWindow lo n p then B (p - lo) else A p

theorem splice_of_in (A B : ℕ → α) {lo n p : ℕ} (hp : InWindow lo n p) :
    splice A lo n B p = B (p - lo) := if_pos hp

theorem splice_of_not_in (A B : ℕ → α) {lo n p : ℕ} (hp : ¬ InWindow lo n p) :
    splice A lo n B p = A p := if_neg hp

theorem splice_add (A B : ℕ → α) (lo : ℕ) {n i : ℕ} (hi : i < n) :
    splice A lo n B (lo + i) = B i := by
  rw [splice_of_in A B ⟨Nat.le_add_right .., Nat.add_lt_add_left hi lo⟩, Nat.add_sub_cancel_left]

theorem slice_splice (A B : ℕ → α) (lo n : ℕ) : slice (splice A lo n B) lo n = contents B n :=
  contents_congr fun _ hi => splice_add A B lo hi

theorem splice_zero (A B : ℕ → α) (lo : ℕ) : splice A lo 0 B = A := by
  funext p
  exact splice_of_not_in A B fun h => absurd h.2 (not_lt.mpr h.1)

/-- A window that is one place longer. -/
theorem splice_succ (A B : ℕ → α) (lo n : ℕ) :
    splice A lo (n + 1) B = Function.update (splice A lo n B) (lo + n) (B n) := by
  funext p
  by_cases hp : p = lo + n
  · subst hp
    rw [Function.update_self, splice_add A B lo (Nat.lt_succ_self n)]
  · rw [Function.update_of_ne hp, splice, splice]
    refine if_congr ?_ rfl rfl
    rw [InWindow, InWindow]
    omega

/-- The second of two writes to a window remains. -/
theorem splice_splice (A B C : ℕ → α) (lo n : ℕ) :
    splice (splice A lo n B) lo n C = splice A lo n C := by
  funext p
  by_cases hp : InWindow lo n p
  · rw [splice_of_in _ _ hp, splice_of_in _ _ hp]
  · rw [splice_of_not_in _ _ hp, splice_of_not_in _ _ hp, splice_of_not_in _ _ hp]

/-- Overwriting a window with itself changes nothing. -/
theorem splice_self (A : ℕ → α) (lo n : ℕ) : splice A lo n (fun i => A (lo + i)) = A := by
  funext p
  rw [splice]
  split
  · next hp => rw [Nat.add_sub_cancel' hp.1]
  · rfl

section Sorted

variable [LinearOrder ι]

/-- The array does not decrease within a window. -/
def MonotoneIn (A : ℕ → ι) (lo n : ℕ) : Prop :=
  ∀ p q, InWindow lo n p → InWindow lo n q → p ≤ q → A p ≤ A q

theorem MonotoneIn.sub {A : ℕ → ι} {lo n s m : ℕ} (h : MonotoneIn A lo n) (hlo : lo ≤ s)
    (hhi : s + m ≤ lo + n) : MonotoneIn A s m := fun p q hp hq =>
  h p q ⟨hlo.trans hp.1, hp.2.trans_le hhi⟩ ⟨hlo.trans hq.1, hq.2.trans_le hhi⟩

theorem MonotoneIn.pairwise {A : ℕ → ι} {lo n : ℕ} (h : MonotoneIn A lo n) :
    (slice A lo n).Pairwise (· ≤ ·) := by
  refine List.pairwise_map.mpr (List.pairwise_lt_range.imp_of_mem fun hi hj hij => ?_)
  rw [List.mem_range] at hi hj
  exact h _ _ ⟨by omega, by omega⟩ ⟨by omega, by omega⟩ (by omega)

/-- Rearrangements of each other that both do not decrease are the same. -/
theorem eq_of_monotone {A B : ℕ → ι} {lo n : ℕ} (hperm : (slice A lo n).Perm (slice B lo n))
    (hA : MonotoneIn A lo n) (hB : MonotoneIn B lo n) {p : ℕ} (hp : InWindow lo n p) :
    A p = B p := by
  have heq := hperm.eq_of_pairwise (fun _ _ _ _ => le_antisymm) hA.pairwise hB.pairwise
  have hget := congrArg (fun l => l[p - lo]?) heq
  have hlt : p - lo < n := by
    have := hp.1
    have := hp.2
    omega
  simpa only [getElem?_slice _ _ hlt, Option.some_inj, Nat.add_sub_cancel' hp.1] using hget

/-- The elements of a window in sorted order, from the same place on; a smallest element stands in
front of them. -/
def sortedFrom (A : ℕ → ι) (lo n : ℕ) (bot : ι) (p : ℕ) : ι :=
  if lo ≤ p then ((slice A lo n).insertionSort (· ≤ ·)).getD (p - lo) bot else bot

theorem sortedFrom_outside (A : ℕ → ι) {lo n : ℕ} {bot : ι} {p : ℕ} (hp : ¬ InWindow lo n p) :
    sortedFrom A lo n bot p = bot := by
  rw [sortedFrom]
  split
  · next hlo =>
    have hge : n ≤ p - lo := not_lt.mp fun hlt => hp ⟨hlo, by omega⟩
    rw [List.getD_eq_getElem?_getD, List.getElem?_eq_none, Option.getD_none]
    rwa [List.length_insertionSort, length_slice]
  · rfl

theorem length_insertionSort_slice (A : ℕ → ι) (lo n : ℕ) :
    ((slice A lo n).insertionSort (· ≤ ·)).length = n := by
  rw [List.length_insertionSort, length_slice]

theorem slice_sortedFrom (A : ℕ → ι) (lo n : ℕ) (bot : ι) :
    (slice (sortedFrom A lo n bot) lo n).Perm (slice A lo n) := by
  have heq : slice (sortedFrom A lo n bot) lo n = (slice A lo n).insertionSort (· ≤ ·) := by
    refine List.ext_getElem? fun i => ?_
    rcases Nat.lt_or_ge i n with hi | hi
    · rw [getElem?_slice _ _ hi, sortedFrom, if_pos (Nat.le_add_right ..), Nat.add_sub_cancel_left,
        List.getD_eq_getElem?_getD,
        List.getElem?_eq_getElem (by rwa [length_insertionSort_slice]), Option.getD_some]
    · rw [List.getElem?_eq_none (by rwa [length_slice]),
        List.getElem?_eq_none (by rwa [length_insertionSort_slice])]
  rw [heq]
  exact List.perm_insertionSort _ _

theorem monotone_sortedFrom (A : ℕ → ι) (lo n : ℕ) {bot : ι} (hbot : ∀ x, bot ≤ x) :
    MonotoneIn (sortedFrom A lo n bot) 0 (lo + n) := by
  intro p q _ hq hpq
  by_cases hp : lo ≤ p
  · have hlen := length_insertionSort_slice A lo n
    have hlt : q - lo < n := by
      have := hq.2
      omega
    rw [sortedFrom, sortedFrom, if_pos hp, if_pos (hp.trans hpq), List.getD_eq_getElem?_getD,
      List.getD_eq_getElem?_getD, List.getElem?_eq_getElem (by omega),
      List.getElem?_eq_getElem (by omega), Option.getD_some, Option.getD_some]
    rcases Nat.eq_or_lt_of_le hpq with rfl | hlt'
    · exact le_refl _
    · exact List.pairwise_iff_getElem.mp (List.pairwise_insertionSort (· ≤ ·) (slice A lo n)) _ _ _
        _ (by omega)
  · rw [sortedFrom, if_neg hp]
    exact hbot _

/-- Arrays that are arranged by classes have the same class at every place. -/
theorem class_eq {A B : ℕ → α} (c : α → ι) {lo n : ℕ}
    (hperm : (slice A lo n).Perm (slice B lo n)) (hA : MonotoneIn (c ∘ A) lo n)
    (hB : MonotoneIn (c ∘ B) lo n) {p : ℕ} (hp : InWindow lo n p) : c (A p) = c (B p) := by
  refine eq_of_monotone ?_ hA hB hp
  rw [← map_slice, ← map_slice]
  exact hperm.map c

/-- The places of a class hold rearrangements of each other. -/
theorem perm_class {A B : ℕ → α} (c : α → ι) {lo n s m : ℕ} {k : ι}
    (hperm : (slice A lo n).Perm (slice B lo n)) (hA : MonotoneIn (c ∘ A) lo n)
    (hB : MonotoneIn (c ∘ B) lo n) (hlo : lo ≤ s) (hhi : s + m ≤ lo + n)
    (hclass : ∀ p, InWindow lo n p → (c (A p) = k ↔ InWindow s m p)) :
    (slice A s m).Perm (slice B s m) := by
  have hfilter := hperm.filter fun x => decide (c x = k)
  rwa [filter_slice hlo hhi fun p hp => by rw [decide_eq_true_iff]; exact hclass p hp,
    filter_slice hlo hhi fun p hp => by
      rw [decide_eq_true_iff, ← class_eq c hperm hA hB hp]; exact hclass p hp] at hfilter

/-- An array is split into elements up to `a` and elements from `b` on.  In sorted order `a` and `b`
are neighbours, at the place where it is split. -/
theorem neighbours_of_split {A B : ℕ → ι} {n m : ℕ} {a b : ι}
    (hperm : (contents B n).Perm (contents A n)) (hB : MonotoneIn B 0 n) (hab : a < b)
    (hlow : ∀ i < m, A i ≤ a) (hhigh : ∀ i, m ≤ i → i < n → b ≤ A i)
    (ha : ∃ i < m, A i = a) (hb : ∃ i, m ≤ i ∧ i < n ∧ A i = b) :
    B (m - 1) = a ∧ B m = b := by
  obtain ⟨i, hi, hia⟩ := ha
  obtain ⟨j, hj, hjn, hjb⟩ := hb
  have hbelow : ∀ p < n, A p < b ↔ p < m := fun p hp =>
    ⟨fun hlt => not_le.mp fun hge => (hhigh p hge hp).not_gt hlt,
      fun hlt => (hlow p hlt).trans_lt hab⟩
  -- both arrays are arranged by being below `b`
  have hclass : ∀ p < n, B p < b ↔ p < m := by
    intro p hp
    have hslices : (slice B 0 n).Perm (slice A 0 n) := by rwa [slice_zero, slice_zero]
    have h := class_eq (fun x => decide (b ≤ x)) hslices (fun p q hp hq hpq => ?_)
      (fun p q hp hq hpq => ?_) (p := p) ⟨Nat.zero_le _, by omega⟩
    · rw [decide_eq_decide, ← not_lt, ← not_lt, not_iff_not, hbelow p hp] at h
      exact h
    · simp only [Function.comp_apply, Bool.le_iff_imp, decide_eq_true_eq]
      exact fun h => h.trans (hB p q hp hq hpq)
    · simp only [Function.comp_apply, Bool.le_iff_imp, decide_eq_true_eq]
      have := hq.2
      have := hp.2
      rw [← not_lt, ← not_lt, hbelow p (by omega), hbelow q (by omega)]
      omega
  have hmem : ∀ p < n, ∃ q < n, A q = B p := fun p hp =>
    mem_contents.mp (hperm.mem_iff.mp (mem_contents.mpr ⟨p, hp, rfl⟩))
  have hmem' : ∀ q < n, ∃ p < n, B p = A q := fun q hq =>
    mem_contents.mp (hperm.mem_iff.mpr (mem_contents.mpr ⟨q, hq, rfl⟩))
  constructor
  · obtain ⟨q, hq, hqeq⟩ := hmem (m - 1) (by omega)
    obtain ⟨p, hp, hpeq⟩ := hmem' i (by omega)
    have hqm : q < m := by
      rw [← hbelow q hq, hqeq, hclass (m - 1) (by omega)]
      omega
    have hpm : p < m := by
      rw [← hclass p hp, hpeq, hbelow i (by omega)]
      exact hi
    refine le_antisymm (hqeq ▸ hlow q hqm) ?_
    rw [← hia, ← hpeq]
    exact hB p (m - 1) ⟨Nat.zero_le _, by omega⟩ ⟨Nat.zero_le _, by omega⟩ (by omega)
  · obtain ⟨q, hq, hqeq⟩ := hmem m (by omega)
    obtain ⟨p, hp, hpeq⟩ := hmem' j hjn
    have hqm : ¬ q < m := by
      rw [← hbelow q hq, hqeq, hclass m (by omega)]
      omega
    have hpm : ¬ p < m := by
      rw [← hclass p hp, hpeq, hbelow j hjn]
      omega
    refine le_antisymm ?_ (hqeq ▸ hhigh q (not_lt.mp hqm) hq)
    rw [← hjb, ← hpeq]
    exact hB m p ⟨Nat.zero_le _, by omega⟩ ⟨Nat.zero_le _, by omega⟩ (by omega)

end Sorted

end Slice

end StringSampleSort.Library
