import Mathlib.Algebra.BigOperators.Intervals
import Mathlib.Algebra.Order.BigOperators.Group.Finset
import Mathlib.Data.List.Perm.Basic
import Mathlib.Logic.Equiv.Basic

/-!
# Buckets of an array

An array is cut into consecutive buckets of given sizes.  When every bucket is as large as the
number of elements that belong into it, an element that is in a wrong place leaves a bucket
that is not full.

## Main results

- `exists_bucket`, `bucket_unique`: every place lies in one bucket
- `card_le_countP`: places that hold elements of one kind, counted
- `perm_swap`: exchanging two elements
- `last_bucket`: when all other buckets are right, then so is the last one
-/

namespace StringSampleSort.Library

/-! ## Places of the buckets -/

section Places

variable (size : ℕ → ℕ)

/-- The first place of a bucket. -/
def bucketStart (b : ℕ) : ℕ := ∑ c ∈ Finset.range b, size c

theorem bucketStart_succ (b : ℕ) : bucketStart size (b + 1) = bucketStart size b + size b :=
  Finset.sum_range_succ size b

theorem bucketStart_congr {size size' : ℕ → ℕ} {b : ℕ} (h : ∀ c < b, size c = size' c) :
    bucketStart size b = bucketStart size' b :=
  Finset.sum_congr rfl fun c hc => h c (Finset.mem_range.mp hc)

theorem bucketStart_mono {b c : ℕ} (h : b ≤ c) : bucketStart size b ≤ bucketStart size c :=
  Finset.sum_le_sum_of_subset (Finset.range_mono h)

theorem bucketStart_eq_of_empty {b c : ℕ} (hbc : b ≤ c)
    (hempty : ∀ d, b ≤ d → d < c → size d = 0) : bucketStart size c = bucketStart size b := by
  induction c, hbc using Nat.le_induction with
  | base => rfl
  | succ c hbc ih =>
    rw [bucketStart_succ, hempty c hbc (Nat.lt_succ_self c),
      ih fun d h₁ h₂ => hempty d h₁ (by omega), Nat.add_zero]

/-- A bucket ends before the next ones start. -/
theorem bucketEnd_le {b c : ℕ} (h : b < c) :
    bucketStart size b + size b ≤ bucketStart size c := by
  rw [← bucketStart_succ]
  exact bucketStart_mono size h

/-- Every place lies in some bucket. -/
theorem exists_bucket {K p : ℕ} (h : p < bucketStart size K) :
    ∃ b < K, bucketStart size b ≤ p ∧ p < bucketStart size b + size b := by
  induction K with
  | zero => exact absurd h (by simp [bucketStart])
  | succ K ih =>
    rcases Nat.lt_or_ge p (bucketStart size K) with hlt | hge
    · obtain ⟨b, hb, hp⟩ := ih hlt
      exact ⟨b, by omega, hp⟩
    · exact ⟨K, by omega, hge, by rwa [bucketStart_succ] at h⟩

variable {size}

theorem bucket_unique {b c p : ℕ} (hb : bucketStart size b ≤ p)
    (hb' : p < bucketStart size b + size b) (hc : bucketStart size c ≤ p)
    (hc' : p < bucketStart size c + size c) : b = c := by
  rcases Nat.lt_trichotomy b c with h | h | h
  · have := bucketEnd_le size h
    omega
  · exact h
  · have := bucketEnd_le size h
    omega

end Places

/-! ## Elements of an array -/

section Contents

variable {α : Type*} {n : ℕ}

/-- The first `n` elements of an array. -/
def contents (A : ℕ → α) (n : ℕ) : List α := (List.range n).map A

@[simp] theorem length_contents (A : ℕ → α) (n : ℕ) : (contents A n).length = n := by
  simp [contents]

theorem mem_contents {A : ℕ → α} {x : α} : x ∈ contents A n ↔ ∃ p < n, A p = x := by
  simp [contents]

/-- A rearrangement takes its elements from some list of all places. -/
theorem exists_places {A B : ℕ → α} (h : (contents B n).Perm (contents A n)) :
    ∃ w : List ℕ, w.Perm (List.range n) ∧ contents B n = w.map A := by
  obtain ⟨w, hw, hperm⟩ : Relation.Comp (fun l m => l = List.map A m) List.Perm (contents B n)
      (List.range n) := by
    rw [List.eq_map_comp_perm]
    exact h
  exact ⟨w, hperm, hw⟩

theorem contents_congr {A A' : ℕ → α} (h : ∀ p < n, A p = A' p) :
    contents A n = contents A' n :=
  List.map_congr_left fun p hp => h p (List.mem_range.mp hp)

/-- Places that hold elements of one kind are no more than these elements. -/
theorem card_le_countP {A : ℕ → α} {q : α → Bool} {s : Finset ℕ}
    (hs : ∀ p ∈ s, p < n ∧ q (A p) = true) : s.card ≤ (contents A n).countP q := by
  have hfilter : (contents A n).countP q =
      ((Finset.range n).filter fun p => q (A p) = true).card := by
    have hq : q ∘ A = fun p => decide (q (A p) = true) := by
      funext p
      simp
    rw [contents, List.countP_map, List.countP_eq_length_filter, hq]
    rfl
  rw [hfilter]
  refine Finset.card_le_card fun p hp => ?_
  rw [Finset.mem_filter, Finset.mem_range]
  exact hs p hp

/-- Exchanging two elements keeps the contents. -/
theorem perm_swap (A : ℕ → α) {i j : ℕ} (hi : i < n) (hj : j < n) :
    (contents (A ∘ Equiv.swap i j) n).Perm (contents A n) := by
  rw [contents, ← List.map_map]
  refine List.Perm.map A ?_
  refine (List.perm_ext_iff_of_nodup ?_ List.nodup_range).mpr fun p => ?_
  · exact List.nodup_range.map (Equiv.swap i j).injective
  · have hlt : ∀ q, q < n → Equiv.swap i j q < n := by
      intro q hq
      rw [Equiv.swap_apply_def]
      split
      · exact hj
      · split
        · exact hi
        · exact hq
    rw [List.mem_map, List.mem_range]
    constructor
    · rintro ⟨q, hq, rfl⟩
      exact hlt q (List.mem_range.mp hq)
    · intro hp
      exact ⟨Equiv.swap i j p, List.mem_range.mpr (hlt p hp), Equiv.swap_apply_self i j p⟩

/-- Filling a hole at `i` with the element of `j`, and `j` with another one, exchanges the
elements of both. -/
theorem update_swap (A : ℕ → α) (x : α) {i j : ℕ} (hij : i ≠ j) :
    Function.update (Function.update A j x) i (A j) =
      Function.update A i x ∘ Equiv.swap i j := by
  funext p
  by_cases hpi : p = i
  · subst hpi
    simp [Function.update_of_ne hij.symm]
  · by_cases hpj : p = j
    · subst hpj
      simp [Function.update_of_ne hpi]
    · rw [Function.update_of_ne hpi, Function.update_of_ne hpj, Function.comp_apply,
        Equiv.swap_apply_of_ne_of_ne hpi hpj, Function.update_of_ne hpi]

end Contents

/-! ## Full buckets -/

section Full

variable {α : Type*} {n K : ℕ} {size : ℕ → ℕ} {bkt : α → ℕ} {A : ℕ → α}

/-- Every bucket below `K` is as large as the number of elements that belong into it. -/
structure Tallies (size : ℕ → ℕ) (bkt : α → ℕ) (K n : ℕ) (A : ℕ → α) : Prop where
  count : ∀ b < K, (contents A n).countP (fun x => decide (bkt x = b)) = size b
  total : bucketStart size K = n
  bound : ∀ p < n, bkt (A p) < K

/-- Counting the elements of every bucket gives the sizes. -/
theorem tallies_count (bkt : α → ℕ) (A : ℕ → α) (hbound : ∀ p < n, bkt (A p) < K) :
    Tallies (fun b => ((contents A n).map bkt).count b) bkt K n A where
  count b _ := by
    simp only [List.count_eq_countP, List.countP_map]
    exact List.countP_congr fun x _ => by simp
  total := by
    have hmem : ∀ a ∈ (((contents A n).map bkt : List ℕ) : Multiset ℕ), a ∈ Finset.range K := by
      intro a ha
      obtain ⟨x, hx, rfl⟩ := List.mem_map.mp (Multiset.mem_coe.mp ha)
      obtain ⟨p, hp, rfl⟩ := mem_contents.mp hx
      exact Finset.mem_range.mpr (hbound p hp)
    have hsum := Multiset.sum_count_eq_card hmem
    simpa [bucketStart] using hsum
  bound := hbound

/-- The places of bucket `b` from `lo` on hold elements of the bucket. -/
def FilledFrom (size : ℕ → ℕ) (bkt : α → ℕ) (A : ℕ → α) (b lo : ℕ) : Prop :=
  ∀ p, lo ≤ p → p < bucketStart size b + size b → bkt (A p) = b

theorem FilledFrom.congr {A' : ℕ → α} {b lo : ℕ} (h : FilledFrom size bkt A b lo)
    (heq : ∀ p, lo ≤ p → p < bucketStart size b + size b → A' p = A p) :
    FilledFrom size bkt A' b lo := fun p h₁ h₂ => by rw [heq p h₁ h₂, h p h₁ h₂]

theorem Tallies.perm {A' : ℕ → α} (h : Tallies size bkt K n A)
    (hperm : (contents A' n).Perm (contents A n)) : Tallies size bkt K n A' where
  count b hb := by rw [hperm.countP_eq, h.count b hb]
  total := h.total
  bound p hp := by
    obtain ⟨q, hq, hA⟩ := mem_contents.mp (hperm.mem_iff.mp (mem_contents.mpr ⟨p, hp, rfl⟩))
    rw [← hA]
    exact h.bound q hq

theorem Tallies.bucketEnd_le (h : Tallies size bkt K n A) {b : ℕ} (hb : b < K) :
    bucketStart size b + size b ≤ n := by
  rw [← h.total]
  exact Library.bucketEnd_le size hb

/-- An element outside the filled part of its bucket: the bucket is not full. -/
theorem Tallies.lt_of_outside (h : Tallies size bkt K n A) {b lo p : ℕ} (hb : b < K)
    (hfilled : FilledFrom size bkt A b lo) (hlo : bucketStart size b ≤ lo) (hp : p < n)
    (hbkt : bkt (A p) = b) (hout : p < lo ∨ bucketStart size b + size b ≤ p) :
    bucketStart size b < lo := by
  by_contra hle
  have hcard := card_le_countP (A := A) (n := n) (q := fun x => decide (bkt x = b))
    (s := insert p (Finset.Ico lo (bucketStart size b + size b))) fun q hq => by
      rcases Finset.mem_insert.mp hq with rfl | hq
      · exact ⟨hp, by simpa using hbkt⟩
      · rw [Finset.mem_Ico] at hq
        exact ⟨hq.2.trans_le (h.bucketEnd_le hb), by simpa using hfilled q hq.1 hq.2⟩
  rw [h.count b hb, Finset.card_insert_of_notMem (by rw [Finset.mem_Ico]; omega),
    Nat.card_Ico] at hcard
  omega

/-- When all other buckets are right, then so is the last one. -/
theorem Tallies.last_bucket (h : Tallies size bkt K n A) {L : ℕ} (hL : L < K)
    (hrest : ∀ b < K, b ≠ L → FilledFrom size bkt A b (bucketStart size b)) :
    FilledFrom size bkt A L (bucketStart size L) := by
  intro p hlo hhi
  by_contra hne
  have hp : p < n := hhi.trans_le (h.bucketEnd_le hL)
  have hout : p < bucketStart size (bkt (A p)) ∨
      bucketStart size (bkt (A p)) + size (bkt (A p)) ≤ p := by
    by_contra hin
    exact hne (bucket_unique (by omega) (by omega) hlo hhi)
  have := h.lt_of_outside (h.bound p hp) (hrest _ (h.bound p hp) hne) (le_refl _) hp rfl hout
  omega

end Full

end StringSampleSort.Library
