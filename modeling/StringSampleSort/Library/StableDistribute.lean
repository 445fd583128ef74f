import StringSampleSort.Library.Slice

/-!
# Stable distribution into buckets

Out-of-place distribution of an array by counting, from the front: each element goes to the next
free place of its bucket.  The elements of a bucket stay in the order that they have in the array.

## Main results

- `slice_distributeInOrder`: a bucket holds the elements of its class, in their order
- `distributeInOrder_perm`: nothing is lost
-/

namespace StringSampleSort.Library

open Slice

variable {α : Type*}

/-- Element `i` goes to the next free place of its bucket: `sorted[index[cls[i]]++] = A[i]`. -/
def moveNext (cls : ℕ → ℕ) (A : ℕ → α) (s : (ℕ → ℕ) × (ℕ → α)) (i : ℕ) : (ℕ → ℕ) × (ℕ → α) :=
  (Function.update s.1 (cls i) (s.1 (cls i) + 1), Function.update s.2 (s.1 (cls i)) (A i))

/-- The first `n` elements, one after the other; `index` holds the first place of each bucket. -/
def distributeInOrder (cls : ℕ → ℕ) (A : ℕ → α) (n : ℕ) (index : ℕ → ℕ) (sorted : ℕ → α) :
    (ℕ → ℕ) × (ℕ → α) :=
  (List.range n).foldl (moveNext cls A) (index, sorted)

/-- The elements of a class among the first `n`, in their order. -/
def classOf (cls : ℕ → ℕ) (A : ℕ → α) (n b : ℕ) : List α :=
  ((List.range n).filter fun i => decide (cls i = b)).map A

variable {cls : ℕ → ℕ} {A sorted : ℕ → α} {n K b k : ℕ}

theorem classOf_succ (cls : ℕ → ℕ) (A : ℕ → α) (n b : ℕ) :
    classOf cls A (n + 1) b = classOf cls A n b ++ if cls n = b then [A n] else [] := by
  rw [classOf, List.range_succ, List.filter_append, List.map_append, classOf, List.filter_singleton]
  split <;> simp_all

theorem length_classOf (cls : ℕ → ℕ) (A : ℕ → α) (n b : ℕ) :
    (classOf cls A n b).length = (contents cls n).count b := by
  rw [classOf, List.length_map, contents, List.count_eq_countP, List.countP_map,
    List.countP_eq_length_filter]
  refine congrArg _ (List.filter_congr fun i _ => ?_)
  rw [Function.comp_apply]
  exact (beq_eq_decide ..).symm

/-- Fewer elements of a class come before an element of the class than there are. -/
theorem length_classOf_lt (A : ℕ → α) (hk : k < n) :
    (classOf cls A k (cls k)).length < (classOf cls A n (cls k)).length := by
  have hsub : (classOf cls A (k + 1) (cls k)).length ≤ (classOf cls A n (cls k)).length :=
    ((List.range_sublist.mpr hk).filter _ |>.map A).length_le
  rw [classOf_succ, if_pos rfl, List.length_append] at hsub
  exact hsub

/-- What the first `k` rounds have done: the next free places, and the elements in their
buckets. -/
theorem distributeInOrder_rounds {size : ℕ → ℕ} (hsize : ∀ b, size b = (classOf cls A n b).length)
    (hk : k ≤ n) :
    let s := distributeInOrder cls A k (bucketStart size) sorted
    (∀ b, s.1 b = bucketStart size b + (classOf cls A k b).length) ∧
      ∀ b, slice s.2 (bucketStart size b) (classOf cls A k b).length = classOf cls A k b := by
  induction k with
  | zero => exact ⟨fun b => rfl, fun b => rfl⟩
  | succ k ih =>
    obtain ⟨hindex, hslice⟩ := ih (by omega)
    have hlt : (classOf cls A k (cls k)).length < (classOf cls A n (cls k)).length :=
      length_classOf_lt A (by omega)
    rw [← hsize] at hlt
    intro s
    have hs : s = moveNext cls A
        (distributeInOrder cls A k (bucketStart size) sorted) k := by
      change (List.range (k + 1)).foldl _ _ = _
      rw [List.range_succ, List.foldl_append]
      rfl
    rw [hs, moveNext, hindex]
    constructor
    · intro b
      rw [classOf_succ]
      dsimp only
      by_cases hb : b = cls k
      · subst hb
        rw [Function.update_self, if_pos rfl, List.length_append]
        rfl
      · rw [Function.update_of_ne hb, hindex, if_neg (Ne.symm hb), List.append_nil]
    · intro b
      rw [classOf_succ]
      dsimp only
      by_cases hb : b = cls k
      · subst hb
        -- the element goes behind those of its class
        rw [if_pos rfl, List.length_append, slice_append, List.length_singleton]
        refine congrArg₂ _ ((slice_congr fun p hp => ?_).trans (hslice _)) ?_
        · exact Function.update_of_ne (by have := hp.2; omega) _ _
        · rw [slice, contents]
          simp
      · rw [if_neg (Ne.symm hb), List.append_nil]
        refine Eq.trans (slice_congr fun p hp => ?_) (hslice b)
        refine Function.update_of_ne (fun heq => hb ?_) _ _
        -- another bucket does not have the place
        have hle : (classOf cls A k b).length ≤ size b := by
          rw [hsize]
          exact ((List.range_sublist.mpr (show k ≤ n by omega)).filter _ |>.map A).length_le
        exact @bucket_unique size _ _ _ hp.1 (by have := hp.2; omega) (by omega) (by omega)

/-- A bucket holds the elements of its class, in their order. -/
theorem slice_distributeInOrder {size : ℕ → ℕ}
    (hsize : ∀ b, size b = (classOf cls A n b).length) (b : ℕ) :
    slice (distributeInOrder cls A n (bucketStart size) sorted).2 (bucketStart size b) (size b) =
      classOf cls A n b := by
  have h := (@distributeInOrder_rounds _ cls A sorted n n size hsize (le_refl n)).2 b
  rwa [← hsize] at h

/-- An array of buckets is one bucket behind the other. -/
theorem contents_bucketStart (B : ℕ → α) (size : ℕ → ℕ) (K : ℕ) :
    contents B (bucketStart size K) =
      (List.range K).flatMap fun b => slice B (bucketStart size b) (size b) := by
  induction K with
  | zero => rfl
  | succ K ih =>
    rw [List.range_succ, List.flatMap_append, ← ih, List.flatMap_singleton, bucketStart_succ,
      ← slice_zero, slice_append, slice_zero, Nat.zero_add]

/-- The classes below `K` make up the elements of these classes. -/
theorem flatMap_classOf_perm (cls : ℕ → ℕ) (A : ℕ → α) (n K : ℕ) :
    ((List.range K).flatMap (classOf cls A n)).Perm
      (((List.range n).filter fun i => decide (cls i < K)).map A) := by
  induction K with
  | zero => simp
  | succ K ih =>
    rw [List.range_succ, List.flatMap_append, List.flatMap_singleton]
    refine (ih.append (List.Perm.refl _)).trans ?_
    rw [classOf, ← List.map_append]
    refine List.Perm.map A ?_
    have hsplit := List.filter_append_perm (fun i => decide (cls i < K))
      ((List.range n).filter fun i => decide (cls i < K + 1))
    rw [List.filter_filter, List.filter_filter] at hsplit
    refine (List.Perm.of_eq ?_).trans hsplit
    refine congrArg₂ _ (List.filter_congr fun i _ => ?_) (List.filter_congr fun i _ => ?_)
    · rw [← Bool.decide_and, decide_eq_decide]
      omega
    · rw [← decide_not, ← Bool.decide_and, decide_eq_decide]
      omega

/-- Nothing is lost. -/
theorem distributeInOrder_perm {size : ℕ → ℕ}
    (hsize : ∀ b, size b = (classOf cls A n b).length) (htotal : bucketStart size K = n)
    (hbound : ∀ i < n, cls i < K) :
    (contents (distributeInOrder cls A n (bucketStart size) sorted).2 n).Perm (contents A n) := by
  have hall : ((List.range n).filter fun i => decide (cls i < K)) = List.range n :=
    List.filter_eq_self.mpr fun i hi => decide_eq_true (hbound i (List.mem_range.mp hi))
  have hperm := flatMap_classOf_perm cls A n K
  rw [hall] at hperm
  have hbuckets := contents_bucketStart
    (distributeInOrder cls A n (bucketStart size) sorted).2 size K
  rw [htotal, List.flatMap_congr fun b _ => slice_distributeInOrder hsize b] at hbuckets
  exact hbuckets ▸ hperm

end StringSampleSort.Library
