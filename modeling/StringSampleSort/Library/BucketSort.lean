import StringSampleSort.Library.Slice

/-!
# Sorting bucket by bucket

An array whose buckets are in order is sorted by sorting one bucket after the other.  A sorter may
keep a log, here of the calls that it makes, and what holds of the entries of all logs holds of the
whole log.

## Main results

- `DoneBelow.splice`, `DoneBelow.contents_perm`: buckets are rearranged one after the other
- `sortBuckets_spec`: the buckets are sorted one after the other
- `SortedBelow.sortsTo`: when all buckets are sorted, the array is
-/

namespace StringSampleSort.Library

open Slice

variable {α γ ι : Type*} [LinearOrder ι]

/-- The window of `n` elements from `lo` on is sorted by a sorter of its own. -/
def sortWindow (sort : (ℕ → α) → Option ((ℕ → α) × List γ)) (lo n : ℕ) (r : (ℕ → α) × List γ) :
    Option ((ℕ → α) × List γ) :=
  (sort fun k => r.1 (lo + k)).map fun r' => (splice r.1 lo n r'.1, r.2 ++ r'.2)

/-- A bucket is sorted if it has a sorter. -/
def sortBucket (sorter : Option ((ℕ → α) → Option ((ℕ → α) × List γ))) (lo n : ℕ)
    (r : (ℕ → α) × List γ) : Option ((ℕ → α) × List γ) :=
  match sorter with
  | some sort => sortWindow sort lo n r
  | none => some r

/-- The buckets from `i` on, of which the first one starts at `bsum`, are sorted one after the other
for so many rounds; some are left as they are. -/
def sortBuckets (sorter : ℕ → Option ((ℕ → α) → Option ((ℕ → α) × List γ))) (size : ℕ → ℕ) :
    ℕ → ℕ → ℕ → (ℕ → α) × List γ → Option ((ℕ → α) × List γ)
  | 0, _, _, r => some r
  | k + 1, i, bsum, r =>
    (sortBucket (sorter i) bsum (size i) r).bind
      (sortBuckets sorter size k (i + 1) (bsum + size i))

/-- The first `n` elements have been sorted, and the log is good. -/
structure SortsTo (f : α → ι) (good : γ → Prop) (A : ℕ → α) (n : ℕ) (r : (ℕ → α) × List γ) :
    Prop where
  perm : (contents r.1 n).Perm (contents A n)
  sorted : MonotoneIn (f ∘ r.1) 0 n
  log : ∀ c ∈ r.2, good c

/-! ## One bucket after the other -/

section Done

variable {size : ℕ → ℕ} {post : ℕ → (ℕ → α) → Prop} {A B : ℕ → α} {i : ℕ}

/-- The buckets below `i` have been rearranged, each as `post` asks for, and nothing behind them has
been touched. -/
structure DoneBelow (post : ℕ → (ℕ → α) → Prop) (size : ℕ → ℕ) (A : ℕ → α) (i : ℕ) (B : ℕ → α) :
    Prop where
  perm : ∀ b < i, (slice B (bucketStart size b) (size b)).Perm
    (slice A (bucketStart size b) (size b))
  done : ∀ b < i, post b fun k => B (bucketStart size b + k)
  rest : ∀ p, bucketStart size i ≤ p → B p = A p

theorem doneBelow_zero (post : ℕ → (ℕ → α) → Prop) (size : ℕ → ℕ) (A : ℕ → α) :
    DoneBelow post size A 0 A :=
  ⟨fun b hb => absurd hb (Nat.not_lt_zero b), fun b hb => absurd hb (Nat.not_lt_zero b),
    fun _ _ => rfl⟩

/-- A bucket that stays as it is. -/
theorem DoneBelow.skip (h : DoneBelow post size A i B)
    (hdone : post i fun k => A (bucketStart size i + k)) : DoneBelow post size A (i + 1) B := by
  have hsame : ∀ p, bucketStart size i ≤ p → B p = A p := h.rest
  refine ⟨fun b hb => ?_, fun b hb => ?_, fun p hp => h.rest p ?_⟩
  · rcases Nat.eq_or_lt_of_le (Nat.lt_succ_iff.mp hb) with rfl | hlt
    · exact List.Perm.of_eq (slice_congr fun p hp => hsame p hp.1)
    · exact h.perm b hlt
  · rcases Nat.eq_or_lt_of_le (Nat.lt_succ_iff.mp hb) with rfl | hlt
    · rwa [show (fun k => B (bucketStart size b + k)) = fun k => A (bucketStart size b + k) from
        funext fun k => hsame _ (Nat.le_add_right ..)]
    · exact h.done b hlt
  · exact (bucketStart_mono size (Nat.le_succ i)).trans hp

/-- A bucket that is rearranged. -/
theorem DoneBelow.splice (h : DoneBelow post size A i B)
    (hpost : ∀ b C C', (∀ k < size b, C k = C' k) → post b C → post b C') {C : ℕ → α}
    (hperm : (contents C (size i)).Perm (slice A (bucketStart size i) (size i)))
    (hdone : post i C) :
    DoneBelow post size A (i + 1) (splice B (bucketStart size i) (size i) C) := by
  -- the buckets before are not touched
  have hkeep : ∀ b < i, ∀ p, InWindow (bucketStart size b) (size b) p →
      Slice.splice B (bucketStart size i) (size i) C p = B p := fun b hb p hp =>
    splice_of_not_in _ _ fun hin => by
      have hend := bucketEnd_le size hb
      have := hp.2
      have := hin.1
      omega
  refine ⟨fun b hb => ?_, fun b hb => ?_, fun p hp => ?_⟩
  · rcases Nat.eq_or_lt_of_le (Nat.lt_succ_iff.mp hb) with rfl | hlt
    · rw [slice_splice]
      exact hperm
    · exact (List.Perm.of_eq (slice_congr (hkeep b hlt))).trans (h.perm b hlt)
  · rcases Nat.eq_or_lt_of_le (Nat.lt_succ_iff.mp hb) with rfl | hlt
    · exact hpost b _ _ (fun k hk => (splice_add _ _ _ hk).symm) hdone
    · refine hpost b _ _ (fun k hk => ?_) (h.done b hlt)
      exact (hkeep b hlt _ ⟨Nat.le_add_right .., Nat.add_lt_add_left hk _⟩).symm
  · rw [bucketStart_succ] at hp
    refine (splice_of_not_in _ _ fun hin => ?_).trans (h.rest p (by omega))
    have := hin.2
    omega

/-- The view of a bucket whose turn it is. -/
theorem DoneBelow.view (h : DoneBelow post size A i B) :
    (fun k => B (bucketStart size i + k)) = fun k => A (bucketStart size i + k) :=
  funext fun _ => h.rest _ (Nat.le_add_right ..)

/-- Nothing is lost. -/
theorem DoneBelow.contents_perm (h : DoneBelow post size A i B) :
    (contents B (bucketStart size i)).Perm (contents A (bucketStart size i)) := by
  have hall : ∀ c ≤ i, (contents B (bucketStart size c)).Perm
      (contents A (bucketStart size c)) := by
    intro c hc
    induction c with
    | zero => exact List.Perm.refl _
    | succ c ih =>
      rw [bucketStart_succ, ← slice_zero, ← slice_zero, slice_append, slice_append, slice_zero,
        slice_zero, Nat.zero_add]
      exact (ih (by omega)).append (h.perm c (by omega))
  exact hall i (le_refl _)

end Done

/-! ## Sorted buckets -/

/-- The buckets below `i` have been sorted, and nothing behind them has been touched. -/
structure SortedBelow (f : α → ι) (good : γ → Prop) (size : ℕ → ℕ) (A : ℕ → α) (i : ℕ)
    (r : (ℕ → α) × List γ) : Prop where
  perm : ∀ b < i, (slice r.1 (bucketStart size b) (size b)).Perm
    (slice A (bucketStart size b) (size b))
  sorted : ∀ b < i, MonotoneIn (f ∘ r.1) (bucketStart size b) (size b)
  rest : ∀ p, bucketStart size i ≤ p → r.1 p = A p
  log : ∀ c ∈ r.2, good c

variable {f : α → ι} {good : γ → Prop} {size : ℕ → ℕ} {A : ℕ → α} {i : ℕ} {r : (ℕ → α) × List γ}

theorem sortedBelow_zero {log : List γ} (h : ∀ c ∈ log, good c) :
    SortedBelow f good size A 0 (A, log) :=
  ⟨fun b hb => absurd hb (Nat.not_lt_zero b), fun b hb => absurd hb (Nat.not_lt_zero b),
    fun _ _ => rfl, h⟩

theorem monotoneIn_shift (B : ℕ → α) (lo n : ℕ) :
    MonotoneIn (f ∘ fun k => B (lo + k)) 0 n ↔ MonotoneIn (f ∘ B) lo n := by
  refine ⟨fun h p q hp hq hpq => ?_, fun h p q hp hq hpq => ?_⟩
  · obtain ⟨hp₁, hp₂⟩ := hp
    obtain ⟨hq₁, hq₂⟩ := hq
    have hle := h (p - lo) (q - lo) ⟨Nat.zero_le _, by omega⟩ ⟨Nat.zero_le _, by omega⟩ (by omega)
    simp only [Function.comp_apply, Nat.add_sub_cancel' hp₁, Nat.add_sub_cancel' hq₁] at hle
    exact hle
  · have := hp.2
    have := hq.2
    exact h (lo + p) (lo + q) ⟨Nat.le_add_right .., by omega⟩ ⟨Nat.le_add_right .., by omega⟩
      (by omega)

theorem sortedBelow_iff : SortedBelow f good size A i r ↔
    DoneBelow (fun b B => MonotoneIn (f ∘ B) 0 (size b)) size A i r.1 ∧ ∀ c ∈ r.2, good c := by
  refine ⟨fun h => ⟨⟨h.perm, fun b hb => ?_, h.rest⟩, h.log⟩, fun h => ⟨h.1.perm, fun b hb => ?_,
    h.1.rest, h.2⟩⟩
  · exact (monotoneIn_shift ..).mpr (h.sorted b hb)
  · exact (monotoneIn_shift ..).mp (h.1.done b hb)

/-- A bucket that is sorted already. -/
theorem SortedBelow.skip (h : SortedBelow f good size A i r)
    (hsorted : MonotoneIn (f ∘ A) (bucketStart size i) (size i)) :
    SortedBelow f good size A (i + 1) r := by
  rw [sortedBelow_iff] at h ⊢
  exact ⟨h.1.skip ((monotoneIn_shift ..).mpr hsorted), h.2⟩

/-- A bucket that is sorted by a sorter of its own. -/
theorem SortedBelow.sort (h : SortedBelow f good size A i r)
    {sort : (ℕ → α) → Option ((ℕ → α) × List γ)}
    (hsort : ∃ r', sort (fun k => A (bucketStart size i + k)) = some r' ∧
      SortsTo f good (fun k => A (bucketStart size i + k)) (size i) r') :
    ∃ r', sortWindow sort (bucketStart size i) (size i) r = some r' ∧
      SortedBelow f good size A (i + 1) r' := by
  obtain ⟨r', heq, hspec⟩ := hsort
  rw [sortedBelow_iff] at h
  refine ⟨(splice r.1 (bucketStart size i) (size i) r'.1, r.2 ++ r'.2), ?_,
    sortedBelow_iff.mpr ⟨h.1.splice (fun b C C' hC hmono p q hp hq hpq => ?_) hspec.perm
      hspec.sorted, fun c hc => ?_⟩⟩
  · rw [sortWindow, h.1.view, heq]
    rfl
  · have hle := hmono p q hp hq hpq
    rwa [Function.comp_apply, Function.comp_apply, hC p (by have := hp.2; omega),
      hC q (by have := hq.2; omega)] at hle
  · rcases List.mem_append.mp hc with hc | hc
    · exact h.2 c hc
    · exact hspec.log c hc

/-- What is asked of a bucket: its sorter sorts it, or it has none and is sorted already. -/
def BucketOk (f : α → ι) (good : γ → Prop) (size : ℕ → ℕ) (A : ℕ → α)
    (sorter : ℕ → Option ((ℕ → α) → Option ((ℕ → α) × List γ))) (b : ℕ) : Prop :=
  match sorter b with
  | some sort => ∃ r', sort (fun k => A (bucketStart size b + k)) = some r' ∧
      SortsTo f good (fun k => A (bucketStart size b + k)) (size b) r'
  | none => MonotoneIn (f ∘ A) (bucketStart size b) (size b)

theorem sortBuckets_spec {sorter : ℕ → Option ((ℕ → α) → Option ((ℕ → α) × List γ))} {k : ℕ}
    (hok : ∀ b, i ≤ b → b < i + k → BucketOk f good size A sorter b)
    (h : SortedBelow f good size A i r) :
    ∃ r', sortBuckets sorter size k i (bucketStart size i) r = some r' ∧
      SortedBelow f good size A (i + k) r' := by
  induction k generalizing i r with
  | zero => exact ⟨r, rfl, h⟩
  | succ k ih =>
    have hbucket := hok i (le_refl i) (by omega)
    rw [BucketOk] at hbucket
    have hnext : ∀ b, i + 1 ≤ b → b < i + 1 + k → BucketOk f good size A sorter b :=
      fun b h₁ h₂ => hok b (by omega) (by omega)
    rw [sortBuckets, ← bucketStart_succ, show i + (k + 1) = i + 1 + k by omega]
    cases hs : sorter i with
    | some sort =>
      rw [hs] at hbucket
      obtain ⟨r₁, heq, h₁⟩ := h.sort hbucket
      rw [sortBucket, heq]
      exact ih hnext h₁
    | none =>
      rw [hs] at hbucket
      exact ih hnext (h.skip hbucket)

/-- When all buckets are sorted and they are in order, the array is sorted. -/
theorem SortedBelow.sortsTo {K n : ℕ} (h : SortedBelow f good size A K r)
    (htotal : bucketStart size K = n)
    (horder : ∀ b c, b < c → c < K → ∀ p q, InWindow (bucketStart size b) (size b) p →
      InWindow (bucketStart size c) (size c) q → f (A p) ≤ f (A q)) :
    SortsTo f good A n r := by
  refine ⟨?_, fun p q hp hq hpq => ?_, h.log⟩
  · rw [← htotal]
    exact (sortedBelow_iff.mp h).1.contents_perm
  · obtain ⟨b, hb, hpb⟩ := exists_bucket size (p := p) (K := K) (by have := hp.2; omega)
    obtain ⟨c, hc, hqc⟩ := exists_bucket size (p := q) (K := K) (by have := hq.2; omega)
    rcases Nat.lt_trichotomy b c with hlt | rfl | hgt
    · -- both elements come from their own buckets
      obtain ⟨p', hp', hpeq⟩ := mem_slice.mp ((h.perm b hb).mem_iff.mp
        (mem_slice.mpr ⟨p, hpb, rfl⟩))
      obtain ⟨q', hq', hqeq⟩ := mem_slice.mp ((h.perm c hc).mem_iff.mp
        (mem_slice.mpr ⟨q, hqc, rfl⟩))
      rw [Function.comp_apply, Function.comp_apply, ← hpeq, ← hqeq]
      exact horder b c hlt hc p' q' hp' hq'
    · exact h.sorted b hb p q hpb hqc hpq
    · have hend := bucketEnd_le size hgt
      have := hpb.1
      have := hqc.2
      omega

end StringSampleSort.Library
