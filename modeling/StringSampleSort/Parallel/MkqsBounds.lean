import StringSampleSort.Library.CheckedArray
import StringSampleSort.Parallel.MkqsStep
import StringSampleSort.Sequential.BucketOrder
import StringSampleSort.Sequential.SampleSort

/-!
# The partition of `MKQSStep` within bounds

The constructor of `MKQSStep` of `src/parallel/bingmann-parallel_sample_sort.hpp` on its two
arrays, the strings and the cached keys, with checked accesses and with differences of its unsigned
indices that must not wrap.

## Main results

- `scanUpChecked_eq`, `scanDownChecked_eq`, `splitLoopChecked_eq`: the loops stay within bounds
- `mkqsStepChecked_eq`: within bounds the constructor does what it does without checks
- `mkqsStepChecked_partitions`: both arrays are permuted in the same way into three areas
-/

namespace StringSampleSort

open Library Slice

/-! ## Model -/

section Median

variable (n : ℕ) (A : ℕ → KeyType)

/-- `med3(A, i, j, k)`. -/
def med3Checked (i j k : ℕ) : Option ℕ :=
  (readAt n A i).bind fun a =>
  (readAt n A j).bind fun b =>
  if a = b then some i
  else (readAt n A k).bind fun c =>
    some (if c = a ∨ c = b then k
      else if a < b then if b < c then j else if a < c then k else i
      else if b > c then j else if a < c then i else k)

/-- The median of 9. -/
def pivotIndexChecked : Option ℕ :=
  (med3Checked n A 0 (n / 8) (n / 4)).bind fun i =>
  (subtract (n / 2) (n / 8)).bind fun l =>
  (med3Checked n A l (n / 2) (n / 2 + n / 8)).bind fun j =>
  (subtract n 1).bind fun last =>
  (subtract last (n / 4)).bind fun l =>
  (subtract last (n / 8)).bind fun m =>
  (subtract n 3).bind fun r =>
  (med3Checked n A l m r).bind fun k =>
  med3Checked n A i j k

end Median

section Partition

variable {S : Type} (n : ℕ)

/-- The strings of a step and their cached keys. -/
structure CachedStrings (S : Type) where
  strings : ℕ → S
  cache : ℕ → KeyType

namespace CachedStrings

/-- Each string with its key. -/
def pairs (a : CachedStrings S) (i : ℕ) : S × KeyType := (a.strings i, a.cache i)

/-- `cache[i] = strset.get_uint64(*it, depth);` for all `i`. -/
def fillCache (a : CachedStrings S) (key : S → KeyType) : Option (CachedStrings S) :=
  ((List.range n).foldlM (fun cache i =>
    (readAt n a.strings i).bind fun s => writeAt n cache i (key s)) a.cache).map fun cache =>
    { a with cache := cache }

/-- `std::swap(strset.at(i), strset.at(j)); std::swap(cache[i], cache[j]);`. -/
def swap (a : CachedStrings S) (i j : ℕ) : Option (CachedStrings S) :=
  (exchangeAt n a.strings i j).bind fun strings =>
  (exchangeAt n a.cache i j).map fun cache => ⟨strings, cache⟩

end CachedStrings

/-- `std::swap_ranges(A + i, A + i + size, A + j)`. -/
def swapRangesChecked {α : Type} (i j : ℕ) : ℕ → (ℕ → α) → Option (ℕ → α)
  | 0, A => some A
  | k + 1, A => (swapRangesChecked i j k A).bind fun A => exchangeAt n A (i + k) (j + k)

/-- `swap_ranges` on the strings, then on the keys. -/
def CachedStrings.swapRanges (a : CachedStrings S) (i j size : ℕ) : Option (CachedStrings S) :=
  (swapRangesChecked n i j size a.strings).bind fun strings =>
  (swapRangesChecked n i j size a.cache).map fun cache => ⟨strings, cache⟩

/-- The local variables of the partition. -/
structure MkqsScan (S : Type) where
  arrays : CachedStrings S
  leq : ℕ
  llt : ℕ
  rgt : ℕ
  req : ℕ
  max_lt : KeyType
  min_gt : KeyType

variable (pivot : KeyType)

/-- `cmp(a, b)`. -/
def cmp (a b : KeyType) : ℤ := if a > b then 1 else if a < b then -1 else 0

/-- The first inner loop, for at most `fuel` rounds. -/
def scanUpChecked : ℕ → MkqsScan S → Option (MkqsScan S)
  | 0, _ => none
  | fuel + 1, s =>
    if s.llt ≤ s.rgt then
      (readAt n s.arrays.cache s.llt).bind fun c =>
      let r := cmp c pivot
      if r > 0 then some { s with min_gt := min s.min_gt c }
      else if r = 0 then
        (s.arrays.swap n s.leq s.llt).bind fun arrays =>
        scanUpChecked fuel { s with arrays := arrays, leq := s.leq + 1, llt := s.llt + 1 }
      else scanUpChecked fuel { s with max_lt := max s.max_lt c, llt := s.llt + 1 }
    else some s

/-- The second inner loop, for at most `fuel` rounds. -/
def scanDownChecked : ℕ → MkqsScan S → Option (MkqsScan S)
  | 0, _ => none
  | fuel + 1, s =>
    if s.llt ≤ s.rgt then
      (readAt n s.arrays.cache s.rgt).bind fun c =>
      let r := cmp c pivot
      if r < 0 then some { s with max_lt := max s.max_lt c }
      else if r = 0 then
        (s.arrays.swap n s.req s.rgt).bind fun arrays =>
        (decrement s.req).bind fun req =>
        (decrement s.rgt).bind fun rgt =>
        scanDownChecked fuel { s with arrays := arrays, req := req, rgt := rgt }
      else
        (decrement s.rgt).bind fun rgt =>
        scanDownChecked fuel { s with min_gt := min s.min_gt c, rgt := rgt }
    else some s

/-- `while (true)`, for at most `fuel` rounds. -/
def splitLoopChecked : ℕ → MkqsScan S → Option (MkqsScan S)
  | 0, _ => none
  | fuel + 1, s =>
    (scanUpChecked n pivot (s.rgt + 1 - s.llt + 1) s).bind fun s =>
    (scanDownChecked n pivot (s.rgt + 1 - s.llt + 1) s).bind fun s =>
    if s.llt > s.rgt then some s
    else
      (s.arrays.swap n s.llt s.rgt).bind fun arrays =>
      (decrement s.rgt).bind fun rgt =>
      splitLoopChecked fuel { s with arrays := arrays, llt := s.llt + 1, rgt := rgt }

/-- The partitioned arrays, with the local variables that the constructor goes on with. -/
structure MkqsLocals (S : Type) where
  arrays : CachedStrings S
  pivot : KeyType
  num_lt : ℕ
  num_eq : ℕ
  num_gt : ℕ
  max_lt : KeyType
  min_gt : KeyType

/-- Sizes of the areas, and the exchange of the equal elements to the center. -/
def centerChecked (s : MkqsScan S) : Option (MkqsLocals S) :=
  let num_leq := s.leq
  (subtract n 1).bind fun last =>
  (subtract last s.req).bind fun num_req =>
  (subtract s.llt s.leq).bind fun num_lt =>
  (subtract s.req s.rgt).bind fun num_gt =>
  let size1 := min num_leq num_lt
  (subtract s.llt size1).bind fun left =>
  (s.arrays.swapRanges n 0 left size1).bind fun arrays =>
  let size2 := min num_req num_gt
  (subtract n size2).bind fun right =>
  (arrays.swapRanges n s.llt right size2).map fun arrays =>
  ⟨arrays, pivot, num_lt, num_leq + num_req, num_gt, s.max_lt, s.min_gt⟩

/-- The partition of the pairs of strings and keys that the local variables describe. -/
def MkqsLocals.plain (l : MkqsLocals S) : Partition (S × KeyType) KeyType :=
  ⟨l.arrays.pairs, l.num_lt, l.num_eq, l.num_gt, l.max_lt, l.min_gt⟩

/-- The constructor up to its assertions. -/
def partitionChecked (a : CachedStrings S) : Option (MkqsLocals S) :=
  (pivotIndexChecked n a.cache).bind fun p =>
  (a.swap n 0 p).bind fun a =>
  (readAt n a.cache 0).bind fun pivot =>
  (subtract n 1).bind fun last =>
  (splitLoopChecked n pivot n ⟨a, 1, 1, last, last, 0, BitVec.allOnes 64⟩).bind fun s =>
  centerChecked n pivot s

end Partition

/-- `MKQSStep(ctx, strptr, cache, depth, CacheDirty)`, with its local variables at the end.  No
result means that an access is out of bounds, an index wraps, or an assertion fails. -/
def mkqsStepChecked {S : Type} (ss : StringSet S) (level : ℕ) (strptr : StringPtr)
    (cache depth : ℕ) (CacheDirty : Bool) (m : KeyMemory S) :
    Option (MkqsLocals S × MKQSStep × KeyMemory S) :=
  let n := strptr.size
  let strset := strptr.active
  let a : CachedStrings S := ⟨strset.get m.mem, fun i => m.keys (cache + i)⟩
  (if CacheDirty then a.fillCache n fun s => getUint64 ss s depth else some a).bind fun a =>
  (partitionChecked n a).bind fun l =>
  if MKQSStep.Asserts n l.plain then
    some (l, .ofPartition level strptr cache depth l.pivot l.plain,
      m.writePairs strset cache l.plain.array)
  else none

/-! ## Within bounds -/

section Bounds

variable {S : Type} {n : ℕ} {pivot : KeyType}

theorem med3Checked_eq (A : ℕ → KeyType) {i j k : ℕ} (hi : i < n) (hj : j < n) (hk : k < n) :
    med3Checked n A i j k = some (med3 A i j k) := by
  rw [med3Checked, med3, readAt_of_lt A hi, readAt_of_lt A hj, readAt_of_lt A hk]
  simp only [Option.bind_some]
  split_ifs <;> rfl

theorem pivotIndexChecked_eq (A : ℕ → KeyType) (hn : 3 ≤ n) :
    pivotIndexChecked n A = some (pivotIndex A n) := by
  have h₁ := med3Checked_eq (n := n) A (i := 0) (j := n / 8) (k := n / 4) (by omega) (by omega)
    (by omega)
  have h₂ := med3Checked_eq (n := n) A (i := n / 2 - n / 8) (j := n / 2) (k := n / 2 + n / 8)
    (by omega) (by omega) (by omega)
  have h₃ := med3Checked_eq (n := n) A (i := n - 1 - n / 4) (j := n - 1 - n / 8) (k := n - 3)
    (by omega) (by omega) (by omega)
  -- three elements are enough for no difference to wrap
  rw [pivotIndexChecked, h₁, Option.bind_some, subtract_of_le (by omega), Option.bind_some, h₂,
    Option.bind_some, subtract_of_le (by omega), Option.bind_some, subtract_of_le (by omega),
    Option.bind_some, subtract_of_le (by omega), Option.bind_some, subtract_of_le hn,
    Option.bind_some, h₃, Option.bind_some]
  exact med3Checked_eq A (med3_lt _ (by omega) (by omega) (by omega))
    (med3_lt _ (by omega) (by omega) (by omega)) (med3_lt _ (by omega) (by omega) (by omega))

namespace CachedStrings

variable {a : CachedStrings S} {i j : ℕ}

/-- The keys of the first places have been read. -/
theorem fillCache_eq (a : CachedStrings S) (key : S → KeyType) :
    a.fillCache n key =
      some { a with cache := fun i => if i < n then key (a.strings i) else a.cache i } := by
  -- the first `k` rounds fill the first `k` places
  have hloop : ∀ k ≤ n, (List.range k).foldlM (fun cache i =>
      (readAt n a.strings i).bind fun s => writeAt n cache i (key s)) a.cache =
        some fun i => if i < k then key (a.strings i) else a.cache i := by
    intro k
    induction k with
    | zero => exact fun _ => rfl
    | succ k ih =>
      intro hk
      rw [List.range_succ, List.foldlM_append, ih (by omega), Option.bind_eq_bind,
        Option.bind_some, List.foldlM_cons, readAt_of_lt _ hk, Option.bind_some,
        writeAt_of_lt _ hk, Option.bind_eq_bind, Option.bind_some, List.foldlM_nil]
      -- the new place, the earlier ones and those not reached yet
      refine congrArg some (funext fun i => ?_)
      rw [Function.update_apply]
      split_ifs <;> first | rfl | omega | (subst_vars; rfl)
  rw [fillCache, hloop n (le_refl n)]
  rfl

theorem swap_eq (hi : i < n) (hj : j < n) :
    a.swap n i j = some ⟨swapAt a.strings i j, swapAt a.cache i j⟩ := by
  rw [swap, exchangeAt_of_lt _ hi hj, exchangeAt_of_lt _ hi hj]
  rfl

end CachedStrings

theorem swapRangesChecked_eq {α : Type} (A : ℕ → α) {i j k : ℕ} (hi : i + k ≤ n)
    (hj : j + k ≤ n) : swapRangesChecked n i j k A = some (swapRanges i j k A) := by
  induction k with
  | zero => rfl
  | succ k ih =>
    rw [swapRangesChecked, ih (by omega) (by omega), Option.bind_some,
      exchangeAt_of_lt _ (by omega) (by omega)]
    rfl

/-- Strings and keys are exchanged in the same way. -/
theorem pairs_swapRanges (a : CachedStrings S) (i j k : ℕ) :
    (⟨Library.swapRanges i j k a.strings, Library.swapRanges i j k a.cache⟩ :
      CachedStrings S).pairs = Library.swapRanges i j k a.pairs := by
  -- one exchange after the other, on pairs as on both arrays
  induction k with
  | zero => rfl
  | succ k ih =>
    funext p
    exact congrFun (congrArg (swapAt · (i + k) (j + k)) ih) p

theorem CachedStrings.swapRanges_eq (a : CachedStrings S) {i j k : ℕ} (hi : i + k ≤ n)
    (hj : j + k ≤ n) : a.swapRanges n i j k =
      some ⟨Library.swapRanges i j k a.strings, Library.swapRanges i j k a.cache⟩ := by
  rw [CachedStrings.swapRanges, swapRangesChecked_eq _ hi hj, Option.bind_some,
    swapRangesChecked_eq _ hi hj]
  rfl

/-! ## The loops -/

theorem cmp_pos_iff {a b : KeyType} : cmp a b > 0 ↔ b < a := by
  rw [cmp]
  split_ifs with h₁ h₂ <;> simp [h₁]

theorem cmp_neg_iff {a b : KeyType} : cmp a b < 0 ↔ a < b := by
  rw [cmp]
  split_ifs with h₁ h₂
  · simp [lt_asymm h₁]
  · simp [h₂]
  · simp [h₂]

theorem cmp_zero_iff {a b : KeyType} : cmp a b = 0 ↔ a = b := by
  rw [cmp]
  split_ifs with h₁ h₂
  · simp [h₁.ne']
  · simp [h₂.ne]
  · simpa using le_antisymm (not_lt.mp h₁) (not_lt.mp h₂)

/-- The variables of the partition of pairs of strings and keys. -/
def MkqsScan.plain (s : MkqsScan S) : SplitEnd (S × KeyType) KeyType :=
  ⟨s.arrays.pairs, s.leq, s.llt, s.rgt, s.req, s.max_lt, s.min_gt⟩

variable {lo hi : KeyType} {A₀ : ℕ → S × KeyType}

/-- The first scan stays within bounds. -/
theorem scanUpChecked_eq {k : ℕ} {s : MkqsScan S} (hk : s.rgt + 1 - s.llt ≤ k)
    (h : s.plain.Ok Prod.snd pivot lo hi n A₀) :
    ∃ s', scanUpChecked n pivot (k + 1) s = some s' ∧
      s'.plain = scanUp Prod.snd pivot k s.plain := by
  induction k generalizing s with
  | zero =>
    rw [scanUpChecked, if_neg (by omega)]
    exact ⟨s, rfl, rfl⟩
  | succ k ih =>
    rw [scanUpChecked, scanUp]
    -- the indices stand in order, so that `llt` lies in the array while the loop goes on
    by_cases hle : s.llt ≤ s.rgt
    · have h₁ : s.leq ≤ s.llt := h.leq_le
      have h₂ : s.rgt ≤ s.req := h.rgt_le
      have h₃ : s.req < n := h.req_lt
      rw [if_pos hle, if_pos (show s.plain.llt ≤ s.plain.rgt from hle),
        readAt_of_lt _ (show s.llt < n by omega), Option.bind_some]
      simp only [cmp_pos_iff, cmp_zero_iff]
      -- the key in the cache is the second component of a pair
      change ∃ s', (if pivot < (s.plain.array s.plain.llt).2 then _
        else if (s.plain.array s.plain.llt).2 = pivot then _ else _) = some s' ∧ _
      split
      · exact ⟨_, rfl, rfl⟩
      · next hngt =>
        split
        · next heq =>
          -- equal to the pivot: collected at the left end
          rw [CachedStrings.swap_eq (by omega) (by omega), Option.bind_some]
          exact ih (by simp only; omega) (h.collect_left hle heq)
        · next hne =>
          -- less than the pivot: stays where it is
          have hlt := lt_of_le_of_ne (not_lt.mp hngt) hne
          exact ih (by simp only; omega)
            ((h.raise_max (show s.llt < n by omega) hlt).pass_lt hle hlt (le_max_right _ _))
    · rw [if_neg hle, if_neg (show ¬ s.plain.llt ≤ s.plain.rgt from hle)]
      exact ⟨s, rfl, rfl⟩

/-- The second scan stays within bounds, and its indices do not wrap. -/
theorem scanDownChecked_eq {k : ℕ} {s : MkqsScan S} (hk : s.rgt + 1 - s.llt ≤ k)
    (h : s.plain.Ok Prod.snd pivot lo hi n A₀) :
    ∃ s', scanDownChecked n pivot (k + 1) s = some s' ∧
      s'.plain = scanDown Prod.snd pivot k s.plain := by
  induction k generalizing s with
  | zero =>
    rw [scanDownChecked, if_neg (by omega)]
    exact ⟨s, rfl, rfl⟩
  | succ k ih =>
    rw [scanDownChecked, scanDown]
    by_cases hle : s.llt ≤ s.rgt
    · -- `llt` is behind the pivot, so `rgt` and `req` are positive
      have h₀ : 1 ≤ s.leq := h.one_le
      have h₁ : s.leq ≤ s.llt := h.leq_le
      have h₂ : s.rgt ≤ s.req := h.rgt_le
      have h₃ : s.req < n := h.req_lt
      rw [if_pos hle, if_pos (show s.plain.llt ≤ s.plain.rgt from hle),
        readAt_of_lt _ (show s.rgt < n by omega), Option.bind_some]
      simp only [cmp_neg_iff, cmp_zero_iff]
      change ∃ s', (if (s.plain.array s.plain.rgt).2 < pivot then _
        else if (s.plain.array s.plain.rgt).2 = pivot then _ else _) = some s' ∧ _
      split
      · exact ⟨_, rfl, rfl⟩
      · next hnlt =>
        split
        · next heq =>
          -- equal to the pivot: collected at the right end
          rw [CachedStrings.swap_eq (by omega) (by omega), Option.bind_some,
            decrement_of_pos (by omega), Option.bind_some, decrement_of_pos (by omega),
            Option.bind_some]
          exact ih (by simp only; omega) (h.collect_right hle heq)
        · next hne =>
          -- greater than the pivot: stays where it is
          have hgt := lt_of_le_of_ne (not_lt.mp hnlt) (Ne.symm hne)
          rw [decrement_of_pos (by omega), Option.bind_some]
          exact ih (by simp only; omega)
            ((h.lower_min (show s.rgt < n by omega) hgt).pass_gt hle hgt (min_le_right _ _))
    · rw [if_neg hle, if_neg (show ¬ s.plain.llt ≤ s.plain.rgt from hle)]
      exact ⟨s, rfl, rfl⟩

/-- The scans meet within bounds. -/
theorem splitLoopChecked_eq {k : ℕ} {s : MkqsScan S} (hk : s.rgt + 1 - s.llt < k)
    (h : s.plain.Ok Prod.snd pivot lo hi n A₀) :
    ∃ s', splitLoopChecked n pivot k s = some s' ∧
      s'.plain = splitLoop Prod.snd pivot k s.plain := by
  induction k generalizing s with
  | zero => omega
  | succ k ih =>
    -- the first scan, and what it leaves to the second one
    obtain ⟨s₁, hs₁, hplain₁⟩ := scanUpChecked_eq (le_refl _) h
    obtain ⟨h₁, hup, hrgt, hllt⟩ := h.scanUp (le_refl _)
    change s₁.plain = scanUp Prod.snd pivot (s.plain.rgt + 1 - s.plain.llt) s.plain at hplain₁
    rw [← hplain₁] at h₁ hup hrgt hllt
    -- the second scan begins where the first one ended
    obtain ⟨s₂, hs₂, hplain₂⟩ := scanDownChecked_eq (le_refl _) h₁
    obtain ⟨h₂, hup', hdown, hllt', hrgt'⟩ := h₁.scanDown (le_refl _) hup
    change s₂.plain = scanDown Prod.snd pivot (s₁.plain.rgt + 1 - s₁.plain.llt) s₁.plain
      at hplain₂
    rw [← hplain₂] at h₂ hup' hdown hllt' hrgt'
    rw [splitLoopChecked, hs₁, Option.bind_some, hs₂, Option.bind_some, splitLoop, ← hplain₁,
      ← hplain₂]
    by_cases hgt : s₂.llt > s₂.rgt
    · rw [if_pos hgt, if_pos (show s₂.plain.llt > s₂.plain.rgt from hgt)]
      exact ⟨s₂, rfl, rfl⟩
    · obtain ⟨hlt, h₃⟩ := h₂.exchange (not_lt.mp hgt) hup' hdown
      -- both have stopped at elements on the wrong side, so `rgt` is positive and the gap shrinks
      have hlt : s₂.llt < s₂.rgt := hlt
      have hllt : s.llt ≤ s₁.llt := hllt
      have hllt' : s₂.llt = s₁.llt := hllt'
      have hrgt : s₁.rgt = s.rgt := hrgt
      have hrgt' : s₂.rgt ≤ s₁.rgt := hrgt'
      have hreq : s₂.rgt ≤ s₂.req := h₂.rgt_le
      have hn : s₂.req < n := h₂.req_lt
      rw [if_neg hgt, if_neg (show ¬ s₂.plain.llt > s₂.plain.rgt from hgt),
        CachedStrings.swap_eq (by omega) (by omega), Option.bind_some,
        decrement_of_pos (by omega), Option.bind_some]
      exact ih (by simp only; omega) h₃

/-- Sizes and block exchanges stay within bounds. -/
theorem centerChecked_eq {s : MkqsScan S} (h : s.plain.Ok Prod.snd pivot lo hi n A₀)
    (hmeet : s.llt = s.rgt + 1) :
    ∃ l, centerChecked n pivot s = some l ∧ l.pivot = pivot ∧ l.plain = s.plain.center n := by
  have h₀ : 1 ≤ s.leq := h.one_le
  have h₁ : s.leq ≤ s.llt := h.leq_le
  have h₂ : s.rgt ≤ s.req := h.rgt_le
  have h₃ : s.req < n := h.req_lt
  -- the sizes of the four areas are differences of ordered indices
  rw [centerChecked, subtract_of_le (by omega), Option.bind_some, subtract_of_le (by omega),
    Option.bind_some, subtract_of_le h₁, Option.bind_some, subtract_of_le h₂, Option.bind_some]
  dsimp only
  -- neither exchange moves more than one of the areas holds
  rw [subtract_of_le (by omega), Option.bind_some,
    CachedStrings.swapRanges_eq _ (by omega) (by omega), Option.bind_some,
    subtract_of_le (by omega), Option.bind_some,
    CachedStrings.swapRanges_eq _ (by omega) (by omega), Option.map_some]
  refine ⟨_, rfl, rfl, ?_⟩
  have hpairs := (pairs_swapRanges ⟨_, _⟩ s.llt (n - min (n - 1 - s.req) (s.req - s.rgt))
    (min (n - 1 - s.req) (s.req - s.rgt))).trans (congrArg (Library.swapRanges _ _ _)
      (pairs_swapRanges s.arrays 0 (s.llt - min s.leq (s.llt - s.leq))
        (min s.leq (s.llt - s.leq))))
  exact congrArg (fun array => (⟨array, _, _, _, _, _⟩ : Partition (S × KeyType) KeyType)) hpairs

/-- The partition by the median stays within bounds. -/
theorem partitionChecked_eq (a : CachedStrings S) (hn : 3 ≤ n) :
    let A := swapAt a.pairs 0 (pivotIndex a.cache n)
    ∃ l, partitionChecked n a = some l ∧ l.pivot = (A 0).2 ∧
      l.plain = partition Prod.snd 0 (BitVec.allOnes 64) n A := by
  intro A
  -- the invariant holds with the pivot in front and all the rest between the scans
  have hstart := SplitEnd.Ok.start Prod.snd 0 (BitVec.allOnes 64) A (show 0 < n by omega)
  have hfuel : n - 1 + 1 - 1 < n := by omega
  obtain ⟨s, hs, hplain⟩ := splitLoopChecked_eq (n := n) (k := n) (s := ⟨⟨swapAt a.strings 0
    (pivotIndex a.cache n), swapAt a.cache 0 (pivotIndex a.cache n)⟩, 1, 1, n - 1, n - 1, 0,
    BitVec.allOnes 64⟩) hfuel hstart
  obtain ⟨hok, hmeet⟩ := hstart.splitLoop (k := n) hfuel
  change s.plain = splitLoop Prod.snd (A 0).2 n ⟨A, 1, 1, n - 1, n - 1, 0, BitVec.allOnes 64⟩
    at hplain
  -- the loop ends with the scans met, which is what the exchange to the center needs
  rw [← hplain] at hok hmeet
  obtain ⟨l, hl, hpivot, hl'⟩ := centerChecked_eq hok hmeet
  refine ⟨l, ?_, hpivot, ?_⟩
  · rw [partitionChecked, pivotIndexChecked_eq _ hn, Option.bind_some,
      CachedStrings.swap_eq (by omega) (pivotIndex_lt _ hn), Option.bind_some,
      readAt_of_lt _ (by omega), Option.bind_some, subtract_of_le (by omega), Option.bind_some]
    exact (congrArg (Option.bind · _) hs).trans hl
  · rw [hl', hplain]
    rfl

end Bounds

/-! ## The constructor -/

section Constructor

variable {S : Type}

/-- The keys that the constructor works with. -/
def stepKeys (ss : StringSet S) (strptr : StringPtr) (cache depth : ℕ) (CacheDirty : Bool)
    (m : KeyMemory S) (i : ℕ) : KeyType :=
  if CacheDirty = true ∧ i < strptr.size then getUint64 ss (strptr.active.get m.mem i) depth
  else m.keys (cache + i)

/-- Within bounds the constructor does what it does without checks. -/
theorem mkqsStepChecked_eq (ss : StringSet S) (level : ℕ) {strptr : StringPtr}
    (hn : 3 ≤ strptr.size) (cache depth : ℕ) (CacheDirty : Bool) (m : KeyMemory S) :
    let keys := stepKeys ss strptr cache depth CacheDirty m
    let A := swapAt (CachedStrings.mk (strptr.active.get m.mem) keys).pairs 0
      (pivotIndex keys strptr.size)
    ∃ l, mkqsStepChecked ss level strptr cache depth CacheDirty m =
        some (l, .ofPartition level strptr cache depth l.pivot l.plain,
          m.writePairs strptr.active cache l.plain.array) ∧
      mkqsStep ss level strptr cache depth CacheDirty m =
        some (.ofPartition level strptr cache depth l.pivot l.plain,
          m.writePairs strptr.active cache l.plain.array) ∧
      l.plain.Ok Prod.snd l.pivot strptr.size A := by
  intro keys A
  obtain ⟨l, hl, hpivot, hplain⟩ := partitionChecked_eq ⟨strptr.active.get m.mem, keys⟩ hn
  have hok : l.plain.Ok Prod.snd l.pivot strptr.size A := by
    rw [hplain, hpivot]
    exact partition_ok (fun k => BitVec.not_lt.mp BitVec.not_lt_zero)
      (fun k => BitVec.not_lt.mp BitVec.not_allOnes_lt) (by omega)
  refine ⟨l, ?_, ?_, hok⟩
  · -- the keys are read first if the cache is dirty
    have hfill : (if CacheDirty then (CachedStrings.mk (strptr.active.get m.mem) fun i =>
        m.keys (cache + i)).fillCache strptr.size fun s => getUint64 ss s depth
        else some ⟨strptr.active.get m.mem, fun i => m.keys (cache + i)⟩) =
          some ⟨strptr.active.get m.mem, keys⟩ := by
      cases CacheDirty with
      | false => exact congrArg some (congrArg _ (funext fun i => (if_neg (by simp)).symm))
      | true =>
        rw [if_pos rfl, CachedStrings.fillCache_eq]
        exact congrArg some (congrArg _ (funext fun i => if_congr (by simp) rfl rfl))
    rw [mkqsStepChecked, hfill, Option.bind_some]
    exact (congrArg (Option.bind · _) hl).trans (if_pos hok.asserts)
  · -- the plain constructor writes the keys into the whole cache, of which it reads its range
    have hstart : ∃ keys', (if CacheDirty then
        { m with keys := splice m.keys cache strptr.size fun i =>
          getUint64 ss (strptr.active.get m.mem i) depth } else m) = { m with keys := keys' } ∧
        (fun i => keys' (cache + i)) = keys ∧
        ∀ B, splice keys' cache strptr.size B = splice m.keys cache strptr.size B := by
      cases CacheDirty with
      | false => exact ⟨m.keys, rfl, funext fun i => (if_neg (by simp)).symm, fun _ => rfl⟩
      | true =>
        refine ⟨_, if_pos rfl, funext fun i => ?_, fun B => splice_splice ..⟩
        rw [splice]
        refine (if_congr (by simp [InWindow]) ?_ rfl)
        rw [Nat.add_sub_cancel_left]
    obtain ⟨keys', hkeys', hread, hwrite⟩ := hstart
    rw [mkqsStep, hkeys', hread]
    have hA : swapAt (KeyMemory.pairs { m with keys := keys' } strptr.active cache) 0
        (pivotIndex keys strptr.size) = A := by
      rw [show KeyMemory.pairs { m with keys := keys' } strptr.active cache =
        (CachedStrings.mk (strptr.active.get m.mem) keys).pairs from
          funext fun i => congrArg (Prod.mk _) (congrFun hread i)]
    rw [hA]
    change l.plain = partition Prod.snd 0 (BitVec.allOnes 64) strptr.size A at hplain
    rw [← hplain, if_pos hok.asserts, show (A 0).2 = l.pivot from hpivot.symm]
    refine congrArg some (congrArg (Prod.mk _) ?_)
    rw [KeyMemory.writePairs, KeyMemory.writePairs]
    exact congrArg (KeyMemory.mk _) (hwrite _)

/-- What the partition leaves of `n` strings and keys. -/
structure MkqsLocals.Ternary (n : ℕ) (strings : ℕ → S) (keys : ℕ → KeyType) (l : MkqsLocals S) :
    Prop where
  /-- strings and keys come from the same places -/
  permuted : ∃ w : List ℕ, w.Perm (List.range n) ∧
    contents l.arrays.strings n = w.map strings ∧ contents l.arrays.cache n = w.map keys
  total : l.num_lt + l.num_eq + l.num_gt = n
  eq_pos : 1 ≤ l.num_eq
  lt_iff : ∀ i < n, l.arrays.cache i < l.pivot ↔ i < l.num_lt
  eq_iff : ∀ i < n, l.arrays.cache i = l.pivot ↔ l.num_lt ≤ i ∧ i < l.num_lt + l.num_eq
  gt_iff : ∀ i < n, l.pivot < l.arrays.cache i ↔ l.num_lt + l.num_eq ≤ i
  max_lt : 0 < l.num_lt → (∃ i < l.num_lt, l.arrays.cache i = l.max_lt) ∧
    ∀ i < l.num_lt, l.arrays.cache i ≤ l.max_lt
  min_gt : 0 < l.num_gt →
    (∃ i, l.num_lt + l.num_eq ≤ i ∧ i < n ∧ l.arrays.cache i = l.min_gt) ∧
    ∀ i, l.num_lt + l.num_eq ≤ i → i < n → l.min_gt ≤ l.arrays.cache i

/-- The partition of pairs, seen from both arrays. -/
theorem MkqsLocals.ternary_of_ok {n p : ℕ} {strings : ℕ → S} {keys : ℕ → KeyType}
    {l : MkqsLocals S} (hn : 0 < n) (hp : p < n)
    (h : l.plain.Ok Prod.snd l.pivot n (swapAt (CachedStrings.mk strings keys).pairs 0 p)) :
    l.Ternary n strings keys := by
  have hsize : l.num_lt + l.num_eq + l.num_gt = n := h.size
  have hlt : ∀ i < l.num_lt, l.arrays.cache i < l.pivot ∧ l.arrays.cache i ≤ l.max_lt := h.lt
  have heq : ∀ i, l.num_lt ≤ i → i < l.num_lt + l.num_eq → l.arrays.cache i = l.pivot := h.eq
  have hgt : ∀ i, l.num_lt + l.num_eq ≤ i → i < n →
      l.pivot < l.arrays.cache i ∧ l.min_gt ≤ l.arrays.cache i := h.gt
  -- each place lies in one area, and the key at it compares as its area says
  have hclass : ∀ i < n, i < l.num_lt ∨ (l.num_lt ≤ i ∧ i < l.num_lt + l.num_eq) ∨
      l.num_lt + l.num_eq ≤ i := fun i _ => by omega
  obtain ⟨w, hw, hpairs⟩ := exists_places (h.perm.trans (swapAt_perm _ hn hp))
  refine ⟨⟨w, hw, ?_, ?_⟩, hsize, h.eq_pos, fun i hi => ⟨fun hk => ?_, fun hi' => (hlt i hi').1⟩,
    fun i hi => ⟨fun hk => ?_, fun hi' => heq i hi'.1 hi'.2⟩,
    fun i hi => ⟨fun hk => ?_, fun hi' => (hgt i hi' hi).1⟩,
    fun hpos => ⟨h.max_lt hpos, fun i hi => (hlt i hi).2⟩,
    fun hpos => ⟨h.min_gt hpos, fun i hi hin => (hgt i hi hin).2⟩⟩
  · have := congrArg (List.map Prod.fst) hpairs
    rwa [contents, List.map_map, List.map_map] at this
  · have := congrArg (List.map Prod.snd) hpairs
    rwa [contents, List.map_map, List.map_map] at this
  · rcases hclass i hi with hi' | hi' | hi'
    · exact hi'
    · exact absurd (heq i hi'.1 hi'.2) hk.ne
    · exact absurd (hgt i hi' hi).1 hk.not_gt
  · rcases hclass i hi with hi' | hi' | hi'
    · exact absurd hk (hlt i hi').1.ne
    · exact hi'
    · exact absurd hk (hgt i hi' hi).1.ne'
  · rcases hclass i hi with hi' | hi' | hi'
    · exact absurd (hlt i hi').1 hk.not_gt
    · exact absurd (heq i hi'.1 hi'.2) hk.ne'
    · exact hi'

/-- The fields of a step for its boundaries, in a range whose keys in sorted order are `K`. -/
structure MKQSStep.KeyBoundaries (ms : MKQSStep) (K : ℕ → KeyType) : Prop where
  lt : 0 < ms.num_lt →
    ms.lcp_lt = lcpKeyType (K (ms.num_lt - 1)) (K ms.num_lt) ∧
      ms.dchar_eq = getCharAtDepth (K ms.num_lt) ms.lcp_lt ∧
      K (ms.num_lt - 1) ≠ K ms.num_lt
  gt : 0 < ms.num_gt →
    ms.lcp_gt = lcpKeyType (K (ms.num_lt + ms.num_eq - 1)) (K (ms.num_lt + ms.num_eq)) ∧
      ms.dchar_gt = getCharAtDepth (K (ms.num_lt + ms.num_eq)) ms.lcp_gt ∧
      K (ms.num_lt + ms.num_eq - 1) ≠ K (ms.num_lt + ms.num_eq)

/-- The extremes are the keys next to the pivot in sorted order. -/
theorem MkqsLocals.Ternary.keyBoundaries {n : ℕ} {strings : ℕ → S} {keys : ℕ → KeyType}
    {l : MkqsLocals S} (h : l.Ternary n strings keys) (level : ℕ) (strptr : StringPtr)
    (cache depth : ℕ) {K : ℕ → KeyType} (hperm : (contents K n).Perm (contents keys n))
    (hK : MonotoneIn K 0 n) :
    (MKQSStep.ofPartition level strptr cache depth l.pivot l.plain).KeyBoundaries K := by
  have hsize := h.total
  have hpos := h.eq_pos
  obtain ⟨w, hw, -, hcache⟩ := h.permuted
  -- the keys in sorted order are those of the partitioned cache
  have hperm' : (contents K n).Perm (contents l.arrays.cache n) := by
    rw [hcache]
    exact hperm.trans (hw.map keys).symm
  have hpivot : l.arrays.cache l.num_lt = l.pivot :=
    (h.eq_iff l.num_lt (by omega)).mpr ⟨le_refl _, by omega⟩
  constructor
  · intro hlt
    have hlt : 0 < l.num_lt := hlt
    obtain ⟨⟨i, hi, hmax⟩, hle⟩ := h.max_lt hlt
    have hmaxlt : l.max_lt < l.pivot := hmax ▸ (h.lt_iff i (by omega)).mpr hi
    -- below the pivot `max_lt` comes last, and the pivot itself follows
    obtain ⟨h₁, h₂⟩ := neighbours_of_split hperm' hK hmaxlt hle
      (fun j hj hjn => not_lt.mp fun hlt => absurd ((h.lt_iff j hjn).mp hlt) (by omega))
      ⟨i, hi, hmax⟩ ⟨l.num_lt, le_refl _, by omega, hpivot⟩
    show (if l.num_lt > 0 then lcpKeyType l.max_lt l.pivot else 0) =
        lcpKeyType (K (l.num_lt - 1)) (K l.num_lt) ∧
      (if l.num_lt > 0 then getCharAtDepth l.pivot (lcpKeyType l.max_lt l.pivot) else 0) =
        getCharAtDepth (K l.num_lt) (if l.num_lt > 0 then lcpKeyType l.max_lt l.pivot else 0) ∧
      K (l.num_lt - 1) ≠ K l.num_lt
    rw [if_pos hlt, if_pos hlt, h₁, h₂]
    exact ⟨rfl, rfl, hmaxlt.ne⟩
  · intro hgt
    have hgt : 0 < l.num_gt := hgt
    obtain ⟨⟨i, hi, hin, hmin⟩, hle⟩ := h.min_gt hgt
    have hltmin : l.pivot < l.min_gt := hmin ▸ (h.gt_iff i hin).mpr hi
    -- the last equal key is followed by `min_gt`
    obtain ⟨h₁, h₂⟩ := neighbours_of_split hperm' hK hltmin
      (fun j hj => not_lt.mp fun hlt => absurd ((h.gt_iff j (by omega)).mp hlt) (by omega))
      hle ⟨l.num_lt, by omega, hpivot⟩ ⟨i, hi, hin, hmin⟩
    show (if l.num_gt > 0 then lcpKeyType l.pivot l.min_gt else 0) =
        lcpKeyType (K (l.num_lt + l.num_eq - 1)) (K (l.num_lt + l.num_eq)) ∧
      (if l.num_gt > 0 then getCharAtDepth l.min_gt (lcpKeyType l.pivot l.min_gt) else 0) =
        getCharAtDepth (K (l.num_lt + l.num_eq))
          (if l.num_gt > 0 then lcpKeyType l.pivot l.min_gt else 0) ∧
      K (l.num_lt + l.num_eq - 1) ≠ K (l.num_lt + l.num_eq)
    rw [if_pos hgt, if_pos hgt, h₁, h₂]
    exact ⟨rfl, rfl, hltmin.ne⟩

/-- The fields of a step for its boundaries, when its strings have been sorted into `B`: common
prefixes, and the characters behind them. -/
structure MKQSStep.StringBoundaries (ms : MKQSStep) (ss : StringSet S) (B : ℕ → S) : Prop where
  lt : 0 < ms.num_lt →
    lcpLen (ss.chars (B (ms.num_lt - 1))) (ss.chars (B ms.num_lt)) = ms.depth + ms.lcp_lt ∧
      (ss.chars (B ms.num_lt)).getD (ms.depth + ms.lcp_lt) 0 = ms.dchar_eq
  gt : 0 < ms.num_gt →
    lcpLen (ss.chars (B (ms.num_lt + ms.num_eq - 1))) (ss.chars (B (ms.num_lt + ms.num_eq))) =
        ms.depth + ms.lcp_gt ∧
      (ss.chars (B (ms.num_lt + ms.num_eq))).getD (ms.depth + ms.lcp_gt) 0 = ms.dchar_gt

theorem MkqsLocals.Ternary.stringBoundaries {n : ℕ} {strings : ℕ → S} {keys : ℕ → KeyType}
    {l : MkqsLocals S} (h : l.Ternary n strings keys) (level : ℕ) (strptr : StringPtr)
    (cache : ℕ) {depth : ℕ} {ss : StringSet S} (hset : ss.Sortable)
    (hshare : SharesDepth ss.chars strings n depth)
    (hkeys : ∀ i < n, keys i = getUint64 ss (strings i) depth) {B : ℕ → S}
    (hperm : (contents B n).Perm (contents strings n)) (hB : MonotoneIn (ss.chars ∘ B) 0 n) :
    (MKQSStep.ofPartition level strptr cache depth l.pivot l.plain).StringBoundaries ss B := by
  have hshareB := hshare.perm hperm
  have hsize := h.total
  have hpos := h.eq_pos
  -- strings in order have their keys in order
  have hK : MonotoneIn (fun i => keyAt (ss.chars (B i)) depth) 0 n := fun p q hp hq hpq =>
    keyAt_le_keyAt (hset.noNul _) (hset.noNul _)
      (hshareB p (by have := hp.2; omega) q (by have := hq.2; omega)) (hB p q hp hq hpq)
  have hpermK : (contents (fun i => keyAt (ss.chars (B i)) depth) n).Perm (contents keys n) := by
    rw [contents_congr fun i hi => (hkeys i hi).trans
      (hset.key_eq _ _ (ss.length_chars _ ▸ hshare.le_length hi))]
    have hmap := hperm.map fun s => keyAt (ss.chars s) depth
    rwa [contents, contents, List.map_map, List.map_map] at hmap
  obtain ⟨hlt, hgt⟩ := h.keyBoundaries level strptr cache depth hpermK hK
  -- two neighbours with different keys differ within the key, where the keys say
  constructor
  · intro hlt0
    obtain ⟨h₁, h₂, h₃⟩ := hlt hlt0
    have hlt0 : 0 < l.num_lt := hlt0
    exact lcp_of_keys hset (hshareB (l.num_lt - 1) (by omega) l.num_lt (by omega)) h₁ h₂ h₃
  · intro hgt0
    obtain ⟨h₁, h₂, h₃⟩ := hgt hgt0
    have hgt0 : 0 < l.num_gt := hgt0
    exact lcp_of_keys hset
      (hshareB (l.num_lt + l.num_eq - 1) (by omega) (l.num_lt + l.num_eq) (by omega)) h₁ h₂ h₃

/-- For at least 32 strings, and any keys, the constructor has a result: all its accesses are
within bounds, no index wraps, and its assertions hold.  Strings and keys are permuted in the same
way into three areas, and the fields for the boundaries are right whenever the areas have been
sorted. -/
theorem mkqsStepChecked_partitions (ss : StringSet S) (level : ℕ) {strptr : StringPtr}
    (hn : 32 ≤ strptr.size) (cache depth : ℕ) (CacheDirty : Bool) (m : KeyMemory S) :
    let n := strptr.size
    let strings := strptr.active.get m.mem
    let keys := stepKeys ss strptr cache depth CacheDirty m
    ∃ l ms m', mkqsStepChecked ss level strptr cache depth CacheDirty m = some (l, ms, m') ∧
      l.Ternary n strings keys ∧
      (∀ i < n, strptr.active.get m'.mem i = l.arrays.strings i ∧
        m'.keys (cache + i) = l.arrays.cache i) ∧
      ms.num_lt = l.num_lt ∧ ms.num_eq = l.num_eq ∧ ms.num_gt = l.num_gt ∧
      (∀ K, (contents K n).Perm (contents keys n) → MonotoneIn K 0 n → ms.KeyBoundaries K) ∧
      (ss.Sortable → SharesDepth ss.chars strings n depth →
        (∀ i < n, keys i = getUint64 ss (strings i) depth) →
        ∀ B, (contents B n).Perm (contents strings n) → MonotoneIn (ss.chars ∘ B) 0 n →
          ms.StringBoundaries ss B) := by
  intro n strings keys
  obtain ⟨l, hchecked, -, hok⟩ :=
    mkqsStepChecked_eq ss level (show 3 ≤ strptr.size by omega) cache depth CacheDirty m
  have hternary : l.Ternary n strings keys :=
    MkqsLocals.ternary_of_ok (by omega) (pivotIndex_lt _ (by omega)) hok
  refine ⟨l, _, _, hchecked, hternary, fun i hi => ⟨?_, splice_add _ _ _ hi⟩, rfl, rfl, rfl,
    fun K hperm hK => hternary.keyBoundaries level strptr cache depth hperm hK,
    fun hset hshare hkeys B hperm hB =>
      hternary.stringBoundaries level strptr cache hset hshare hkeys hperm hB⟩
  rw [KeyMemory.writePairs, StringRange.get, Memory.write_strings_self]
  exact splice_add _ _ _ hi

/-- Thirty-two words with five different keys. -/
theorem mkqsStepChecked_partitions_words :
    let range : StringRange := ⟨.original, 0, 32⟩
    let strptr : StringPtr := ⟨range, range, range, 0, 0, false⟩
    let m : KeyMemory (CString wordMem) :=
      ⟨⟨fun _ => word, fun _ => 0, fun _ => 0⟩, fun _ => 0⟩
    let ss := UCharStringSet wordMem
    let n := strptr.size
    let strings := strptr.active.get m.mem
    let keys := stepKeys ss strptr 0 0 true m
    ∃ l ms m', mkqsStepChecked ss 0 strptr 0 0 true m = some (l, ms, m') ∧
      l.Ternary n strings keys ∧
      (∀ i < n, strptr.active.get m'.mem i = l.arrays.strings i ∧
        m'.keys (0 + i) = l.arrays.cache i) ∧
      ms.num_lt = l.num_lt ∧ ms.num_eq = l.num_eq ∧ ms.num_gt = l.num_gt ∧
      (∀ K, (contents K n).Perm (contents keys n) → MonotoneIn K 0 n → ms.KeyBoundaries K) ∧
      (ss.Sortable → SharesDepth ss.chars strings n 0 →
        (∀ i < n, keys i = getUint64 ss (strings i) 0) →
        ∀ B, (contents B n).Perm (contents strings n) → MonotoneIn (ss.chars ∘ B) 0 n →
          ms.StringBoundaries ss B) :=
  mkqsStepChecked_partitions _ 0 (by decide) 0 0 true _

end Constructor

end StringSampleSort
