import StringSampleSort.Sequential.BucketOrder
import StringSampleSort.Sequential.PermuteBounds
import StringSampleSort.Sequential.RadixSort
import StringSampleSort.Sequential.SampleSort

/-!
# The recursion of the sequential sample sorts

All sequential sample sorts of `src/sequential` work in the same way: they send small ranges to
`sample_sort_small_sort`; steps 1 to 4, in which they differ, rearrange a large range by buckets;
step 5 is a recursive call for each bucket that needs one.

## Main results

- `recursionLoop_spec`: step 5 sorts a range that has been rearranged by buckets
- `Level.Ok.decreases`: a recursive call has fewer characters left, or as many and fewer strings
- `sampleSort_sorts`: with enough levels of recursion the range is sorted
-/

namespace StringSampleSort

open Library Slice

/-! ## Model -/

section Model

variable {mem : ℕ → CharType}

/-- What steps 1 to 4 find out about a range: the bucket sizes, the strings in their buckets, what
is added to the depth for the even bucket before a splitter, and whether the equal bucket of a
splitter is done. -/
structure Level (mem : ℕ → CharType) where
  bktsize : ℕ → ℕ
  strings : ℕ → CString mem
  less : ℕ → ℕ
  done : ℕ → Bool

/-- Step 5 from the even bucket `i` on, which starts at `bsum`, with `pairs` pairs of buckets left;
`sort b` is the recursive call for bucket `b`.  The results are the strings, and `i` and `bsum` at
the end. -/
def recursionLoop (sort : ℕ → (ℕ → CString mem) → ℕ → ℕ → Option (SortResult mem))
    (lv : Level mem) (depth : ℕ) :
    ℕ → ℕ → ℕ → SortResult mem → Option (SortResult mem × ℕ × ℕ)
  | 0, i, bsum, r =>
    (if lv.bktsize i > 0 then
      sortWindow (fun A => sort i A (lv.bktsize i) depth) bsum (lv.bktsize i) r
      else some r).map fun r => (r, i + 1, bsum + lv.bktsize i)
  | pairs + 1, i, bsum, r =>
    -- i is even -> bkt[i] is less-than bucket
    (if lv.bktsize i > 1 then
      sortWindow (fun A => sort i A (lv.bktsize i) (depth + lv.less (i / 2))) bsum
        (lv.bktsize i) r
      else some r).bind fun r =>
    -- i is odd -> bkt[i] is equal bucket
    (if lv.bktsize (i + 1) > 1 then
      if lv.done ((i + 1) / 2) then some r
      else sortWindow (fun A => sort (i + 1) A (lv.bktsize (i + 1)) (depth + 8))
        (bsum + lv.bktsize i) (lv.bktsize (i + 1)) r
      else some r).bind fun r =>
    recursionLoop sort lv depth pairs (i + 2) (bsum + lv.bktsize i + lv.bktsize (i + 1)) r

/-- A sequential sample sort with `numsplitters` splitters, for at most `fuel` levels of recursion.
`level` does steps 1 to 4; the random numbers depend on the path to the call, since `LCGRandom` is
seeded with a stack address.  No result means that an assertion fails. -/
def sampleSort (numsplitters : ℕ)
    (level : (ℕ → ℕ) → (ℕ → CString mem) → ℕ → ℕ → Option (Level mem))
    (rng : List ℕ → ℕ → ℕ) :
    ℕ → List ℕ → (ℕ → CString mem) → ℕ → ℕ → Option (SortResult mem)
  | 0, _, _, _, _ => none
  | fuel + 1, path, strings, n, depth =>
    if n < samplesortSmallsort then
      (msdCI fuel strings n depth).map fun r => (r.1, ⟨strings, n, depth⟩ :: r.2)
    else
      (level (rng path) strings n depth).bind fun lv =>
        (recursionLoop (fun b A m d => sampleSort numsplitters level rng fuel (path ++ [b]) A m d)
          lv depth numsplitters 0 0 (lv.strings, [⟨strings, n, depth⟩])).bind fun r =>
          if r.2.1 = 2 * numsplitters + 1 ∧ r.2.2 = n then some r.1 else none

end Model

/-! ## Right levels -/

section Levels

variable {mem : ℕ → CharType}

theorem sharesDepth_zero (strings : ℕ → CString mem) (n : ℕ) :
    SharesDepth (UCharStringSet mem).chars strings n 0 := fun _ _ _ _ =>
  ⟨Nat.zero_le _, Nat.zero_le _, rfl⟩

theorem SharesDepth.reaches {strings : ℕ → CString mem} {n depth p : ℕ}
    (h : SharesDepth (UCharStringSet mem).chars strings n depth) (hp : p < n) :
    depth ≤ (strings p).len := by
  have hle := h.le_length hp
  rwa [StringSet.length_chars] at hle

/-- The range has been rearranged by the buckets of sorted splitters, and each bucket gets the
depth that its strings share. -/
structure Level.Ok (numsplitters : ℕ) (strings : ℕ → CString mem) (n depth : ℕ)
    (ss : List KeyType) (bkt : KeyType → ℕ) (lv : Level mem) : Prop where
  arranged : Arranged (UCharStringSet mem).chars strings n depth ss bkt lv.bktsize lv.strings
  length_eq : ss.length = numsplitters
  less_eq : ∀ i < numsplitters, lv.less i = lessLcp ss i
  done_iff : ∀ i < numsplitters, lv.done i = true ↔ lowByte (ss.getD i 0) = 0

/-- Sorted keys of strings of the range are splitters for it. -/
theorem bucketed_of_keys {strings : ℕ → CString mem} {n depth : ℕ} {ss : List KeyType}
    {bkt : KeyType → ℕ} (hshare : SharesDepth (UCharStringSet mem).chars strings n depth)
    (hsorted : ss.Pairwise (· ≤ ·))
    (hkeys : ∀ k ∈ ss, ∃ q < n, k = getChar mem (strings q).ptr depth)
    (hbkt : ∀ key, IsBucket ss key (bkt key)) :
    Bucketed (InRange (UCharStringSet mem).chars strings n) depth ss bkt where
  noNul := by
    rintro x ⟨p, -, rfl⟩
    exact GenericCharStringSet.noNul false mem _
  share := by
    rintro x y ⟨p, hp, rfl⟩ ⟨q, hq, rfl⟩
    exact hshare p hp q hq
  sorted := hsorted
  splitter := by
    intro k hk
    obtain ⟨q, hq, rfl⟩ := hkeys k hk
    exact ⟨_, ⟨q, hq, rfl⟩, (getChar_eq_keyAt _ (hshare.reaches hq)).symm⟩
  isBucket := hbkt

/-- The sizes of the buckets, as step 2 counts them. -/
theorem Bucketed.tallies {depth : ℕ} {ss : List KeyType} {bkt : KeyType → ℕ}
    {R : List CharType → Prop} (hbkt : Bucketed R depth ss bkt) (strings : ℕ → CString mem)
    (n : ℕ) :
    Tallies (fun b => ((contents strings n).map fun s => bkt (getChar mem s.ptr depth)).count b)
      (fun s => bkt (getChar mem s.ptr depth)) (2 * ss.length + 1) n strings :=
  tallies_count _ strings fun _ _ => hbkt.bucket_lt _

/-- A range is arranged when each bucket is filled with its strings. -/
theorem Bucketed.arranged {strings sorted : ℕ → CString mem} {n depth : ℕ} {ss : List KeyType}
    {bkt : KeyType → ℕ} {size : ℕ → ℕ}
    (hbkt : Bucketed (InRange (UCharStringSet mem).chars strings n) depth ss bkt)
    (hshare : SharesDepth (UCharStringSet mem).chars strings n depth)
    (hperm : (contents sorted n).Perm (contents strings n))
    (htotal : bucketStart size (2 * ss.length + 1) = n)
    (hfilled : ∀ b < 2 * ss.length + 1, FilledFrom size
      (fun s : CString mem => bkt (getChar mem s.ptr depth)) sorted b (bucketStart size b)) :
    Arranged (UCharStringSet mem).chars strings n depth ss bkt size sorted := by
  refine ⟨hbkt, hperm, htotal, fun b hb p hp => ?_⟩
  have hlt : p < n := hp.2.trans_le (htotal ▸ bucketEnd_le size hb)
  rw [← getChar_eq_keyAt _ ((hshare.perm hperm).reaches hlt)]
  exact hfilled b hb p hp.1 hp.2

/-- Steps 2 to 4 with a bucket cache: each string goes to the bucket of its key. -/
theorem permuteInPlace_arranged {strings : ℕ → CString mem} {n depth : ℕ} {ss : List KeyType}
    {bkt : KeyType → ℕ} (hshare : SharesDepth (UCharStringSet mem).chars strings n depth)
    (hbkt : Bucketed (InRange (UCharStringSet mem).chars strings n) depth ss bkt) :
    let bktcache := (contents strings n).map fun s => bkt (getChar mem s.ptr depth)
    ∃ sorted, permuteInPlace (2 * ss.length + 1) n (fun b => bktcache.count b) strings
        (fun i => bktcache.getD i 0) = some sorted ∧
      Arranged (UCharStringSet mem).chars strings n depth ss bkt (fun b => bktcache.count b)
        sorted := by
  intro bktcache
  have htallies := hbkt.tallies strings n
  let find_bkt := fun s : CString mem => bkt (getChar mem s.ptr depth)
  have hget : ∀ p < n, (fun i => bktcache.getD i 0) p = find_bkt (strings p) := fun p hp => by
    simp [bktcache, find_bkt, contents, hp]
  obtain ⟨sorted, heq, hperm, hfilled⟩ := permuteInPlace_spec (Nat.succ_pos _) hget htallies
  exact ⟨sorted, heq, hbkt.arranged hshare hperm htallies.total hfilled⟩

/-- Steps 2 to 4 without a bucket cache. -/
theorem permuteInPlaceFind_arranged {strings : ℕ → CString mem} {n depth : ℕ} {ss : List KeyType}
    {bkt : KeyType → ℕ} (hshare : SharesDepth (UCharStringSet mem).chars strings n depth)
    (hbkt : Bucketed (InRange (UCharStringSet mem).chars strings n) depth ss bkt) :
    let find_bkt := fun s : CString mem => bkt (getChar mem s.ptr depth)
    let bktsize := fun b => ((contents strings n).map find_bkt).count b
    ∃ sorted, permuteInPlaceFind find_bkt (2 * ss.length + 1) n bktsize strings = some sorted ∧
      Arranged (UCharStringSet mem).chars strings n depth ss bkt bktsize sorted := by
  intro find_bkt bktsize
  have htallies := hbkt.tallies strings n
  obtain ⟨sorted, heq, hperm, hfilled⟩ := permuteInPlaceFind_spec (Nat.succ_pos _) htallies
  exact ⟨sorted, heq, hbkt.arranged hshare hperm htallies.total hfilled⟩

/-- `assert(bktindex[bktnum - 1] == n);`. -/
theorem Arranged.prefixSum_eq {strings sorted : ℕ → CString mem} {n depth : ℕ} {ss : List KeyType}
    {bkt : KeyType → ℕ} {size : ℕ → ℕ}
    (h : Arranged (UCharStringSet mem).chars strings n depth ss bkt size sorted) :
    prefixSum size (2 * ss.length) = n := by
  rw [StringSampleSort.prefixSum_eq, ← bucketStart_succ]
  exact h.total

/-- The strings of a bucket. -/
def Level.bucketStrings (lv : Level mem) (b : ℕ) : ℕ → CString mem :=
  fun k => lv.strings (bucketStart lv.bktsize b + k)

/-- The depth of the recursive call for a bucket. -/
def Level.bucketDepth (numsplitters : ℕ) (lv : Level mem) (depth b : ℕ) : ℕ :=
  if b = 2 * numsplitters then depth
  else if b % 2 = 0 then depth + lv.less (b / 2) else depth + 8

/-- There is a recursive call for the bucket. -/
def Level.recurses (numsplitters : ℕ) (lv : Level mem) (b : ℕ) : Bool :=
  if b = 2 * numsplitters then decide (lv.bktsize b > 0)
  else decide (lv.bktsize b > 1) && (decide (b % 2 = 0) || !lv.done (b / 2))

/-- The recursive call for a bucket, if there is one. -/
def Level.sorter (sort : ℕ → (ℕ → CString mem) → ℕ → ℕ → Option (SortResult mem))
    (numsplitters : ℕ) (lv : Level mem) (depth b : ℕ) :
    Option ((ℕ → CString mem) → Option (SortResult mem)) :=
  if lv.recurses numsplitters b then
    some fun A => sort b A (lv.bktsize b) (lv.bucketDepth numsplitters depth b) else none

section Loop

variable (sort : ℕ → (ℕ → CString mem) → ℕ → ℕ → Option (SortResult mem)) {numsplitters : ℕ}
  (lv : Level mem) (depth : ℕ) {i : ℕ} (bsum : ℕ) (r : SortResult mem)

theorem sortBucket_last (hi : i = 2 * numsplitters) :
    sortBucket (lv.sorter sort numsplitters depth i) bsum (lv.bktsize i) r =
      if lv.bktsize i > 0 then
        sortWindow (fun A => sort i A (lv.bktsize i) depth) bsum (lv.bktsize i) r
      else some r := by
  rw [Level.sorter, Level.recurses, Level.bucketDepth, if_pos hi, if_pos hi]
  by_cases h : lv.bktsize i > 0 <;> simp only [h, decide_true, decide_false, if_true, if_false,
    Bool.false_eq_true, sortBucket]

theorem sortBucket_even (hi : i % 2 = 0) (hn : i ≠ 2 * numsplitters) :
    sortBucket (lv.sorter sort numsplitters depth i) bsum (lv.bktsize i) r =
      if lv.bktsize i > 1 then
        sortWindow (fun A => sort i A (lv.bktsize i) (depth + lv.less (i / 2))) bsum
          (lv.bktsize i) r
      else some r := by
  rw [Level.sorter, Level.recurses, Level.bucketDepth, if_neg hn, if_neg hn, if_pos hi]
  by_cases h : lv.bktsize i > 1 <;> simp only [h, hi, decide_true, decide_false, if_true, if_false,
    Bool.false_eq_true, Bool.true_or, Bool.and_true, sortBucket]

theorem sortBucket_odd (hi : i % 2 = 1) :
    sortBucket (lv.sorter sort numsplitters depth i) bsum (lv.bktsize i) r =
      if lv.bktsize i > 1 then
        if lv.done (i / 2) then some r
        else sortWindow (fun A => sort i A (lv.bktsize i) (depth + 8)) bsum (lv.bktsize i) r
      else some r := by
  have hn : i ≠ 2 * numsplitters := by omega
  have hodd : ¬ i % 2 = 0 := by omega
  rw [Level.sorter, Level.recurses, Level.bucketDepth, if_neg hn, if_neg hn, if_neg hodd]
  by_cases h : lv.bktsize i > 1 <;> cases hd : lv.done (i / 2) <;> simp only [h, hodd, decide_true,
    decide_false, if_true, if_false, Bool.false_eq_true, Bool.false_or, Bool.and_true,
    Bool.and_false, Bool.not_true, Bool.not_false, sortBucket]

/-- Step 5 sorts the buckets one after the other. -/
theorem recursionLoop_eq {pairs : ℕ} (hi : i % 2 = 0) (hn : i + 2 * pairs = 2 * numsplitters) :
    recursionLoop sort lv depth pairs i (bucketStart lv.bktsize i) r =
      (sortBuckets (lv.sorter sort numsplitters depth) lv.bktsize (2 * pairs + 1) i
        (bucketStart lv.bktsize i) r).map fun r =>
        (r, i + (2 * pairs + 1), bucketStart lv.bktsize (i + (2 * pairs + 1))) := by
  induction pairs generalizing i r with
  | zero =>
    rw [recursionLoop, Nat.mul_zero, Nat.zero_add, sortBuckets,
      sortBucket_last sort lv depth _ r (by omega), bucketStart_succ]
    exact congrArg _ (Option.bind_fun_some _).symm
  | succ pairs ih =>
    rw [recursionLoop, show 2 * (pairs + 1) + 1 = (2 * pairs + 1) + 1 + 1 by ring, sortBuckets,
      sortBucket_even sort lv depth _ r hi (by omega), Option.map_bind, ← bucketStart_succ]
    refine Option.bind_congr fun r₁ _ => ?_
    rw [Function.comp_apply, sortBuckets, sortBucket_odd sort lv depth _ r₁ (by omega),
      Option.map_bind, ← bucketStart_succ]
    refine Option.bind_congr fun r₂ _ => ?_
    rw [Function.comp_apply, ih r₂ (by omega) (by omega),
      show i + (2 * pairs + 1 + 1 + 1) = i + 2 + (2 * pairs + 1) by ring]

end Loop

/-! ## What a call does -/

namespace Level.Ok

variable {numsplitters : ℕ} {strings : ℕ → CString mem} {n depth : ℕ} {ss : List KeyType}
  {bkt : KeyType → ℕ} {lv : Level mem} {b : ℕ}

theorem bucketDepth_even (h : lv.Ok numsplitters strings n depth ss bkt)
    (hb : b < 2 * numsplitters + 1) (heven : b % 2 = 0) :
    lv.bucketDepth numsplitters depth b = depth + lessLcp ss (b / 2) := by
  rw [Level.bucketDepth]
  split
  · -- nothing is added for the last bucket
    rw [lessLcp, if_pos (Or.inr (by have := h.length_eq; omega)), Nat.add_zero]
  · rw [h.less_eq _ (by omega)]

theorem bucketDepth_odd {depth : ℕ} (hodd : b % 2 = 1) :
    lv.bucketDepth numsplitters depth b = depth + 8 := by
  rw [Level.bucketDepth, if_neg (by omega), if_neg (by omega)]

/-- There are calls for buckets with strings only. -/
theorem pos_of_recurses (hr : lv.recurses numsplitters b = true) : 0 < lv.bktsize b := by
  rw [Level.recurses] at hr
  split at hr
  · exact of_decide_eq_true hr
  · rw [Bool.and_eq_true, decide_eq_true_iff] at hr
    omega

/-- There is no call for a done bucket. -/
theorem lowByte_of_recurses (h : lv.Ok numsplitters strings n depth ss bkt)
    (hb : b < 2 * numsplitters + 1) (hodd : b % 2 = 1)
    (hr : lv.recurses numsplitters b = true) : lowByte (ss.getD (b / 2) 0) ≠ 0 := by
  rw [Level.recurses, if_neg (by omega), Bool.and_eq_true, Bool.or_eq_true, decide_eq_true_iff,
    decide_eq_true_iff, Bool.not_eq_true'] at hr
  rw [ne_eq, ← h.done_iff _ (by omega), Bool.not_eq_true]
  rcases hr.2 with heven | hdone
  · omega
  · exact hdone

/-- A recursive call is for strings that share its depth. -/
theorem shares (h : lv.Ok numsplitters strings n depth ss bkt) (hb : b < 2 * numsplitters + 1)
    (hr : lv.recurses numsplitters b = true) :
    SharesDepth (UCharStringSet mem).chars (lv.bucketStrings b) (lv.bktsize b)
      (lv.bucketDepth numsplitters depth b) := by
  have hlen := h.length_eq
  rcases Nat.mod_two_eq_zero_or_one b with heven | hodd
  · obtain ⟨i, rfl⟩ : ∃ i, b = 2 * i := ⟨b / 2, by omega⟩
    rw [h.bucketDepth_even hb heven, Nat.mul_div_cancel_left i two_pos]
    exact h.arranged.even_share (by omega)
  · have hlow := h.lowByte_of_recurses hb hodd hr
    obtain ⟨i, rfl⟩ : ∃ i, b = 2 * i + 1 := ⟨b / 2, by omega⟩
    rw [bucketDepth_odd hodd]
    rw [show (2 * i + 1) / 2 = i by omega] at hlow
    exact h.arranged.odd_share (by omega) hlow

/-- A recursive call has fewer characters left, or as many and fewer strings. -/
theorem decreases (h : lv.Ok numsplitters strings n depth ss bkt) (hns : 0 < numsplitters)
    (hb : b < 2 * numsplitters + 1) (hr : lv.recurses numsplitters b = true) :
    recursionMeasure (UCharStringSet mem).chars (lv.bucketStrings b) (lv.bktsize b)
        (lv.bucketDepth numsplitters depth b) <
      recursionMeasure (UCharStringSet mem).chars strings n depth := by
  have hlen := h.length_eq
  rcases Nat.mod_two_eq_zero_or_one b with heven | hodd
  · have hss : ss ≠ [] := List.ne_nil_of_length_pos (by omega)
    rw [h.bucketDepth_even hb heven]
    obtain ⟨i, rfl⟩ : ∃ i, b = 2 * i := ⟨b / 2, by omega⟩
    exact h.arranged.even_decreases hss (by omega) (Nat.le_add_right ..)
  · have hlow := h.lowByte_of_recurses hb hodd hr
    have hpos := pos_of_recurses hr
    obtain ⟨i, rfl⟩ : ∃ i, b = 2 * i + 1 := ⟨b / 2, by omega⟩
    rw [bucketDepth_odd hodd]
    rw [show (2 * i + 1) / 2 = i by omega] at hlow
    exact h.arranged.odd_decreases (by omega) hlow hpos

/-- A bucket without a call is sorted: it has at most one string, or is done. -/
theorem sorted_of_not_recurses (h : lv.Ok numsplitters strings n depth ss bkt)
    (hb : b < 2 * numsplitters + 1) (hr : lv.recurses numsplitters b = false) :
    MonotoneIn ((UCharStringSet mem).chars ∘ lv.strings) (bucketStart lv.bktsize b)
      (lv.bktsize b) := by
  rcases Nat.lt_or_ge 1 (lv.bktsize b) with hsize | hsize
  · have hdone : b % 2 = 1 ∧ lv.done (b / 2) = true := by
      rw [Level.recurses] at hr
      split at hr
      · rw [decide_eq_false_iff_not] at hr
        omega
      · rw [decide_eq_true hsize, Bool.true_and, Bool.or_eq_false_iff, decide_eq_false_iff_not,
          Bool.not_eq_false'] at hr
        exact ⟨by omega, hr.2⟩
    obtain ⟨i, rfl⟩ : ∃ i, b = 2 * i + 1 := ⟨b / 2, by omega⟩
    have hlow := (h.done_iff _ (by omega)).mp hdone.2
    rw [show (2 * i + 1) / 2 = i by omega] at hlow
    intro p q hp hq _
    exact (h.arranged.eq_of_done (by have := h.length_eq; omega) hlow hp hq).le
  · exact monotoneIn_of_size_le_one _ hsize

/-- Step 5 sorts the range, and it ends behind the last bucket. -/
theorem recursionLoop_spec (h : lv.Ok numsplitters strings n depth ss bkt)
    {sort : ℕ → (ℕ → CString mem) → ℕ → ℕ → Option (SortResult mem)}
    (hsort : ∀ b < 2 * numsplitters + 1, lv.recurses numsplitters b = true →
      ∃ r, sort b (lv.bucketStrings b) (lv.bktsize b) (lv.bucketDepth numsplitters depth b) =
        some r ∧ StringsSorted (lv.bucketStrings b) (lv.bktsize b) r)
    {log : List (SortCall mem)} (hlog : ∀ c ∈ log, c.Shares) :
    ∃ r, recursionLoop sort lv depth numsplitters 0 0 (lv.strings, log) =
        some (r, 2 * numsplitters + 1, n) ∧ StringsSorted strings n r := by
  have hok : ∀ b, 0 ≤ b → b < 0 + (2 * numsplitters + 1) → BucketOk (UCharStringSet mem).chars
      SortCall.Shares lv.bktsize lv.strings (lv.sorter sort numsplitters depth) b := by
    intro b _ hb
    rw [Nat.zero_add] at hb
    rw [BucketOk, Level.sorter]
    cases hr : lv.recurses numsplitters b with
    | true => exact hsort b hb hr
    | false => exact h.sorted_of_not_recurses hb hr
  obtain ⟨r, hr, hbelow⟩ := sortBuckets_spec hok (sortedBelow_zero hlog)
  have htotal := h.arranged.total
  rw [h.length_eq] at htotal
  rw [Nat.zero_add] at hbelow
  have hsorted := hbelow.sortsTo htotal fun b c hbc hc p q hp hq => by
    have hlen := h.length_eq
    exact (h.arranged.lt_of_bucket_lt (by omega) (by omega) hbc hp hq).le
  refine ⟨r, ?_, hsorted.perm.trans h.arranged.perm, hsorted.sorted, hsorted.log⟩
  have hloop := recursionLoop_eq sort lv depth (lv.strings, log) (i := 0) rfl
    (Nat.zero_add (2 * numsplitters))
  rw [hr, Option.map_some, Nat.zero_add, htotal] at hloop
  exact hloop

/-- Enough levels for each bucket are enough for all of them. -/
theorem exists_levels (h : lv.Ok numsplitters strings n depth ss bkt)
    (sort : ℕ → ℕ → (ℕ → CString mem) → ℕ → ℕ → Option (SortResult mem))
    (hsort : ∀ b < 2 * numsplitters + 1, lv.recurses numsplitters b = true →
      ∃ levels, ∀ fuel ≥ levels, ∃ r,
        sort fuel b (lv.bucketStrings b) (lv.bktsize b) (lv.bucketDepth numsplitters depth b) =
          some r ∧ StringsSorted (lv.bucketStrings b) (lv.bktsize b) r)
    {log : List (SortCall mem)} (hlog : ∀ c ∈ log, c.Shares) :
    ∃ levels, ∀ fuel ≥ levels, ∃ r,
      recursionLoop (sort fuel) lv depth numsplitters 0 0 (lv.strings, log) =
        some (r, 2 * numsplitters + 1, n) ∧ StringsSorted strings n r := by
  have hbuckets : ∀ b, ∃ levels, b < 2 * numsplitters + 1 → lv.recurses numsplitters b = true →
      ∀ fuel ≥ levels, ∃ r,
        sort fuel b (lv.bucketStrings b) (lv.bktsize b) (lv.bucketDepth numsplitters depth b) =
          some r ∧ StringsSorted (lv.bucketStrings b) (lv.bktsize b) r := by
    intro b
    by_cases hb : b < 2 * numsplitters + 1 ∧ lv.recurses numsplitters b = true
    · obtain ⟨levels, hlevels⟩ := hsort b hb.1 hb.2
      exact ⟨levels, fun _ _ => hlevels⟩
    · exact ⟨0, fun h₁ h₂ => absurd ⟨h₁, h₂⟩ hb⟩
  choose levels hlevels using hbuckets
  refine ⟨(Finset.range (2 * numsplitters + 1)).sup levels, fun fuel hfuel => ?_⟩
  exact h.recursionLoop_spec (fun b hb hrec => hlevels b hb hrec fuel
    ((Finset.le_sup (Finset.mem_range.mpr hb)).trans hfuel)) hlog

/-- The strings of a bucket are strings of the range. -/
theorem bucketStrings_mem (h : lv.Ok numsplitters strings n depth ss bkt)
    (hb : b < 2 * numsplitters + 1) {p : ℕ} (hp : p < lv.bktsize b) :
    ∃ q < n, strings q = lv.bucketStrings b p := by
  have hlen := h.length_eq
  exact exists_of_perm h.arranged.perm (h.arranged.lt_size (by omega)
    ⟨Nat.le_add_right .., Nat.add_lt_add_left hp _⟩)

end Level.Ok

/-! ## The whole recursion -/

/-- Steps 1 to 4 of a large range of strings that share their depth rearrange it rightly, whatever
numbers are drawn. -/
def RightLevels (numsplitters : ℕ)
    (level : (ℕ → ℕ) → (ℕ → CString mem) → ℕ → ℕ → Option (Level mem)) : Prop :=
  ∀ (rng : ℕ → ℕ) (strings : ℕ → CString mem) (n depth : ℕ), samplesortSmallsort ≤ n →
    SharesDepth (UCharStringSet mem).chars strings n depth →
    ∃ lv ss bkt, level rng strings n depth = some lv ∧
      lv.Ok numsplitters strings n depth ss bkt

/-- With enough levels of recursion, the strings of a range that share their depth are sorted. -/
theorem sampleSort_sorts {numsplitters : ℕ}
    {level : (ℕ → ℕ) → (ℕ → CString mem) → ℕ → ℕ → Option (Level mem)}
    (hns : 0 < numsplitters) (hlevel : RightLevels numsplitters level) (rng : List ℕ → ℕ → ℕ)
    (path : List ℕ) {strings : ℕ → CString mem} {n depth : ℕ}
    (hlen : ∀ p < n, (strings p).len < 2 ^ 31)
    (hshare : SharesDepth (UCharStringSet mem).chars strings n depth) :
    ∃ levels, ∀ fuel ≥ levels, ∃ r,
      sampleSort numsplitters level rng fuel path strings n depth = some r ∧
        StringsSorted strings n r := by
  have hlog : ∀ c ∈ [(⟨strings, n, depth⟩ : SortCall mem)], c.Shares := by
    intro c hc
    rw [List.mem_singleton.mp hc]
    exact hshare
  rcases Nat.lt_or_ge n samplesortSmallsort with hsmall | hlarge
  · -- a small range is sorted within as many levels as it has characters
    refine ⟨2 ^ 31 + 2, fun fuel hfuel => ?_⟩
    obtain ⟨fuel, rfl⟩ : ∃ m, fuel = m + 1 := ⟨fuel - 1, by omega⟩
    obtain ⟨r, hr, hsorted⟩ := msdCI_spec (show 0 < fuel by omega) hlen
      (fun p hp => by have := hlen p hp; omega) hshare
    refine ⟨(r.1, ⟨strings, n, depth⟩ :: r.2), ?_, hsorted.perm, hsorted.sorted, ?_⟩
    · rw [sampleSort, if_pos hsmall, hr]
      rfl
    · exact List.forall_mem_cons.mpr ⟨hshare, hsorted.log⟩
  · obtain ⟨lv, ss, bkt, hlv, hok⟩ := hlevel (rng path) strings n depth hlarge hshare
    obtain ⟨levels, hlevels⟩ := hok.exists_levels
      (fun fuel b A m d => sampleSort numsplitters level rng fuel (path ++ [b]) A m d)
      (fun b hb hrec => by
        have hdecreases := hok.decreases hns hb hrec
        have hlen' : ∀ p < lv.bktsize b, (lv.bucketStrings b p).len < 2 ^ 31 := by
          intro p hp
          obtain ⟨q, hq, heq⟩ := hok.bucketStrings_mem hb hp
          rw [← heq]
          exact hlen q hq
        exact sampleSort_sorts hns hlevel rng (path ++ [b]) hlen' (hok.shares hb hrec)) hlog
    refine ⟨levels + 1, fun fuel hfuel => ?_⟩
    obtain ⟨fuel, rfl⟩ : ∃ m, fuel = m + 1 := ⟨fuel - 1, by omega⟩
    obtain ⟨r, hr, hsorted⟩ := hlevels fuel (by omega)
    refine ⟨r, ?_, hsorted⟩
    rw [sampleSort, if_neg (by omega), hlv, Option.bind_some, hr, Option.bind_some,
      if_pos ⟨rfl, rfl⟩]
termination_by recursionMeasure (UCharStringSet mem).chars strings n depth
decreasing_by exact hdecreases

end Levels

end StringSampleSort
