import StringSampleSort.Sequential.Classifier
import StringSampleSort.Sequential.PermuteInPlace
import StringSampleSort.Tools.KeyWindow

/-!
# Sequential sample sort

Model of `sample_sort_generic` of `src/sequential/bingmann-sample_sort.cpp` as the calls that it
makes: each call classifies the strings of its range, rearranges them, and calls itself for the
buckets, until a range is small enough for `sample_sort_small_sort`.

A call is safe when none of its strings ends before its depth.  The recursion keeps calls safe
with one exception: `ClassifyBinarySearch` does not mark the splitters that contain a
terminator, so strings that share such a key are sorted from a depth behind their ends.

## Main results

- `sampleSortGeneric_spec`: the buckets that a call works on, and the calls it makes for them
- `calls_safe_iff`: when all calls that a safe call makes are safe
- `allCallsSafe_iff`: when all calls of a run are safe
-/

namespace StringSampleSort

open Library

/-! ## Model -/

/-- `g_samplesort_smallsort`. -/
def samplesortSmallsort : ℕ := 32 * 1024

/-- A call of `sample_sort_generic`, or of `sample_sort_small_sort`, for the strings from
`strings` on. -/
structure Call (mem : ℕ → CharType) where
  smallSort : Bool
  strings : ℕ → CString mem
  n : ℕ
  depth : ℕ

section Model

variable {mem : ℕ → CharType}

/-- Step 1: the sorted sample; `rng` gives the numbers that `LCGRandom` draws. -/
def sortedSample (rng : ℕ → ℕ) (c : Call mem) (samplesize : ℕ) : ℕ → KeyType :=
  stdSort ((List.range samplesize).map fun i =>
    getChar mem (c.strings (rng i % c.n)).ptr c.depth)

/-- Step 5: the calls for the buckets from the even bucket `i` on, which starts at `bsum`, with
`pairs` pairs of buckets left. -/
def recursionCalls (strings : ℕ → CString mem) (bktsize : ℕ → ℕ) (splitter_lcp : ℕ → BitVec 8)
    (depth : ℕ) : ℕ → ℕ → ℕ → List (Call mem)
  | 0, i, bsum =>
    if bktsize i > 0 then [⟨false, fun k => strings (bsum + k), bktsize i, depth⟩] else []
  | pairs + 1, i, bsum =>
    (if bktsize i > 1 then
      [⟨false, fun k => strings (bsum + k), bktsize i,
        depth + (splitter_lcp (i / 2) &&& 0x7F).toNat⟩] else []) ++
    (if bktsize (i + 1) > 1 then
      if splitter_lcp ((i + 1) / 2) &&& 0x80 ≠ 0 then []
      else [⟨false, fun k => strings (bsum + bktsize i + k), bktsize (i + 1), depth + 8⟩]
      else []) ++
    recursionCalls strings bktsize splitter_lcp depth pairs (i + 2)
      (bsum + bktsize i + bktsize (i + 1))

/-- `sample_sort_generic<Classify>(strings, n, depth)`: the calls that it makes.  No result
means an abort or an access outside the arrays. -/
def sampleSortGeneric (cl : ClassifierClass) (treebits : ℕ) (rng : ℕ → ℕ) (c : Call mem) :
    Option (List (Call mem)) :=
  if c.smallSort then some []
  else if c.n < samplesortSmallsort then some [{ c with smallSort := true }]
  else
    let samplesize := 2 * numsplitters treebits
    let bktnum := 2 * numsplitters treebits + 1
    let a := (cl.instantiate treebits).build (sortedSample rng c samplesize) samplesize
    let keys := (contents c.strings c.n).map fun s => getChar mem s.ptr c.depth
    ((cl.instantiate treebits).classify a keys).bind fun bktcache =>
      let bktsize := fun b => bktcache.count b
      (permuteInPlace bktnum c.n bktsize c.strings fun i => bktcache.getD i 0).map fun strings =>
        recursionCalls strings bktsize a.lcp c.depth (numsplitters treebits) 0 0

/-- A run of the sequential sample sort: calls with their path in the tree of calls.  The
numbers that are drawn depend on the path, since `LCGRandom` is seeded with a stack address. -/
def sampleSortRun (cl : ClassifierClass) (treebits : ℕ) (rng : List ℕ → ℕ → ℕ)
    (strings : ℕ → CString mem) (n : ℕ) : Transition (List ℕ × Call mem) ℕ where
  init s := s = ([], ⟨false, strings, n, 0⟩)
  step s i s' := ∃ calls c, sampleSortGeneric cl treebits (rng s.1) s.2 = some calls ∧
    calls[i]? = some c ∧ s' = (s.1 ++ [i], c)

/-- No string of the range ends before the depth of the call. -/
def Call.Safe (c : Call mem) : Prop := ∀ k < c.n, c.depth ≤ (c.strings k).len

end Model

/-! ## The sample -/

section Sample

variable {mem : ℕ → CharType} (rng : ℕ → ℕ) (c : Call mem)

theorem sortedSample_sorted (samplesize : ℕ) :
    SortedSamples (sortedSample rng c samplesize) samplesize := by
  have hsorted := stdSort_sorted ((List.range samplesize).map fun i =>
    getChar mem (c.strings (rng i % c.n)).ptr c.depth)
  rwa [List.length_map, List.length_range] at hsorted

/-- A sample is the key of a string of the range. -/
theorem sortedSample_mem (hn : 0 < c.n) {samplesize i : ℕ} (hi : i < samplesize) :
    ∃ k < c.n, sortedSample rng c samplesize i = getChar mem (c.strings k).ptr c.depth := by
  have hmem : sortedSample rng c samplesize i ∈ (List.range samplesize).map fun i =>
      getChar mem (c.strings (rng i % c.n)).ptr c.depth := stdSort_mem (by simpa using hi)
  obtain ⟨j, -, hj⟩ := List.mem_map.mp hmem
  exact ⟨rng j % c.n, Nat.mod_lt _ hn, hj.symm⟩

end Sample

/-! ## The calls for the buckets -/

section Calls

variable {mem : ℕ → CharType} (strings : ℕ → CString mem) (bktsize : ℕ → ℕ)
  (splitter_lcp : ℕ → BitVec 8) (depth : ℕ)

/-- The call for bucket `b` of `2 * n + 1` buckets, if there is one. -/
def bucketCall (n b : ℕ) : Option (Call mem) :=
  let call := fun depth => (⟨false, fun k => strings (bucketStart bktsize b + k), bktsize b,
    depth⟩ : Call mem)
  if b = 2 * n then if bktsize b > 0 then some (call depth) else none
  else if b % 2 = 0 then
    if bktsize b > 1 then some (call (depth + (splitter_lcp (b / 2) &&& 0x7F).toNat)) else none
  else if bktsize b > 1 ∧ splitter_lcp (b / 2) &&& 0x80 = 0 then some (call (depth + 8))
  else none

/-- The loop makes the calls for the buckets from `i` on. -/
theorem recursionCalls_eq {n pairs i : ℕ} (hi : i % 2 = 0) (hn : i + 2 * pairs = 2 * n) :
    recursionCalls strings bktsize splitter_lcp depth pairs i (bucketStart bktsize i) =
      (List.range' i (2 * pairs + 1)).filterMap
        (bucketCall strings bktsize splitter_lcp depth n) := by
  induction pairs generalizing i with
  | zero =>
    have hlast : i = 2 * n := by omega
    rw [recursionCalls, List.range'_one, List.filterMap_cons, bucketCall, if_pos hlast]
    split <;> rfl
  | succ pairs ih =>
    have hstart : bucketStart bktsize i + bktsize i = bucketStart bktsize (i + 1) :=
      (bucketStart_succ bktsize i).symm
    have hrange : List.range' i (2 * (pairs + 1) + 1) =
        i :: (i + 1) :: List.range' (i + 2) (2 * pairs + 1) := by
      rw [show 2 * (pairs + 1) + 1 = 2 * pairs + 1 + 1 + 1 by ring, List.range'_succ,
        List.range'_succ]
    -- an even bucket and the equal bucket behind it
    have hless : bucketCall strings bktsize splitter_lcp depth n i = _ :=
      (if_neg (by omega)).trans (if_pos hi)
    have hequal : bucketCall strings bktsize splitter_lcp depth n (i + 1) = _ :=
      (if_neg (by omega)).trans (if_neg (by omega))
    rw [recursionCalls, hstart, ← bucketStart_succ, ih (by omega) (by omega), hrange,
      List.filterMap_cons, List.filterMap_cons, hless, hequal]
    by_cases h₁ : bktsize i > 1 <;> by_cases h₂ : bktsize (i + 1) > 1 <;>
      by_cases h₃ : splitter_lcp ((i + 1) / 2) &&& 0x80 = 0 <;>
      simp only [h₁, h₂, h₃, ne_eq, not_true_eq_false, not_false_eq_true, if_true, if_false,
        and_self, and_false, false_and, List.nil_append, List.cons_append]

end Calls

/-! ## What a call does with its range -/

section Distribution

variable {mem : ℕ → CharType}

/-- The classifier that a call builds. -/
def Call.splitterArrays (cl : ClassifierClass) (treebits : ℕ) (rng : ℕ → ℕ) (c : Call mem) :
    SplitterArrays :=
  (cl.instantiate treebits).build (sortedSample rng c (2 * numsplitters treebits))
    (2 * numsplitters treebits)

/-- The key of a string at the depth of a call. -/
def Call.key (c : Call mem) (s : CString mem) : KeyType := getChar mem s.ptr c.depth

/-- The range after its rearrangement: `bkt` is a right bucket for every string, `size` counts
the strings of a bucket, and each bucket holds its strings. -/
structure Distributed (ss : List KeyType) (c : Call mem) (bkt : CString mem → ℕ) (size : ℕ → ℕ)
    (strings : ℕ → CString mem) : Prop where
  isBucket : ∀ s, IsBucket ss (c.key s) (bkt s)
  size_eq : ∀ b, size b = ((contents c.strings c.n).map bkt).count b
  perm : (contents strings c.n).Perm (contents c.strings c.n)
  filled : ∀ b < 2 * ss.length + 1, FilledFrom size bkt strings b (bucketStart size b)
  total : bucketStart size (2 * ss.length + 1) = c.n

/-- A call for a large range rearranges it by buckets and makes the calls for them. -/
theorem sampleSortGeneric_spec {cl : ClassifierClass} {treebits : ℕ}
    (hcl : cl.Instantiable treebits) (ht : treebits ≤ 15) (hr : 1 ≤ cl.rollout) (rng : ℕ → ℕ)
    {c : Call mem} (hgeneric : c.smallSort = false) (hn : samplesortSmallsort ≤ c.n) :
    ∃ bkt size strings,
      (∀ s, (cl.instantiate treebits).findBkt (c.splitterArrays cl treebits rng) (c.key s) =
        some (bkt s)) ∧
      Distributed (cl.splitters treebits (c.splitterArrays cl treebits rng)) c bkt size strings ∧
      sampleSortGeneric cl treebits rng c =
        some ((List.range' 0 (2 * numsplitters treebits + 1)).filterMap
          (bucketCall strings size (c.splitterArrays cl treebits rng).lcp c.depth
            (numsplitters treebits))) := by
  have hpos := numsplitters_pos (instantiable_le hcl).1
  have hsorted := sortedSample_sorted rng c (2 * numsplitters treebits)
  obtain ⟨b, hb, hclassify⟩ := classify_spec hcl ht hr (by omega) hsorted
    ((contents c.strings c.n).map c.key)
  change ∀ key, (cl.instantiate treebits).findBkt (c.splitterArrays cl treebits rng) key =
    some (b key) ∧ IsBucket (cl.splitters treebits (c.splitterArrays cl treebits rng)) key
      (b key) at hb
  change (cl.instantiate treebits).classify (c.splitterArrays cl treebits rng) _ = _ at hclassify
  rw [List.map_map] at hclassify
  have hlen := length_splitters cl treebits (c.splitterArrays cl treebits rng)
  have hbound : ∀ p < c.n, (b ∘ c.key) (c.strings p) < 2 * numsplitters treebits + 1 :=
    fun p _ => hlen ▸ (hb (c.key (c.strings p))).2.lt
  have htallies := tallies_count (b ∘ c.key) c.strings hbound
  have hcache : ∀ p < c.n, ((contents c.strings c.n).map (b ∘ c.key)).getD p 0 =
      (b ∘ c.key) (c.strings p) := fun p hp => by simp [contents, hp]
  obtain ⟨strings, hpermute, hperm, hfilled⟩ :=
    permuteInPlace_spec (Nat.succ_pos _) hcache htallies
  refine ⟨b ∘ c.key, _, strings, fun s => (hb _).1,
    ⟨fun s => (hb _).2, fun _ => rfl, hperm, by rwa [hlen], by rw [hlen]; exact htallies.total⟩,
    ?_⟩
  rw [sampleSortGeneric, hgeneric, if_neg (by simp), if_neg (by omega)]
  change ((cl.instantiate treebits).classify (c.splitterArrays cl treebits rng)
    ((contents c.strings c.n).map c.key)).bind _ = _
  rw [hclassify, Option.bind_some]
  simp only [hpermute, Option.map_some, Option.some_inj]
  exact recursionCalls_eq strings _ _ c.depth rfl (Nat.zero_add _)

end Distribution

/-! ## Safety of the calls -/

section Safety

variable {mem : ℕ → CharType} {ss : List KeyType} {c : Call mem} {bkt : CString mem → ℕ}
  {size : ℕ → ℕ} {strings : ℕ → CString mem}

/-- The strings of a bucket come from the range. -/
theorem Distributed.mem_bucket (h : Distributed ss c bkt size strings) {b k : ℕ}
    (hb : b < 2 * ss.length + 1) (hk : k < size b) :
    bkt (strings (bucketStart size b + k)) = b ∧
      ∃ q < c.n, c.strings q = strings (bucketStart size b + k) := by
  have hend := bucketEnd_le size hb
  rw [h.total] at hend
  refine ⟨h.filled b hb _ (Nat.le_add_right ..) (by omega), mem_contents.mp ?_⟩
  exact h.perm.mem_iff.mp (mem_contents.mpr ⟨_, by omega, rfl⟩)

/-- The key of a string of a safe call is that of the characters from the depth on. -/
theorem Call.Safe.keyOf (hsafe : c.Safe) {q : ℕ} (hq : q < c.n) :
    KeyOf (c.key (c.strings q)) (((UCharStringSet mem).chars (c.strings q)).drop c.depth) :=
  keyOf_getChar (c.strings q) (hsafe q hq)

theorem length_drop_chars (s : CString mem) (depth : ℕ) :
    (((UCharStringSet mem).chars s).drop depth).length = s.len - depth := by
  rw [List.length_drop, StringSet.length_chars]
  rfl

/-- A string between two splitters has their common characters. -/
theorem less_bucket_depth (hsafe : c.Safe) (hs : ss.Pairwise (· ≤ ·))
    (hkeys : ∀ k ∈ ss, ∃ q < c.n, k = c.key (c.strings q)) {q i : ℕ} (hq : q < c.n)
    (hbkt : IsBucket ss (c.key (c.strings q)) (2 * i)) (hi : 0 < i) {k : KeyType}
    (hk : ss[i]? = some k) :
    c.depth + lcpKeyType (ss.getD (i - 1) 0) k ≤ (c.strings q).len := by
  obtain ⟨hnot, hrank⟩ : c.key (c.strings q) ∉ ss ∧ i = rank ss (c.key (c.strings q)) := by
    rcases hbkt with ⟨j, hj, -⟩ | ⟨hnot, hrank⟩
    · omega
    · exact ⟨hnot, by omega⟩
  have hlen := (List.getElem?_eq_some_iff.mp hk).1
  have hprev : ss[i - 1]? = some (ss.getD (i - 1) 0) := by
    rw [List.getD_eq_getElem?_getD, List.getElem?_eq_getElem (by omega)]
    rfl
  have hlow : ss.getD (i - 1) 0 < c.key (c.strings q) := (lt_rank_iff hs hprev).mp (by omega)
  have hhigh : c.key (c.strings q) < k := by
    refine lt_of_le_of_ne (not_lt.mp fun hlt => ?_) ?_
    · have := (lt_rank_iff hs hk).mpr hlt
      omega
    · rintro rfl
      exact hnot (List.mem_of_getElem? hk)
  obtain ⟨t, ht, hkt⟩ := hkeys _ (List.mem_of_getElem? hprev)
  obtain ⟨w, hw⟩ := exists_isKey k
  rw [hkt] at hlow ⊢
  have hle := KeyOf.le_length_of_between (hsafe.keyOf ht) (hsafe.keyOf hq) hw hlow hhigh
  rw [length_drop_chars] at hle
  have := hsafe q hq
  omega

/-- A string in an equal bucket has eight more characters unless its key contains the
terminator. -/
theorem equal_bucket_depth (hsafe : c.Safe) {q : ℕ} (hq : q < c.n) :
    c.depth + 8 ≤ (c.strings q).len ↔ lowByte (c.key (c.strings q)) ≠ 0 := by
  rw [(hsafe.keyOf hq).lowByte_ne_zero_iff, length_drop_chars]
  have := hsafe q hq
  omega

/-- The calls of a safe call are safe when no equal bucket of several strings is sorted further
behind a terminator. -/
theorem bucketCalls_safe_iff (hsafe : c.Safe) (hs : ss.Pairwise (· ≤ ·))
    (hkeys : ∀ k ∈ ss, ∃ q < c.n, k = c.key (c.strings q))
    (h : Distributed ss c bkt size strings) {lcp : ℕ → BitVec 8}
    (hdepth : ∀ i k, ss[i]? = some k → (lcp i &&& 0x7F).toNat =
      if i = 0 then 0 else lcpKeyType (ss.getD (i - 1) 0) k) :
    (∀ c' ∈ (List.range' 0 (2 * ss.length + 1)).filterMap
        (bucketCall strings size lcp c.depth ss.length), c'.Safe) ↔
      ∀ i k, ss[i]? = some k → lowByte k = 0 → lcp i &&& 0x80 = 0 → size (2 * i + 1) ≤ 1 := by
  constructor
  · intro hall i k hk hlow hmark
    by_contra hgt
    have hi := (List.getElem?_eq_some_iff.mp hk).1
    have hcall : bucketCall strings size lcp c.depth ss.length (2 * i + 1) = some
        ⟨false, fun k => strings (bucketStart size (2 * i + 1) + k), size (2 * i + 1),
          c.depth + 8⟩ := by
      rw [bucketCall, if_neg (by omega), if_neg (by omega),
        show (2 * i + 1) / 2 = i by omega, if_pos ⟨by omega, hmark⟩]
    have hsafe' := hall _ (List.mem_filterMap.mpr ⟨2 * i + 1, by simp; omega, hcall⟩)
    obtain ⟨hbkt, q, hq, heq⟩ := h.mem_bucket (by omega) (by omega : 0 < size (2 * i + 1))
    have hlen := hsafe' 0 (by simp only; omega)
    simp only [← heq] at hlen hbkt
    refine (equal_bucket_depth hsafe hq).mp hlen ?_
    -- the key of the bucket's first string is the splitter
    rcases h.isBucket (c.strings q) with ⟨j, hj, hkey⟩ | ⟨-, hj⟩
    · rw [show j = i by omega, hk, Option.some_inj] at hkey
      rwa [← hkey]
    · omega
  · intro hcond c' hc'
    obtain ⟨b, hb, hcall⟩ := List.mem_filterMap.mp hc'
    have hb' : b < 2 * ss.length + 1 := by simpa using hb
    rw [bucketCall] at hcall
    split at hcall
    · -- the last bucket is sorted from the same depth
      split at hcall
      · rw [Option.some_inj] at hcall
        subst hcall
        intro k hk
        obtain ⟨-, q, hq, heq⟩ := h.mem_bucket hb' hk
        simp only [← heq]
        exact hsafe q hq
      · exact absurd hcall (by simp)
    · next hlast =>
      have hget := List.getElem?_eq_getElem (show b / 2 < ss.length by omega)
      split at hcall
      · next heven =>
        split at hcall
        · rw [Option.some_inj] at hcall
          subst hcall
          intro k hk
          obtain ⟨hbkt, q, hq, heq⟩ := h.mem_bucket hb' hk
          simp only [← heq] at hbkt ⊢
          rw [hdepth _ _ hget]
          split
          · exact hsafe q hq
          · next hi =>
            have hbucket := h.isBucket (c.strings q)
            rw [hbkt, show b = 2 * (b / 2) by omega] at hbucket
            exact less_bucket_depth hsafe hs hkeys hq hbucket (by omega) hget
        · exact absurd hcall (by simp)
      · next hodd =>
        split at hcall
        · next hcalled =>
          rw [Option.some_inj] at hcall
          subst hcall
          intro k hk
          obtain ⟨hbkt, q, hq, heq⟩ := h.mem_bucket hb' hk
          simp only [← heq] at hbkt ⊢
          rw [equal_bucket_depth hsafe hq]
          intro hlow
          rcases h.isBucket (c.strings q) with ⟨j, hj, hkey⟩ | ⟨-, hj⟩
          · have hjb : j = b / 2 := by omega
            have hsize := hcond j _ hkey hlow (by rw [hjb]; exact hcalled.2)
            rw [← hj, hbkt] at hsize
            omega
          · omega
        · exact absurd hcall (by simp)

end Safety

/-! ## Runs -/

section Runs

variable {mem : ℕ → CharType} {cl : ClassifierClass} {treebits : ℕ}

/-- The class marks done splitters, the range is small, or no key of two or more strings that
contains the terminator is a splitter: one of the samples at odd places. -/
def Call.Admissible (cl : ClassifierClass) (treebits : ℕ) (rng : ℕ → ℕ) (c : Call mem) : Prop :=
  cl = .binarySearch → c.smallSort = false → samplesortSmallsort ≤ c.n →
    ∀ i < numsplitters treebits,
      lowByte (sortedSample rng c (2 * numsplitters treebits) (2 * i + 1)) = 0 →
      (contents c.strings c.n).countP (fun s => decide (c.key s =
        sortedSample rng c (2 * numsplitters treebits) (2 * i + 1))) ≤ 1

theorem Call.getElem?_splitters (ht : 1 ≤ treebits) (rng : ℕ → ℕ) (c : Call mem) {i : ℕ}
    (hi : i < numsplitters treebits) :
    (ClassifierClass.binarySearch.splitters treebits
      (c.splitterArrays .binarySearch treebits rng))[i]? =
      some (sortedSample rng c (2 * numsplitters treebits) (2 * i + 1)) := by
  rw [Call.splitterArrays]
  exact getElem?_splitters_binarySearch ht _ hi

/-- When every string goes to the bucket of the first splitter that is its key, the equal
buckets of a splitter's key hold all strings with the key. -/
theorem Distributed.equal_buckets_iff {ss : List KeyType} {c : Call mem}
    {bkt : CString mem → ℕ} {size : ℕ → ℕ} {strings : ℕ → CString mem}
    (hdist : Distributed ss c bkt size strings) (hs : ss.Pairwise (· ≤ ·))
    (hfirst : ∀ s, bkt s = firstBucket ss (c.key s)) :
    (∀ (i : ℕ) k, ss[i]? = some k → lowByte k = 0 → size (2 * i + 1) ≤ 1) ↔
      ∀ (i : ℕ) k, ss[i]? = some k → lowByte k = 0 →
        (contents c.strings c.n).countP (fun s => decide (c.key s = k)) ≤ 1 := by
  constructor
  · intro h i k hk hlow
    have hmem : k ∈ ss := List.mem_of_getElem? hk
    refine le_trans ?_ (h (rank ss k) k (getElem?_rank_of_mem hs hmem) hlow)
    rw [hdist.size_eq, List.count_eq_countP, List.countP_map]
    refine List.countP_mono_left fun s _ hkey => ?_
    rw [Function.comp_apply, beq_iff_eq, hfirst s, of_decide_eq_true hkey, firstBucket,
      if_pos hmem, mul_comm]
  · intro h i k hk hlow
    refine le_trans ?_ (h i k hk hlow)
    rw [hdist.size_eq, List.count_eq_countP, List.countP_map]
    refine List.countP_mono_left fun s _ hbkt => ?_
    rw [Function.comp_apply, beq_iff_eq] at hbkt
    rw [decide_eq_true_iff]
    rcases hdist.isBucket s with ⟨j, hj, hget⟩ | ⟨-, hj⟩
    · rw [show j = i by omega, hk, Option.some_inj] at hget
      exact hget.symm
    · omega

/-- All calls that a safe call makes are safe exactly when the call is admissible. -/
theorem calls_safe_iff (hcl : cl.Instantiable treebits) (ht : treebits ≤ 15)
    (hr : 1 ≤ cl.rollout) (rng : ℕ → ℕ) {c : Call mem} (hsafe : c.Safe) :
    ∃ calls, sampleSortGeneric cl treebits rng c = some calls ∧
      ((∀ c' ∈ calls, c'.Safe) ↔ c.Admissible cl treebits rng) := by
  cases hsmall : c.smallSort with
  | true =>
    refine ⟨[], by rw [sampleSortGeneric, hsmall, if_pos rfl], ?_⟩
    exact iff_of_true (by simp) fun _ h => absurd h (by simp [hsmall])
  | false =>
    rcases Nat.lt_or_ge c.n samplesortSmallsort with hn | hn
    · refine ⟨[{ c with smallSort := true }], ?_, ?_⟩
      · rw [sampleSortGeneric, hsmall, if_neg (by simp), if_pos hn]
      · exact iff_of_true (by simpa [Call.Safe] using hsafe) fun _ _ h => absurd h (by omega)
    · obtain ⟨bkt, size, strings, hfind, hdist, hcalls⟩ :=
        sampleSortGeneric_spec hcl ht hr rng hsmall hn
      have ht1 := (instantiable_le hcl).1
      have hpos := numsplitters_pos ht1
      have hsorted : (cl.splitters treebits (c.splitterArrays cl treebits rng)).Pairwise
          (· ≤ ·) := splitters_pairwise hcl (by omega)
        (sortedSample_sorted rng c (2 * numsplitters treebits))
      have hkeys : ∀ k ∈ cl.splitters treebits (c.splitterArrays cl treebits rng),
          ∃ q < c.n, k = c.key (c.strings q) := by
        intro k hk
        obtain ⟨i, hi, rfl⟩ := splitters_mem_samples hcl (by omega) hk
        have hn0 : 0 < c.n := lt_of_lt_of_le (by decide) hn
        exact sortedSample_mem rng c hn0 hi
      have hlen := length_splitters cl treebits (c.splitterArrays cl treebits rng)
      have hiff := bucketCalls_safe_iff hsafe hsorted hkeys hdist fun i k hk =>
        (splitterLcp_spec hcl _ _ hk).1
      rw [hlen] at hiff
      refine ⟨_, hcalls, hiff.trans ?_⟩
      have hmark : ∀ i k, (cl.splitters treebits
          (c.splitterArrays cl treebits rng))[i]? = some k → lowByte k = 0 →
          ((c.splitterArrays cl treebits rng).lcp i &&& 0x80 = 0 ↔ cl = .binarySearch) := by
        intro i k hk hlow
        have hdone := (splitterLcp_spec hcl _ _ hk).2.not
        rw [not_not] at hdone
        exact hdone.trans ⟨fun h => by_contra fun hne => h ⟨hne, hlow⟩, fun h hne => hne.1 h⟩
      by_cases hbs : cl = .binarySearch
      · subst hbs
        have hfirst : ∀ s, bkt s = firstBucket _ (c.key s) := fun s =>
          Option.some_inj.mp ((hfind s).symm.trans (findBkt_binarySearch hsorted _))
        have hequal := hdist.equal_buckets_iff hsorted hfirst
        have hget := fun i (hi : i < numsplitters treebits) => c.getElem?_splitters ht1 rng hi
        constructor
        · intro h _ _ _ i hi hlow
          exact hequal.mp (fun i k hk hlow => h i k hk hlow ((hmark i k hk hlow).mpr rfl))
            i _ (hget i hi) hlow
        · intro h i k hk hlow _
          refine hequal.mpr (fun i k hk hlow => ?_) i k hk hlow
          have hi : i < numsplitters treebits := hlen ▸ (List.getElem?_eq_some_iff.mp hk).1
          rw [hget i hi, Option.some_inj] at hk
          subst hk
          exact h rfl hsmall hn i hi hlow
      · exact iff_of_true (fun i k hk hlow h => absurd ((hmark i k hk hlow).mp h) hbs)
          fun h => absurd h hbs

/-- The first call is safe: no string ends before depth zero. -/
theorem safe_of_depth_zero (c : Call mem) (h : c.depth = 0) : c.Safe := fun k _ => by
  rw [h]
  exact Nat.zero_le _

/-- In every run, all calls are for strings that reach their depth exactly when all of them are
admissible. -/
theorem allCallsSafe_iff (hcl : cl.Instantiable treebits) (ht : treebits ≤ 15)
    (hr : 1 ≤ cl.rollout) (rng : List ℕ → ℕ → ℕ) (strings : ℕ → CString mem) (n : ℕ) :
    (∀ s, (sampleSortRun cl treebits rng strings n).Reachable s → s.2.Safe) ↔
      ∀ s, (sampleSortRun cl treebits rng strings n).Reachable s →
        s.2.Admissible cl treebits (rng s.1) := by
  constructor
  · intro hall s hs
    obtain ⟨calls, heq, hiff⟩ := calls_safe_iff hcl ht hr (rng s.1) (hall s hs)
    refine hiff.mp fun c' hc' => ?_
    obtain ⟨i, hi⟩ := List.mem_iff_getElem?.mp hc'
    exact hall _ (hs.step ⟨calls, c', heq, hi, rfl⟩)
  · intro hall s hs
    refine Transition.Reachable.invariant (P := fun s => s.2.Safe) ?_ ?_ hs
    · rintro s rfl
      exact safe_of_depth_zero _ rfl
    · rintro s i s' hs hsafe ⟨calls, c', heq, hi, rfl⟩
      obtain ⟨calls', heq', hiff⟩ := calls_safe_iff hcl ht hr (rng s.1) hsafe
      rw [heq, Option.some_inj] at heq'
      subst heq'
      exact hiff.mpr (hall s hs) c' (List.mem_of_getElem? hi)

end Runs

/-! ## Words -/

/-- Memory with a string of twelve characters at every multiple of 16. -/
def wordMem : ℕ → CharType := fun a =>
  if a % 16 < 8 then BitVec.ofNat 8 (97 + a / 16 % 5)
  else if a % 16 < 12 then BitVec.ofNat 8 (33 + a / 16 / 90 ^ (a % 16 - 8) % 90)
  else 0

/-- The strings of that memory are different.  Each has one of five keys at depth zero. -/
def word (i : ℕ) : CString wordMem where
  ptr := 16 * i
  len := 12
  notNul k hk := by
    have hdiv : (16 * i + k) / 16 = i := by omega
    have hmod : (16 * i + k) % 16 = k := by omega
    intro h0
    have hval := congrArg BitVec.toNat h0
    simp only [wordMem, hdiv, hmod, if_pos hk] at hval
    split at hval
    · change (97 + i % 5) % 256 = 0 at hval
      omega
    · change (33 + i / 90 ^ (k - 8) % 90) % 256 = 0 at hval
      omega
  nul := by
    have hmod : (16 * i + 12) % 16 = 12 := by omega
    simp [wordMem, hmod]

/-! ## Empty strings -/

/-- The empty string in a memory of zeros. -/
def emptyString : CString fun _ => 0 where
  ptr := 0
  len := 0
  notNul := by simp
  nul := rfl

theorem getChar_zeros : getChar (fun _ => 0) 0 0 = 0 := by decide

theorem allCallsSafe_iff_emptyStrings :
    (∀ s, (sampleSortRun .treeSimple 10 (fun _ i => i) (fun _ => emptyString) 40000).Reachable s →
        s.2.Safe) ↔
      ∀ s, (sampleSortRun .treeSimple 10 (fun _ i => i) (fun _ => emptyString) 40000).Reachable
        s → s.2.Admissible .treeSimple 10 (fun i => i) :=
  @allCallsSafe_iff _ .treeSimple 10 ⟨by decide, by decide⟩ (by decide) (by decide) _ _ _

/-- With `ClassifyBinarySearch`, a large range of empty strings is sorted from depth eight. -/
theorem emptyStrings_not_safe :
    ∃ s, (sampleSortRun .binarySearch 10 (fun _ i => i) (fun _ => emptyString) 32768).Reachable
      s ∧ ¬ s.2.Safe := by
  by_contra hall
  have hsafe : ∀ s, (sampleSortRun .binarySearch 10 (fun _ i => i) (fun _ => emptyString)
      32768).Reachable s → s.2.Safe := fun s hs => by_contra fun h => hall ⟨s, hs, h⟩
  have hroot := Transition.Reachable.start (T := sampleSortRun .binarySearch 10 (fun _ i => i)
    (fun _ => emptyString) 32768) rfl
  obtain ⟨calls, heq, hiff⟩ := @calls_safe_iff _ .binarySearch 10
    ⟨by decide, by decide⟩ (by decide) (by decide) (fun i => i) _ (hsafe _ hroot)
  have hadm := hiff.mp fun c' hc' => by
    obtain ⟨i, hi⟩ := List.mem_iff_getElem?.mp hc'
    exact hsafe _ (hroot.step ⟨calls, c', heq, hi, rfl⟩)
  -- every sample is the key of the empty string
  obtain ⟨k, -, hsample⟩ := sortedSample_mem (fun i => i)
    (⟨false, fun _ => emptyString, 32768, 0⟩ : Call fun _ => 0) (by norm_num)
    (show 2 * 0 + 1 < 2 * numsplitters 10 by decide)
  have hzero := hsample.trans getChar_zeros
  have hcount := hadm rfl rfl (le_refl _) 0 (by decide) (by rw [hzero]; decide)
  rw [hzero, List.countP_eq_length.mpr fun s hs => ?_, length_contents] at hcount
  · exact absurd hcount (by norm_num)
  · obtain ⟨p, -, rfl⟩ := mem_contents.mp hs
    exact decide_eq_true getChar_zeros

end StringSampleSort
