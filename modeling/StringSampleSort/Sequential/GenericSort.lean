import StringSampleSort.Sequential.BucketRecursion

/-!
# Sorting with `sample_sort_generic`

What the calls of `sample_sort_generic` of `src/sequential/bingmann-sample_sort.cpp` do to the
strings, for the classes that mark done splitters.  Classes of one family number the buckets of
duplicate splitters differently; all that counts is that each key is put into a right bucket.

## Main results

- `rightLevels_generic`: steps 1 to 4 rearrange the range by the buckets of splitters
- `sampleSortGeneric_sorts`: the strings are sorted, and the final assertion holds in all calls
-/

namespace StringSampleSort

open Library Slice

/-! ## Model -/

section Model

variable {mem : ℕ → CharType}

/-- Steps 1 to 4 of `sample_sort_generic<Classify>(strings, n, depth)`. -/
def genericLevel (cl : ClassifierClass) (treebits : ℕ) (rng : ℕ → ℕ) (strings : ℕ → CString mem)
    (n depth : ℕ) : Option (Level mem) :=
  let samplesize := 2 * numsplitters treebits
  let bktnum := 2 * numsplitters treebits + 1
  let a := (cl.instantiate treebits).build
    (sortedSample rng ⟨false, strings, n, depth⟩ samplesize) samplesize
  let keys := (contents strings n).map fun s => getUint64 (UCharStringSet mem) s depth
  ((cl.instantiate treebits).classify a keys).bind fun bktcache =>
    let bktsize := fun b => bktcache.count b
    -- assert(bktindex[bktnum - 1] == n);
    if prefixSum bktsize (bktnum - 1) = n then
      (permuteInPlace bktnum n bktsize strings fun i => bktcache.getD i 0).map fun strings =>
        { bktsize := bktsize
          strings := strings
          less := fun i => (a.lcp i &&& 0x7F).toNat
          done := fun i => decide (a.lcp i &&& 0x80 ≠ 0) }
    else none

/-- `sample_sort_generic<Classify>(strings, n, depth)`, for at most `fuel` levels of recursion. -/
def sortGeneric (cl : ClassifierClass) (treebits : ℕ) (rng : List ℕ → ℕ → ℕ) (fuel : ℕ)
    (strings : ℕ → CString mem) (n depth : ℕ) : Option (SortResult mem) :=
  sampleSort (numsplitters treebits) (genericLevel cl treebits) rng fuel [] strings n depth

end Model

/-! ## Correctness -/

section Correctness

variable {mem : ℕ → CharType} {cl : ClassifierClass} {treebits : ℕ}

/-- What a class that marks done splitters leaves for classifying and for the recursive calls. -/
theorem classifier_spec (hbs : cl ≠ .binarySearch) (hcl : cl.Instantiable treebits)
    (ht : treebits ≤ 15) (hr : 1 ≤ cl.rollout) {samples : ℕ → KeyType} {samplesize : ℕ}
    (hsize : 0 < samplesize) (hs : SortedSamples samples samplesize) :
    let a := (cl.instantiate treebits).build samples samplesize
    let ss := cl.splitters treebits a
    ∃ bkt, (∀ keys, (cl.instantiate treebits).classify a keys = some (keys.map bkt)) ∧
      (∀ key, IsBucket ss key (bkt key)) ∧
      (∀ i ≤ ss.length, (a.lcp i &&& 0x7F).toNat = lessLcp ss i) ∧
      ∀ i < ss.length, a.lcp i &&& 0x80 ≠ 0 ↔ lowByte (ss.getD i 0) = 0 := by
  intro a ss
  obtain ⟨bkt, hbkt, -⟩ := classify_spec hcl ht hr hsize hs []
  have hget : ∀ i < ss.length, ss[i]? = some (ss.getD i 0) := fun i hi => by
    rw [List.getD_eq_getElem?_getD, List.getElem?_eq_getElem hi]
    rfl
  refine ⟨bkt, fun keys => ?_, fun key => (hbkt key).2, fun i hi => ?_, fun i hi => ?_⟩
  · -- the buckets of several keys are those of each key
    obtain ⟨bkt', hbkt', hclassify⟩ := classify_spec hcl ht hr hsize hs keys
    have heq : bkt' = bkt := funext fun key =>
      Option.some_inj.mp ((hbkt' key).1.symm.trans (hbkt key).1)
    rwa [heq] at hclassify
  · exact splitterLcp_eq_lessLcp hcl samples samplesize (length_splitters .. ▸ hi)
  · exact (splitterLcp_spec hcl samples samplesize (hget i hi)).2.trans (and_iff_right hbs)

/-- Steps 1 to 4 of a class that marks done splitters rearrange the range by buckets. -/
theorem rightLevels_generic (hbs : cl ≠ .binarySearch) (hcl : cl.Instantiable treebits)
    (ht : treebits ≤ 15) (hr : 1 ≤ cl.rollout) :
    RightLevels (numsplitters treebits) (@genericLevel mem cl treebits) := by
  intro rng strings n depth hn hshare
  have hpos := numsplitters_pos (instantiable_le hcl).1
  let c : Call mem := ⟨false, strings, n, depth⟩
  have hsorted := sortedSample_sorted rng c (2 * numsplitters treebits)
  let a := (cl.instantiate treebits).build (sortedSample rng c (2 * numsplitters treebits))
    (2 * numsplitters treebits)
  obtain ⟨bkt, hclassify, hbkt, hless, hdone⟩ :=
    classifier_spec hbs hcl ht hr (by omega) hsorted
  change ∀ keys, (cl.instantiate treebits).classify a keys = some (keys.map bkt) at hclassify
  have hlen : (cl.splitters treebits a).length = numsplitters treebits :=
    length_splitters cl treebits a
  -- `get_uint64` and `get_char` read the same keys
  have hkeys : ((contents strings n).map fun s => getUint64 (UCharStringSet mem) s depth).map bkt =
      (contents strings n).map fun s => bkt (getChar mem s.ptr depth) := by
    rw [List.map_map]
    refine List.map_congr_left fun s hs => congrArg bkt ?_
    obtain ⟨p, hp, rfl⟩ := mem_contents.mp hs
    have hle := hshare.reaches hp
    exact ((UCharStringSet.sortable mem).key_eq _ _ hle).trans (getChar_eq_keyAt _ hle).symm
  have hbucketed : Bucketed (InRange (UCharStringSet mem).chars strings n) depth
      (cl.splitters treebits a) bkt := by
    refine bucketed_of_keys hshare (splitters_pairwise hcl (by omega) hsorted)
      (fun k hk => ?_) hbkt
    obtain ⟨i, hi, rfl⟩ := splitters_mem_samples hcl (by omega) hk
    exact sortedSample_mem rng c (lt_of_lt_of_le (by decide) hn) hi
  obtain ⟨sorted, hpermute, harranged⟩ := permuteInPlace_arranged hshare hbucketed
  have hassert := harranged.prefixSum_eq
  rw [hlen] at hpermute hassert
  refine ⟨⟨_, sorted, fun i => (a.lcp i &&& 0x7F).toNat, fun i => decide (a.lcp i &&& 0x80 ≠ 0)⟩,
    cl.splitters treebits a, bkt, ?_, ⟨harranged, hlen, fun i hi => ?_, fun i hi => ?_⟩⟩
  · rw [genericLevel]
    change ((cl.instantiate treebits).classify a
      ((contents strings n).map fun s => getUint64 (UCharStringSet mem) s depth)).bind _ = _
    rw [hclassify, hkeys, Option.bind_some]
    simp only [Nat.add_sub_cancel, hassert, if_true, hpermute, Option.map_some]
    rfl
  · exact hless i (hi.le.trans_eq hlen.symm)
  · exact decide_eq_true_iff.trans (hdone i (hi.trans_eq hlen.symm))

/-- Whatever numbers are drawn, the strings are sorted, and the final assertion holds in all
calls. -/
theorem sampleSortGeneric_sorts (hbs : cl ≠ .binarySearch) (hcl : cl.Instantiable treebits)
    (ht : treebits ≤ 15) (hr : 1 ≤ cl.rollout) (rng : List ℕ → ℕ → ℕ) {strings : ℕ → CString mem}
    {n : ℕ} (hlen : ∀ p < n, (strings p).len < 2 ^ 31) :
    ∃ levels, ∀ fuel ≥ levels, ∃ r, sortGeneric cl treebits rng fuel strings n 0 = some r ∧
      (contents r.1 n).Perm (contents strings n) ∧
      MonotoneIn ((UCharStringSet mem).chars ∘ r.1) 0 n := by
  have hpos := numsplitters_pos (instantiable_le hcl).1
  obtain ⟨levels, h⟩ := sampleSort_sorts hpos (rightLevels_generic hbs hcl ht hr) rng [] hlen
    (sharesDepth_zero strings n)
  refine ⟨levels, fun fuel hfuel => ?_⟩
  obtain ⟨r, hr, hsorted⟩ := h fuel hfuel
  exact ⟨r, hr, hsorted.perm, hsorted.sorted⟩

theorem sampleSortGeneric_sorts_words :
    ∃ levels, ∀ fuel ≥ levels, ∃ r,
      sortGeneric .equal 10 (fun _ i => i) fuel word 40000 0 = some r ∧
      (contents r.1 40000).Perm (contents word 40000) ∧
      MonotoneIn ((UCharStringSet wordMem).chars ∘ r.1) 0 40000 :=
  @sampleSortGeneric_sorts _ .equal 10 (by decide) ⟨by decide, by decide⟩ (by decide) (by decide)
    _ _ _ fun _ _ => (by norm_num : 12 < 2 ^ 31)

end Correctness

end StringSampleSort
