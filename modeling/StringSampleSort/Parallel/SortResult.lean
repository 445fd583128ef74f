import StringSampleSort.Parallel.SortMethods
import StringSampleSort.Sequential.StandAlone
import StringSampleSort.Sequential.GenericSort
import StringSampleSort.Sequential.InssortBounds
import StringSampleSort.Sequential.SubtreeSort

/-!
# What all sorts compute

The result of a sort is a function of the strings that it is given, whatever the classifier, the
numbers drawn for the samples, the number of threads and the order of the jobs are: at each place
stand the characters that the sorted list has there.  All sorts of the repository have therefore the
same result, the parallel ones and the sequential ones.  Only strings with the same characters can
change places; suffixes of a text cannot.

## Main results

- `SortsWindow.denotes`: a sorted window holds what the sorted list says
- `parallelSampleSort_unique`: two parallel sorts of the same strings have the same result
- `sequentialSort_agrees`: so have the sequential sorts and the parallel one
-/

namespace StringSampleSort

open Library Slice

/-! ## The sorted list -/

section Denotation

variable {S : Type} (ss : StringSet S)

/-- The characters that belong at place `p` when the `n` strings from `lo` on are in order. -/
def sortedChars (A : ℕ → S) (lo n p : ℕ) : List CharType := sortedFrom (ss.chars ∘ A) lo n [] p

/-- The LCP that belongs at place `p`. -/
def sortedLcp (A : ℕ → S) (lo n p : ℕ) : ℕ :=
  lcpLen (sortedChars ss A lo n (p - 1)) (sortedChars ss A lo n p)

variable {ss}

/-- The order in which the strings are given does not matter. -/
theorem sortedChars_congr {A B : ℕ → S} {lo n : ℕ} (h : (slice A lo n).Perm (slice B lo n)) :
    sortedChars ss A lo n = sortedChars ss B lo n := by
  have hperm : (slice (ss.chars ∘ A) lo n).Perm (slice (ss.chars ∘ B) lo n) := by
    rw [← map_slice, ← map_slice]
    exact h.map ss.chars
  have hsort : (slice (ss.chars ∘ A) lo n).insertionSort (· ≤ ·) =
      (slice (ss.chars ∘ B) lo n).insertionSort (· ≤ ·) := by
    have hsame := ((List.perm_insertionSort (· ≤ ·) _).trans hperm).trans
      (List.perm_insertionSort (· ≤ ·) _).symm
    exact hsame.eq_of_pairwise' (List.pairwise_insertionSort (· ≤ ·) _)
      (List.pairwise_insertionSort (· ≤ ·) _)
  unfold sortedChars sortedFrom
  rw [hsort]

/-- Strings in order are those of the sorted list. -/
theorem chars_eq_sortedChars {A B : ℕ → S} {lo n : ℕ} (h : (slice B lo n).Perm (slice A lo n))
    (hsorted : ∀ p q, lo ≤ p → p ≤ q → q < lo + n → ss.chars (B p) ≤ ss.chars (B q)) {p : ℕ}
    (hp : InWindow lo n p) : ss.chars (B p) = sortedChars ss A lo n p := by
  have hperm : (slice (ss.chars ∘ B) lo n).Perm (slice (sortedChars ss A lo n) lo n) := by
    rw [← map_slice]
    refine (h.map ss.chars).trans ?_
    rw [map_slice]
    exact (slice_sortedFrom (ss.chars ∘ A) lo n []).symm
  have hB : MonotoneIn (ss.chars ∘ B) lo n := fun p q hp hq hpq => hsorted p q hp.1 hpq hq.2
  have hA : MonotoneIn (sortedChars ss A lo n) lo n :=
    (monotone_sortedFrom (ss.chars ∘ A) lo n fun x => not_lt.mp (List.not_lt_nil x)).sub
      (Nat.zero_le _) (Nat.zero_add _).ge
  exact eq_of_monotone hperm hB hA hp

end Denotation

/-- The arrays of a pointer class hold the sorted list of the strings of `A`, with its LCPs and the
characters behind them. -/
structure Denotes {S : Type} (ss : StringSet S) (cls : StringPtrClass) (A : ℕ → S) (lo n : ℕ)
    (m : Memory S) : Prop where
  chars : ∀ p, InWindow lo n p →
    ss.chars (m.strings cls.outputArray p) = sortedChars ss A lo n p
  lcps : cls.withLcp = true → ∀ p, lo < p → p < lo + n → m.lcps p = sortedLcp ss A lo n p
  cache : cls.hasCache = true → ∀ p, lo < p → p < lo + n →
    m.cache p = (sortedChars ss A lo n p).getD (sortedLcp ss A lo n p) 0

section Sorts

variable {S : Type} {ss : StringSet S} {cls : StringPtrClass} {lo n : ℕ} {m m' : Memory S}

/-- A sorted window holds what the sorted list says. -/
theorem SortsWindow.denotes {f : Bool} (h : SortsWindow cls ss f lo n m m') :
    Denotes ss cls (m.strings (cls.activeArray f)) lo n m' := by
  have hchars : ∀ p, InWindow lo n p → ss.chars (m'.strings cls.outputArray p) =
      sortedChars ss (m.strings (cls.activeArray f)) lo n p := fun p hp =>
    chars_eq_sortedChars h.perm h.sorted hp
  have hlcp : ∀ p, lo < p → p < lo + n →
      lcpOf ss (m'.strings cls.outputArray (p - 1)) (m'.strings cls.outputArray p) =
        sortedLcp ss (m.strings (cls.activeArray f)) lo n p := by
    intro p hlo hp
    unfold lcpOf sortedLcp
    rw [hchars (p - 1) ⟨by omega, by omega⟩, hchars p ⟨hlo.le, hp⟩]
  refine ⟨hchars, fun hl p hlo hp => (h.lcps hl p hlo hp).trans (hlcp p hlo hp),
    fun hc p hlo hp => ?_⟩
  have hl : cls.withLcp = true := by
    revert hc
    cases cls <;> decide
  rw [h.cache hc p hlo hp, h.lcps hl p hlo hp, hlcp p hlo hp]
  unfold charOf
  rw [hchars p ⟨hlo.le, hp⟩]

/-- Two memories hold the same result, as far as both pointer classes have it. -/
structure SameResult (ss : StringSet S) (cls cls' : StringPtrClass) (lo n : ℕ) (m m' : Memory S) :
    Prop where
  chars : ∀ p, InWindow lo n p →
    ss.chars (m.strings cls.outputArray p) = ss.chars (m'.strings cls'.outputArray p)
  strings : Function.Injective ss.chars → ∀ p, InWindow lo n p →
    m.strings cls.outputArray p = m'.strings cls'.outputArray p
  lcps : cls.withLcp = true → cls'.withLcp = true → ∀ p, lo < p → p < lo + n →
    m.lcps p = m'.lcps p
  cache : cls.hasCache = true → cls'.hasCache = true → ∀ p, lo < p → p < lo + n →
    m.cache p = m'.cache p

/-- The sorted list determines the result. -/
theorem Denotes.unique {cls' : StringPtrClass} {A B : ℕ → S} (h : Denotes ss cls A lo n m)
    (h' : Denotes ss cls' B lo n m') (hperm : (slice A lo n).Perm (slice B lo n)) :
    SameResult ss cls cls' lo n m m' := by
  have hlist : sortedChars ss A lo n = sortedChars ss B lo n := sortedChars_congr hperm
  have hlcp : sortedLcp ss A lo n = sortedLcp ss B lo n := by
    unfold sortedLcp
    rw [hlist]
  have hchars : ∀ p, InWindow lo n p →
      ss.chars (m.strings cls.outputArray p) = ss.chars (m'.strings cls'.outputArray p) := by
    intro p hp
    rw [h.chars p hp, h'.chars p hp, hlist]
  refine ⟨hchars, fun hinj p hp => hinj (hchars p hp), fun hl hl' p hlo hp => ?_,
    fun hc hc' p hlo hp => ?_⟩
  · rw [h.lcps hl p hlo hp, h'.lcps hl' p hlo hp, hlcp]
  · rw [h.cache hc p hlo hp, h'.cache hc' p hlo hp, hlist, hlcp]

/-- Strings of different lengths have different characters. -/
theorem StringSet.chars_injective (h : Function.Injective ss.length) :
    Function.Injective ss.chars := fun a b hab => h <| by
  simpa only [StringSet.length_chars] using congrArg List.length hab

/-- Different suffixes of a text have different characters. -/
theorem StringSuffixSet.chars_injective (mem : ℕ → CharType) (text : StdString) :
    Function.Injective (StringSuffixSet mem text).chars :=
  StringSet.chars_injective fun a b (hab : text.size - (a : ℕ) = text.size - b) =>
    Fin.ext (by omega)

end Sorts

/-! ## Two parallel sorts -/

/-- A parallel sort of some strings, with all that its run may depend on. -/
structure ParallelRun (S : Type) where
  cls : StringPtrClass
  cl : ClassifierClass
  threadnum : ℕ
  depth : ℕ
  before : Memory S
  after : Memory S

/-- The run sorts the `n` strings from `lo` on, which share its depth, and has returned. -/
structure ParallelRun.Returned {S : Type} (ss : StringSet S) (lo n : ℕ) (r : ParallelRun S) :
    Prop where
  classify : r.cl.IsInterleaveX
  readsEnd : r.cls.hasCache = true → ss.ReadsEnd
  depth : SharesDepth ss.chars (fun i => r.before.strings .original (lo + i)) n r.depth
  returns : ParallelSampleSortReturns r.cls ss r.cl r.threadnum (r.cls.pointer false lo n) r.depth
    r.before r.after

section Parallel

variable {S : Type} {ss : StringSet S} {lo n : ℕ}

theorem ParallelRun.Returned.sortsWindow {r : ParallelRun S} (h : r.Returned ss lo n)
    (hset : PointerOrIndexSet ss) (hn : 1 ≤ n) :
    SortsWindow r.cls ss false lo n r.before r.after := by
  obtain ⟨-, -, hsorts⟩ := returns_sortsWindow hset.sortable r.cls h.readsEnd h.classify.usable
    r.threadnum hn h.depth
  exact hsorts r.after h.returns

/-- Every parallel sort has a run that returns. -/
theorem ParallelRun.exists_returned {cl : ClassifierClass} {depth : ℕ} {m : Memory S}
    (hset : PointerOrIndexSet ss) (hn : 1 ≤ n) (cls : StringPtrClass)
    (hread : cls.hasCache = true → ss.ReadsEnd) (hcl : cl.IsInterleaveX) (threadnum : ℕ)
    (hdepth : SharesDepth ss.chars (fun i => m.strings .original (lo + i)) n depth) :
    ∃ m', ParallelRun.Returned ss lo n ⟨cls, cl, threadnum, depth, m, m'⟩ := by
  obtain ⟨-, ⟨m', hm'⟩, -⟩ :=
    returns_sortsWindow hset.sortable cls hread hcl.usable threadnum hn hdepth
  exact ⟨m', hcl, hread, hdepth, hm'⟩

/-- Two parallel sorts of the same strings, which may come in different orders, have the same
result.  The string pointer classes, the classifiers, the numbers of threads, the samples, the
order of all actions and the depths may be different. -/
theorem parallelSampleSort_unique (hset : PointerOrIndexSet ss) (hn : 1 ≤ n) {r r' : ParallelRun S}
    (h : r.Returned ss lo n) (h' : r'.Returned ss lo n)
    (hperm : (slice (r.before.strings .original) lo n).Perm
      (slice (r'.before.strings .original) lo n)) :
    SameResult ss r.cls r'.cls lo n r.after r'.after :=
  (h.sortsWindow hset hn).denotes.unique (h'.sortsWindow hset hn).denotes hperm

/-- The suffixes of a text of forty equal characters, sorted with one thread, and with sixteen
threads, LCPs and another classifier. -/
theorem parallelSampleSort_unique_suffixes :
    let ss := StringSuffixSet (fun _ => 97) ⟨5, 40⟩
    ∃ r r' : ParallelRun (SuffixIndex 40), r.Returned ss 0 40 ∧ r'.Returned ss 0 40 ∧
      SameResult ss .StringShadowPtr .StringShadowLcpOutPtr 0 40 r.after r'.after ∧
      ∀ p, InWindow 0 40 p → r.after.strings .original p = r'.after.strings .output p := by
  intro ss
  have hset : PointerOrIndexSet ss := .stringSuffixSet _ _ fun _ _ => ⟨by decide, by decide⟩
  let m : Memory (SuffixIndex 40) := ⟨fun _ i => Fin.ofNat 41 i, fun _ => 7, fun _ => 0⟩
  have hdepth : SharesDepth ss.chars (fun i => m.strings .original (0 + i)) 40 0 :=
    fun _ _ _ _ => SharePrefix.zero _ _
  have hread : false = true → ss.ReadsEnd := fun h => absurd h Bool.false_ne_true
  obtain ⟨m₁, h₁⟩ := ParallelRun.exists_returned hset (by norm_num) .StringShadowPtr hread
    (Or.inl rfl) 1 hdepth
  obtain ⟨m₂, h₂⟩ := ParallelRun.exists_returned hset (by norm_num) .StringShadowLcpOutPtr hread
    (Or.inr rfl) 16 hdepth
  have hsame := parallelSampleSort_unique hset (by norm_num) h₁ h₂ (List.Perm.refl _)
  exact ⟨_, _, h₁, h₂, hsame, hsame.strings (StringSuffixSet.chars_injective _ _)⟩

end Parallel

/-! ## The sequential sorts -/

/-- The sequential sorts of arrays of strings.  The array `lcp` and the array `cache` of
`lcp_insertion_sort` may contain anything. -/
inductive SequentialSort
  | sampleSortGeneric (cl : ClassifierClass) (treebits : ℕ)
  | sampleSortRBTCE
  | standAlone (v : StandAlone)
  | msdCI
  | insertionSort
  | insertionSortGeneric
  | lcpInsertionSort (saveCache : Bool) (lcp : ℕ → ℕ) (cache : ℕ → CharType)

namespace SequentialSort

variable {mem : ℕ → CharType}

/-- The function that a sequential sort calls, for at most `fuel` levels of recursion. -/
def sort (rng : List ℕ → ℕ → ℕ) (fuel : ℕ) (strings : ℕ → CString mem) (n : ℕ) :
    SequentialSort → Option (ℕ → CString mem)
  | sampleSortGeneric cl treebits =>
    (sortGeneric cl treebits rng fuel strings n 0).map Prod.fst
  | sampleSortRBTCE => (bingmannSampleSortRBTCE rng fuel strings n).map Prod.fst
  | standAlone v => (v.sort rng fuel strings n 0).map Prod.fst
  | msdCI => (StringSampleSort.msdCI fuel strings n 0).map Prod.fst
  | insertionSort => inssortChecked strings (toInt n) (toInt 0)
  | insertionSortGeneric => inssortGenericChecked (UCharStringSet mem) strings n 0
  | lcpInsertionSort saveCache lcp cache =>
    some (StringSampleSort.lcpInsertionSort (UCharStringSet mem) saveCache ⟨strings, lcp, cache⟩
      n 0).strings

/-- The generic sample sort is instantiated with a tree or equality classifier, and `inssort` takes
the number of strings as an `int`. -/
def Callable (n : ℕ) : SequentialSort → Prop
  | sampleSortGeneric cl treebits =>
    cl ≠ .binarySearch ∧ cl.Instantiable treebits ∧ treebits ≤ 15 ∧ 1 ≤ cl.rollout
  | insertionSort => n < 2 ^ 31
  | _ => True

/-- The strings of an array are sorted into this one. -/
structure SortedStrings (strings : ℕ → CString mem) (n : ℕ) (sorted : ℕ → CString mem) : Prop where
  perm : (contents sorted n).Perm (contents strings n)
  le : ∀ p q, p ≤ q → q < n →
    (UCharStringSet mem).chars (sorted p) ≤ (UCharStringSet mem).chars (sorted q)

/-- What the recursive sorts return. -/
private theorem sortedStrings_of_result {strings : ℕ → CString mem} {n : ℕ}
    {result : Option (SortResult mem)}
    (h : ∃ r, result = some r ∧ StringsSorted strings n r) :
    ∃ sorted, result.map Prod.fst = some sorted ∧ SortedStrings strings n sorted := by
  obtain ⟨r, rfl, hr⟩ := h
  refine ⟨r.1, rfl, hr.perm, fun p q hpq hq => ?_⟩
  exact hr.sorted p q ⟨Nat.zero_le p, by omega⟩ ⟨Nat.zero_le q, by omega⟩ hpq

/-- What a stable sort returns. -/
private theorem SortedStrings.of_stable {strings B : ℕ → CString mem} {n : ℕ}
    (h : StableSort (UCharStringSet mem).chars strings n B) : SortedStrings strings n B := by
  refine ⟨h.perm, fun p q hpq hq => ?_⟩
  exact h.sorted p q ⟨Nat.zero_le p, by omega⟩ ⟨Nat.zero_le q, by omega⟩ hpq

/-- The stand-alone sample sorts differ in one level of the recursion only. -/
private theorem standAlone_levels (v : StandAlone) :
    ∃ k level, 0 < k ∧ RightLevels k level ∧ ∀ rng fuel (strings : ℕ → CString mem) n depth,
      v.sort rng fuel strings n depth = sampleSort k level rng fuel [] strings n depth := by
  have hlevels : 0 < treeLevels := by decide
  cases v with
  | bs =>
    exact ⟨leaves, _, by decide, rightLevels_standAlone (findBktBinsearch_spec _) false,
      fun _ _ _ _ _ => rfl⟩
  | bt =>
    exact ⟨_, _, numsplitters_pos hlevels, rightLevels_standAlone
      (findBktTreeLevels_spec hlevels (numsplitters_succ _)) false, fun _ _ _ _ _ => rfl⟩
  | bscBinsearch =>
    exact ⟨leaves, _, by decide, rightLevels_standAlone (findBktBinsearch_spec _) true,
      fun _ _ _ _ _ => rfl⟩
  | bscEqual =>
    exact ⟨leaves, _, by decide, rightLevels_standAlone (findBktEqual_spec _) true,
      fun _ _ _ _ _ => rfl⟩

/-- With enough levels of recursion, each of them sorts. -/
private theorem sorts (q : SequentialSort) {n : ℕ} (hn : 1 ≤ n) (hq : q.Callable n)
    (rng : List ℕ → ℕ → ℕ) {strings : ℕ → CString mem}
    (hlen : ∀ p < n, (strings p).len < 2 ^ 31) :
    ∃ levels, ∀ fuel ≥ levels, ∃ sorted, q.sort rng fuel strings n = some sorted ∧
      SortedStrings strings n sorted := by
  have hzero := sharesDepth_zero strings n
  cases q with
  | sampleSortGeneric cl treebits =>
    obtain ⟨hbs, hcl, ht, hr⟩ := hq
    obtain ⟨levels, h⟩ := sampleSort_sorts (numsplitters_pos (instantiable_le hcl).1)
      (rightLevels_generic hbs hcl ht hr) rng [] hlen hzero
    exact ⟨levels, fun fuel hfuel => sortedStrings_of_result (h fuel hfuel)⟩
  | sampleSortRBTCE =>
    obtain ⟨levels, h⟩ := @sortNested_sorts mem subtreeBits (by decide) (by decide) rng
      [] _ _ _ hlen hzero
    exact ⟨levels, fun fuel hfuel => sortedStrings_of_result (h fuel hfuel)⟩
  | standAlone v =>
    obtain ⟨k, level, hk, hlevel, hsort⟩ := @standAlone_levels mem v
    obtain ⟨levels, h⟩ := sampleSort_sorts hk hlevel rng [] hlen hzero
    refine ⟨levels, fun fuel hfuel => sortedStrings_of_result ?_⟩
    rw [hsort]
    exact h fuel hfuel
  | msdCI =>
    -- a level for each character, and one more
    refine ⟨2 ^ 31, fun fuel hfuel => sortedStrings_of_result ?_⟩
    apply msdCI_spec (by omega) hlen (fun p hp => ?_) hzero
    have := hlen p hp
    omega
  | insertionSort =>
    -- the insertion sorts do not recurse
    refine ⟨0, fun _ _ => ⟨_, inssortChecked_eq hq (by norm_num) hzero, ?_⟩⟩
    exact .of_stable (inssort_stable hq (by norm_num) hzero)
  | insertionSortGeneric =>
    refine ⟨0, fun _ _ => ⟨_, inssortGenericChecked_eq hn, ?_⟩⟩
    obtain ⟨w, hw⟩ := hzero.shares
    exact .of_stable (insertionRounds_stable (fun x y => inssortLeq_iff) hw)
  | lcpInsertionSort saveCache lcp cache =>
    refine ⟨0, fun _ _ => ⟨_, rfl, ?_⟩⟩
    have h : LcpSorted _ n ⟨strings, lcp, cache⟩ _ :=
      lcpInsertionSort_lcpSorted (.ucharStringSet mem) saveCache
        fun _ _ _ _ => SharePrefix.zero _ _
    refine ⟨h.perm, fun p q hpq hq => ?_⟩
    exact ((UCharStringSet.sortable mem).orderedBy.stringLeq_iff _ _).mp (h.sorted p q hpq hq)

/-- Every sequential sort leaves, at every place, a string with the characters that every parallel
sort of the same strings leaves there. -/
theorem sequentialSort_agrees (q : SequentialSort) (rng : List ℕ → ℕ → ℕ) {lo n : ℕ} (hn : 1 ≤ n)
    (hq : q.Callable n) {strings : ℕ → CString mem} (hlen : ∀ p < n, (strings p).len < 2 ^ 31)
    {r : ParallelRun (CString mem)} (h : r.Returned (UCharStringSet mem) lo n)
    (hstrings : ∀ i < n, r.before.strings .original (lo + i) = strings i) :
    ∃ levels, ∀ fuel ≥ levels, ∃ sorted, q.sort rng fuel strings n = some sorted ∧
      (contents sorted n).Perm (contents strings n) ∧
      ∀ i < n, (UCharStringSet mem).chars (sorted i) =
        (UCharStringSet mem).chars (r.after.strings r.cls.outputArray (lo + i)) := by
  obtain ⟨levels, hsorts⟩ := q.sorts hn hq rng hlen
  refine ⟨levels, fun fuel hfuel => ?_⟩
  obtain ⟨sorted, hsort, hperm, hle⟩ := hsorts fuel hfuel
  refine ⟨sorted, hsort, hperm, fun i hi => ?_⟩
  have hp : InWindow 0 n i := ⟨Nat.zero_le i, by omega⟩
  have hwindow := h.sortsWindow (.ofUChar (.ucharStringSet mem)) hn
  -- the output of the parallel sort, counted from the first string of the set on
  have houtput : (slice (fun j => r.after.strings r.cls.outputArray (lo + j)) 0 n).Perm
      (slice strings 0 n) := by
    rw [slice_zero, slice_zero]
    refine hwindow.perm.trans ?_
    exact (contents_congr hstrings ▸ List.Perm.refl _)
  have hsequential : (slice sorted 0 n).Perm (slice strings 0 n) := by
    rw [slice_zero, slice_zero]
    exact hperm
  calc (UCharStringSet mem).chars (sorted i)
      = sortedChars (UCharStringSet mem) strings 0 n i :=
        chars_eq_sortedChars hsequential (fun p q _ hpq hq => hle p q hpq (by omega)) hp
    _ = (UCharStringSet mem).chars (r.after.strings r.cls.outputArray (lo + i)) :=
        (chars_eq_sortedChars houtput (fun p q _ hpq hq =>
          hwindow.sorted (lo + p) (lo + q) (by omega) (by omega) (by omega)) hp).symm

/-- `sample_sortBT` and a parallel sort with eight threads, for forty words. -/
theorem sequentialSort_agrees_words :
    let strings : ℕ → CString wordMem := fun i => word (3 + i)
    ∃ r : ParallelRun (CString wordMem), r.Returned (UCharStringSet wordMem) 3 40 ∧
      ∃ levels, ∀ fuel ≥ levels, ∃ sorted,
        (standAlone .bt).sort (fun _ i => i) fuel strings 40 = some sorted ∧
        (contents sorted 40).Perm (contents strings 40) ∧
        ∀ i < 40, (UCharStringSet wordMem).chars (sorted i) =
          (UCharStringSet wordMem).chars (r.after.strings r.cls.outputArray (3 + i)) := by
  intro strings
  let m : Memory (CString wordMem) := ⟨fun _ => word, fun _ => 7, fun _ => 0⟩
  have hdepth : SharesDepth (UCharStringSet wordMem).chars
      (fun i => m.strings .original (3 + i)) 40 0 := fun _ _ _ _ => SharePrefix.zero _ _
  obtain ⟨m₁, h₁⟩ := ParallelRun.exists_returned (.ofUChar (.ucharStringSet _)) (by norm_num)
    .StringShadowOutPtr (fun h => absurd h Bool.false_ne_true) (Or.inl rfl) 8 hdepth
  have hlen : ∀ p < 40, (strings p).len < 2 ^ 31 := fun _ _ => (by norm_num : 12 < 2 ^ 31)
  exact ⟨_, h₁, sequentialSort_agrees (standAlone .bt) _ (by norm_num) trivial hlen h₁
    fun _ _ => rfl⟩

end SequentialSort

end StringSampleSort
