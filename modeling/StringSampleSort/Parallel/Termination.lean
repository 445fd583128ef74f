import StringSampleSort.Parallel.SampleLevel

/-!
# The recursion of sample sort ends

The recursive calls of `sample_sort_generic`, and those of `SeqSampleSortStep` and
`SampleSortStep`: what the buckets of the former become in `sort_sample_sort` or, when another
thread is idle, in `sample_sort_free_work`, and those of the latter in `distribute_finished`.

Neither the depth nor the number of strings changes in the right direction in every call.  The
strings of an even bucket are fewer, since those of the splitters are in odd buckets; the strings
of an odd bucket that is not done have eight characters less before them.

## Main results

- `StepArrays.Ok.shrinks`: the sizes of the even buckets, and the depths of the odd ones
- `StepArrays.Ok.decreases`: every recursive call has fewer characters left, or as many and fewer
  strings
- `sampleSort_terminates`: so every sequence of recursive calls is bounded
-/

namespace StringSampleSort

open Library Slice

/-! ## Model -/

/-- `g_smallsort_threshold`. -/
def smallsortThreshold : ℕ := 1024 * 1024

/-- `ctx.sequential_threshold()`. -/
def sequentialThreshold (totalsize threadnum : ℕ) : ℕ := max smallsortThreshold (totalsize / threadnum)

/-- What sorts a range: a step, or `sort_mkqs_cache`. -/
inductive StepKind
  | sampleSortStep
  | seqSampleSortStep
  | mkqsCache
  deriving DecidableEq

/-- The call of a step for the `n` strings from `strings` on. -/
structure StepCall (S : Type) where
  kind : StepKind
  strings : ℕ → S
  n : ℕ
  depth : ℕ

section Model

variable {S : Type}

/-- `Enqueue(ctx, sstep, strptr, depth)`, and `SmallsortJob::run`. -/
def enqueue (threshold : ℕ) (strings : ℕ → S) (n depth : ℕ) : StepCall S :=
  if n > threshold then ⟨.sampleSortStep, strings, n, depth⟩
  else if n ≥ smallsortThreshold then ⟨.seqSampleSortStep, strings, n, depth⟩
  else ⟨.mkqsCache, strings, n, depth⟩

/-- Bucket `i` of a `SeqSampleSortStep`, in `sort_sample_sort` or in `sample_sort_free_work`. -/
def seqBucketCall (threshold : ℕ) (freed : Bool) (a : StepArrays S) (depth i : ℕ) :
    Option (StepCall S) :=
  let bktsize := a.bktsize i
  let call := fun depth =>
    if freed then enqueue threshold (a.bucket i) bktsize depth
    else if bktsize < smallsortThreshold then ⟨.mkqsCache, a.bucket i, bktsize, depth⟩
    else ⟨.seqSampleSortStep, a.bucket i, bktsize, depth⟩
  if i % 2 = 0 then
    if bktsize = 0 then none else some (call (depth + (a.lcp (i / 2) &&& 0x7F).toNat))
  else if bktsize = 0 then none
  else if a.lcp (i / 2) &&& 0x80 ≠ 0 then none
  else some (call (depth + 8))

/-- Bucket `i` of a `SampleSortStep`, in `distribute_finished`. -/
def distributedBucketCall (threshold numsplitters : ℕ) (a : StepArrays S) (depth i : ℕ) :
    Option (StepCall S) :=
  let bktsize := a.bktsize i
  let call := enqueue threshold (a.bucket i) bktsize
  if bktsize = 0 then none
  else if bktsize = 1 then none
  else if i = 2 * numsplitters then some (call depth)
  else if i % 2 = 0 then some (call (depth + (a.lcp (i / 2) &&& 0x7F).toNat))
  else if a.lcp (i / 2) &&& 0x80 ≠ 0 then none
  else some (call (depth + 8))

/-- The recursive call for bucket `i` of a step. -/
def StepCall.bucketCall (threshold numsplitters : ℕ) (freed : Bool) (c : StepCall S)
    (a : StepArrays S) (i : ℕ) : Option (StepCall S) :=
  match c.kind with
  | .sampleSortStep => distributedBucketCall threshold numsplitters a c.depth i
  | .seqSampleSortStep => seqBucketCall threshold freed a c.depth i
  | .mkqsCache => none

/-- What a step does before its recursive calls, whatever the shadow array holds. -/
def StepCall.Does (set : StringSet S) (cl : ClassifierClass) (treebits threshold : ℕ)
    (rng : ℕ → ℕ) (c : StepCall S) (a : StepArrays S) : Prop :=
  match c.kind with
  | .sampleSortStep =>
    ∃ shadow, SampledInParts set cl treebits threshold rng c.strings shadow c.n c.depth a
  | .seqSampleSortStep =>
    ∃ shadow, seqSampleSortStep set cl treebits rng c.strings shadow c.n c.depth = some a
  | .mkqsCache => False

/-- A way down the recursion of `parallel_sample_sort`.  A label is a bucket, and whether its work
is freed; the numbers that are drawn depend on the path. -/
def stepRun (set : StringSet S) (cl : ClassifierClass) (treebits threadnum : ℕ)
    (rng : List (ℕ × Bool) → ℕ → ℕ) (strings : ℕ → S) (n : ℕ) :
    Transition (List (ℕ × Bool) × StepCall S) (ℕ × Bool) where
  init s := s = ([], enqueue (sequentialThreshold n threadnum) strings n 0)
  step s l s' := ∃ a c, s.2.Does set cl treebits (sequentialThreshold n threadnum) (rng s.1) a ∧
    l.1 < 2 * numsplitters treebits + 1 ∧
    s.2.bucketCall (sequentialThreshold n threadnum) (numsplitters treebits) l.2 a l.1 = some c ∧
    s' = (s.1 ++ [l], c)

/-- A way down the recursion of `sample_sort_generic`.  A label is a bucket. -/
def genericRun {mem : ℕ → CharType} (cl : ClassifierClass) (treebits : ℕ)
    (rng : List ℕ → ℕ → ℕ) (strings : ℕ → CString mem) (n : ℕ) :
    Transition (List ℕ × SortCall mem) ℕ where
  init s := s = ([], ⟨strings, n, 0⟩)
  step s b s' := ∃ lv, samplesortSmallsort ≤ s.2.n ∧
    genericLevel cl treebits (rng s.1) s.2.strings s.2.n s.2.depth = some lv ∧
    b < 2 * numsplitters treebits + 1 ∧ lv.recurses (numsplitters treebits) b = true ∧
    s' = (s.1 ++ [b], ⟨lv.bucketStrings b, lv.bktsize b,
      lv.bucketDepth (numsplitters treebits) s.2.depth b⟩)

/-- Even buckets are smaller than the range, and the strings of odd buckets that are not done have
eight characters more. -/
def Shrinks (set : StringSet S) (numsplitters n depth : ℕ) (size : ℕ → ℕ) (bucket : ℕ → ℕ → S)
    (done : ℕ → Prop) : Prop :=
  (∀ i ≤ numsplitters, size (2 * i) < n) ∧
    ∀ i < numsplitters, ¬ done i → ∀ k < size (2 * i + 1),
      depth + 8 ≤ set.length (bucket (2 * i + 1) k)

/-- A range as a rank: the lexicographic measure as a number, for ranges of at most `total`
strings. -/
def recursionRank (set : StringSet S) (total : ℕ) (strings : ℕ → S) (n depth : ℕ) : ℕ :=
  charsLeft set.chars strings n depth * (total + 1) + n

end Model

/-! ## One step -/

section Step

variable {S : Type} {set : StringSet S} {strings : ℕ → S} {n depth : ℕ} {ss : List KeyType}
  {bkt : KeyType → ℕ} {a : StepArrays S}

/-- The buckets of an arranged range. -/
theorem Arranged.shrinks {size : ℕ → ℕ} {sorted : ℕ → S} {bucket : ℕ → ℕ → S} {done : ℕ → Prop}
    (h : Arranged set.chars strings n depth ss bkt size sorted) (hss : ss ≠ [])
    (hbucket : ∀ i < 2 * ss.length + 1, bucket i = fun k => sorted (bucketStart size i + k))
    (hdone : ∀ i < ss.length, done i ↔ lowByte (ss.getD i 0) = 0) :
    Shrinks set ss.length n depth size bucket done := by
  -- the splitters are strings of the range, and none of them is in an even bucket
  refine ⟨fun i hi => h.even_lt hss (by omega), fun i hi hnot k hk => ?_⟩
  rw [hbucket _ (by omega), ← set.length_chars]
  exact h.odd_depth (by omega) (fun hlow => hnot ((hdone i hi).mpr hlow))
    ⟨Nat.le_add_right .., Nat.add_lt_add_left hk _⟩

namespace StepArrays.Ok

/-- The window of a bucket. -/
theorem bucket_eq (h : a.Ok set strings n depth ss bkt) {i : ℕ} (hi : i < 2 * ss.length + 1) :
    a.bucket i = fun k => a.sorted (bucketStart a.bktsize i + k) := by
  rw [← h.start i hi.le]
  rfl

theorem shrinks (h : a.Ok set strings n depth ss bkt) (hss : ss ≠ []) :
    Shrinks set ss.length n depth a.bktsize a.bucket fun i => a.lcp i &&& 0x80 ≠ 0 :=
  h.arranged.shrinks hss (fun _ hi => h.bucket_eq hi) h.done_iff

/-- A call for an even bucket. -/
theorem even_call (h : a.Ok set strings n depth ss bkt) (hss : ss ≠ []) {i : ℕ}
    (hi : i ≤ ss.length) :
    SharesDepth set.chars (a.bucket (2 * i)) (a.bktsize (2 * i))
        (depth + (a.lcp i &&& 0x7F).toNat) ∧
      recursionMeasure set.chars (a.bucket (2 * i)) (a.bktsize (2 * i))
        (depth + (a.lcp i &&& 0x7F).toNat) < recursionMeasure set.chars strings n depth := by
  -- an even bucket has fewer strings, and no fewer characters before them
  rw [h.bucket_eq (by omega), h.less_eq i hi]
  exact ⟨h.arranged.even_share (by omega),
    h.arranged.even_decreases hss (by omega) (Nat.le_add_right ..)⟩

/-- A call for an odd bucket that is not done. -/
theorem odd_call (h : a.Ok set strings n depth ss bkt) {i : ℕ} (hi : i < ss.length)
    (hsize : 0 < a.bktsize (2 * i + 1)) (hdone : a.lcp i &&& 0x80 = 0) :
    SharesDepth set.chars (a.bucket (2 * i + 1)) (a.bktsize (2 * i + 1)) (depth + 8) ∧
      recursionMeasure set.chars (a.bucket (2 * i + 1)) (a.bktsize (2 * i + 1)) (depth + 8) <
        recursionMeasure set.chars strings n depth := by
  -- the key is a splitter without a terminator, so all of its strings go on behind it
  have hlow : lowByte (ss.getD i 0) ≠ 0 := fun hlow => (h.done_iff i hi).mpr hlow hdone
  rw [h.bucket_eq (by omega)]
  exact ⟨h.arranged.odd_share (by omega) hlow, h.arranged.odd_decreases (by omega) hlow hsize⟩

end StepArrays.Ok

end Step

/-! ## The calls of the steps -/

section Calls

variable {S : Type} {set : StringSet S} {cl : ClassifierClass} {treebits threshold : ℕ}

@[simp] theorem enqueue_strings (threshold : ℕ) (strings : ℕ → S) (n depth : ℕ) :
    (enqueue threshold strings n depth).strings = strings := by
  unfold enqueue
  split_ifs <;> rfl

@[simp] theorem enqueue_n (threshold : ℕ) (strings : ℕ → S) (n depth : ℕ) :
    (enqueue threshold strings n depth).n = n := by
  unfold enqueue
  split_ifs <;> rfl

@[simp] theorem enqueue_depth (threshold : ℕ) (strings : ℕ → S) (n depth : ℕ) :
    (enqueue threshold strings n depth).depth = depth := by
  unfold enqueue
  split_ifs <;> rfl

/-- Only ranges with strings go to a sample sort step. -/
theorem enqueue_pos (threshold : ℕ) (strings : ℕ → S) (n depth : ℕ)
    (h : (enqueue threshold strings n depth).kind ≠ .mkqsCache) : 1 ≤ n := by
  unfold enqueue at h
  -- both thresholds are positive
  split_ifs at h with h₁ h₂
  · omega
  · exact le_trans (by decide) h₂
  · exact absurd rfl h

/-- The range of a call: its strings share the depth, and it has strings unless it is small. -/
structure StepCall.Good (set : StringSet S) (total : ℕ) (c : StepCall S) : Prop where
  shares : SharesDepth set.chars c.strings c.n c.depth
  n_le : c.n ≤ total
  pos : c.kind ≠ .mkqsCache → 1 ≤ c.n

/-- The call is for bucket `i` of a step, at a depth of its own. -/
def StepCall.ForBucket (c : StepCall S) (a : StepArrays S) (i depth : ℕ) : Prop :=
  c.strings = a.bucket i ∧ c.n = a.bktsize i ∧ c.depth = depth ∧
    (c.kind ≠ .mkqsCache → 1 ≤ c.n)

theorem enqueue_forBucket (threshold : ℕ) (a : StepArrays S) (i depth : ℕ) :
    (enqueue threshold (a.bucket i) (a.bktsize i) depth).ForBucket a i depth := by
  refine ⟨enqueue_strings .., enqueue_n .., enqueue_depth .., fun h => ?_⟩
  rw [enqueue_n]
  exact enqueue_pos _ _ _ _ h

/-- The depths of the calls: what is added for an even bucket, or eight for one that is not
done. -/
def CallDepth (a : StepArrays S) (depth i depth' : ℕ) : Prop :=
  (i % 2 = 0 ∧ depth' = depth + (a.lcp (i / 2) &&& 0x7F).toNat) ∨
    (i % 2 = 1 ∧ 0 < a.bktsize i ∧ a.lcp (i / 2) &&& 0x80 = 0 ∧ depth' = depth + 8)

theorem seqBucketCall_spec {freed : Bool} {a : StepArrays S} {depth i : ℕ} {c : StepCall S}
    (h : seqBucketCall threshold freed a depth i = some c) :
    ∃ depth', c.ForBucket a i depth' ∧ CallDepth a depth i depth' := by
  -- whatever the bucket is given to, the call is for its strings
  have hcall : ∀ depth', (if freed then enqueue threshold (a.bucket i) (a.bktsize i) depth'
      else if a.bktsize i < smallsortThreshold then
        ⟨.mkqsCache, a.bucket i, a.bktsize i, depth'⟩
      else ⟨.seqSampleSortStep, a.bucket i, a.bktsize i, depth'⟩ : StepCall S).ForBucket a i
        depth' := by
    intro depth'
    split
    · exact enqueue_forBucket ..
    · split
      · exact ⟨rfl, rfl, rfl, fun h => absurd rfl h⟩
      · next hlarge => exact ⟨rfl, rfl, rfl, fun _ => le_trans (by decide) (not_lt.mp hlarge)⟩
  rw [seqBucketCall] at h
  split at h
  · next heven =>
    -- an even bucket is passed over when it is empty
    split at h
    · exact absurd h (by simp)
    · rw [Option.some_inj] at h
      subst h
      exact ⟨_, hcall _, Or.inl ⟨heven, rfl⟩⟩
  · -- an odd bucket, when it is empty or done
    next hodd =>
    split at h
    · exact absurd h (by simp)
    · next hsize =>
      split at h
      · exact absurd h (by simp)
      · next hdone =>
        rw [Option.some_inj] at h
        subst h
        exact ⟨_, hcall _, Or.inr ⟨by omega, by omega, not_not.mp hdone, rfl⟩⟩

theorem distributedBucketCall_spec {numsplitters : ℕ} {a : StepArrays S} {depth i : ℕ}
    {c : StepCall S} (hlast : (a.lcp numsplitters &&& 0x7F).toNat = 0)
    (h : distributedBucketCall threshold numsplitters a depth i = some c) :
    ∃ depth', c.ForBucket a i depth' ∧ CallDepth a depth i depth' := by
  rw [distributedBucketCall] at h
  split at h
  · exact absurd h (by simp)
  · next hsize =>
    split at h
    · exact absurd h (by simp)
    · split at h
      · next hi =>
        rw [Option.some_inj] at h
        subst h
        -- the last bucket keeps its depth, as nothing is added for it
        refine ⟨depth, enqueue_forBucket .., Or.inl ⟨by omega, ?_⟩⟩
        rw [hi, Nat.mul_div_cancel_left _ two_pos, hlast, Nat.add_zero]
      · split at h
        · next heven =>
          rw [Option.some_inj] at h
          subst h
          exact ⟨_, enqueue_forBucket .., Or.inl ⟨heven, rfl⟩⟩
        · next hodd =>
          split at h
          · exact absurd h (by simp)
          · next hdone =>
            rw [Option.some_inj] at h
            subst h
            exact ⟨_, enqueue_forBucket .., Or.inr ⟨by omega, by omega, not_not.mp hdone, rfl⟩⟩

/-- What a step does for a good call. -/
theorem StepCall.Good.ok (hset : set.Sortable) (hbs : cl ≠ .binarySearch)
    (hcl : cl.Instantiable treebits) (ht : treebits ≤ 15) (hr : 1 ≤ cl.rollout) {rng : ℕ → ℕ}
    {c : StepCall S} {a : StepArrays S} {total : ℕ} (hc : c.Good set total)
    (h : c.Does set cl treebits threshold rng a) :
    c.kind ≠ .mkqsCache ∧ ∃ ss bkt, ss.length = numsplitters treebits ∧
      a.Ok set c.strings c.n c.depth ss bkt := by
  have hpos := hc.pos
  rw [StepCall.Does] at h
  -- the small ranges are not for sample sort, so they do nothing here
  cases hk : c.kind with
  | sampleSortStep =>
    rw [hk] at h hpos
    obtain ⟨shadow, h⟩ := h
    exact ⟨by simp, h.ok hset hbs hcl ht hr (hpos (by simp)) hc.shares⟩
  | seqSampleSortStep =>
    rw [hk] at h hpos
    obtain ⟨shadow, h⟩ := h
    obtain ⟨a', ss, bkt, heq, hlen, hok, -⟩ :=
      seqSampleSortStep_ok hset hbs hcl ht hr rng shadow (hpos (by simp)) hc.shares
    rw [h, Option.some_inj] at heq
    subst heq
    exact ⟨by simp, ss, bkt, hlen, hok⟩
  | mkqsCache =>
    rw [hk] at h
    exact h.elim

/-- Every recursive call is good again, and has fewer characters left, or as many and fewer
strings. -/
theorem StepArrays.Ok.decreases {c c' : StepCall S} {a : StepArrays S} {ss : List KeyType}
    {bkt : KeyType → ℕ} {total i : ℕ} {freed : Bool} (hss : ss ≠ [])
    (h : a.Ok set c.strings c.n c.depth ss bkt) (hc : c.Good set total)
    (hi : i < 2 * ss.length + 1)
    (hcall : c.bucketCall threshold ss.length freed a i = some c') :
    c'.Good set total ∧ recursionMeasure set.chars c'.strings c'.n c'.depth <
      recursionMeasure set.chars c.strings c.n c.depth := by
  have hlast : (a.lcp ss.length &&& 0x7F).toNat = 0 := by
    rw [h.less_eq _ (le_refl _), lessLcp, if_pos (Or.inr (le_refl _))]
  -- whichever step it is, the call is for a bucket, at a depth of that bucket
  have hspec : ∃ depth', c'.ForBucket a i depth' ∧ CallDepth a c.depth i depth' := by
    rw [StepCall.bucketCall] at hcall
    split at hcall
    · exact distributedBucketCall_spec hlast hcall
    · exact seqBucketCall_spec hcall
    · exact absurd hcall (by simp)
  obtain ⟨depth', ⟨hstrings, hn, hdepth, hpos⟩, hcases⟩ := hspec
  have hle : a.bktsize i ≤ c.n := by
    have hend := bucketEnd_le a.bktsize hi
    rw [h.arranged.total] at hend
    omega
  have hboth : SharesDepth set.chars (a.bucket i) (a.bktsize i) depth' ∧
      recursionMeasure set.chars (a.bucket i) (a.bktsize i) depth' <
        recursionMeasure set.chars c.strings c.n c.depth := by
    -- even buckets lose strings, odd ones lose characters
    rcases hcases with ⟨heven, rfl⟩ | ⟨hodd, hsize, hdone, rfl⟩
    · obtain ⟨k, rfl⟩ : ∃ k, i = 2 * k := ⟨i / 2, by omega⟩
      rw [Nat.mul_div_cancel_left k two_pos]
      exact h.even_call hss (by omega)
    · obtain ⟨k, rfl⟩ : ∃ k, i = 2 * k + 1 := ⟨i / 2, by omega⟩
      rw [show (2 * k + 1) / 2 = k by omega] at hdone
      exact h.odd_call (by omega) hsize hdone
  refine ⟨⟨?_, ?_, hpos⟩, ?_⟩
  · rw [hstrings, hn, hdepth]
    exact hboth.1
  · rw [hn]
    exact hle.trans hc.n_le
  · rw [hstrings, hn, hdepth]
    exact hboth.2

end Calls

/-! ## Runs -/

section Runs

variable {S : Type} {set : StringSet S} {cl : ClassifierClass} {treebits : ℕ}

/-- The lexicographic measure as a number. -/
theorem recursionRank_lt {strings strings' : ℕ → S} {n n' depth depth' total : ℕ}
    (hn : n' ≤ total) (h : recursionMeasure set.chars strings' n' depth' <
      recursionMeasure set.chars strings n depth) :
    recursionRank set total strings' n' depth' < recursionRank set total strings n depth := by
  rw [recursionMeasure, recursionMeasure, Prod.Lex.toLex_lt_toLex] at h
  rw [recursionRank, recursionRank]
  -- fewer characters outweigh any number of strings, as there are at most `total`
  rcases h with hlt | ⟨heq, hlt⟩
  · have := Nat.mul_le_mul_right (total + 1) (Nat.succ_le_of_lt hlt)
    rw [Nat.succ_mul] at this
    simp only at this
    omega
  · simp only at heq hlt
    rw [heq]
    omega

/-- The rank of a range whose strings are the whole array at depth zero is below the bound. -/
theorem recursionRank_le (set : StringSet S) (strings : ℕ → S) (n : ℕ) :
    recursionRank set n strings n 0 ≤ (charsLeft set.chars strings n 0 + 1) * (n + 1) := by
  rw [recursionRank, Nat.succ_mul]
  omega

/-- Every call of a run is good. -/
theorem stepRun_good (hset : set.Sortable) (hbs : cl ≠ .binarySearch)
    (hcl : cl.Instantiable treebits) (ht : treebits ≤ 15) (hr : 1 ≤ cl.rollout) {threadnum n : ℕ}
    {rng : List (ℕ × Bool) → ℕ → ℕ} {strings : ℕ → S} {s : List (ℕ × Bool) × StepCall S}
    (h : (stepRun set cl treebits threadnum rng strings n).Reachable s) : s.2.Good set n := by
  refine h.invariant (P := fun s => s.2.Good set n) ?_ ?_
  · -- the first call is for all strings, from their beginnings on
    rintro s rfl
    refine ⟨?_, (enqueue_n ..).le, fun hkind => ?_⟩
    · rw [enqueue_strings, enqueue_n, enqueue_depth]
      exact fun _ _ _ _ => ⟨Nat.zero_le _, Nat.zero_le _, rfl⟩
    · rw [enqueue_n]
      exact enqueue_pos _ _ _ _ hkind
  · -- a good call has good arrays, from which good calls are made
    rintro s l s' - hgood ⟨a, c, hdoes, hl, hcall, rfl⟩
    obtain ⟨-, ss, bkt, hlen, hok⟩ := hgood.ok hset hbs hcl ht hr hdoes
    have hpos := numsplitters_pos (instantiable_le hcl).1
    rw [← hlen] at hl hcall
    exact (hok.decreases (List.ne_nil_of_length_pos (by omega)) hgood hl hcall).1

/-- The steps of the parallel sample sort. -/
theorem stepRun_terminates (hset : set.Sortable) (hbs : cl ≠ .binarySearch)
    (hcl : cl.Instantiable treebits) (ht : treebits ≤ 15) (hr : 1 ≤ cl.rollout) (threadnum : ℕ)
    (rng : List (ℕ × Bool) → ℕ → ℕ) (strings : ℕ → S) (n : ℕ) :
    (∀ s, (stepRun set cl treebits threadnum rng strings n).Reachable s →
      s.2.kind ≠ .mkqsCache →
      (∃ a, s.2.Does set cl treebits (sequentialThreshold n threadnum) (rng s.1) a) ∧
      ∀ a, s.2.Does set cl treebits (sequentialThreshold n threadnum) (rng s.1) a →
        Shrinks set (numsplitters treebits) s.2.n s.2.depth a.bktsize a.bucket
          fun i => a.lcp i &&& 0x80 ≠ 0) ∧
    (∀ s l s', (stepRun set cl treebits threadnum rng strings n).Reachable s →
      (stepRun set cl treebits threadnum rng strings n).step s l s' →
      recursionMeasure set.chars s'.2.strings s'.2.n s'.2.depth <
        recursionMeasure set.chars s.2.strings s.2.n s.2.depth) ∧
    ∀ tr s, (stepRun set cl treebits threadnum rng strings n).Run tr s →
      tr.length ≤ (charsLeft set.chars strings n 0 + 1) * (n + 1) := by
  have hpos := numsplitters_pos (instantiable_le hcl).1
  -- each call of a run is good, so the measure goes down at it
  have hdecreases : ∀ s l s', (stepRun set cl treebits threadnum rng strings n).Reachable s →
      (stepRun set cl treebits threadnum rng strings n).step s l s' →
      recursionMeasure set.chars s'.2.strings s'.2.n s'.2.depth <
        recursionMeasure set.chars s.2.strings s.2.n s.2.depth := by
    rintro s l s' hreach ⟨a, c, hdoes, hl, hcall, rfl⟩
    have hgood := stepRun_good hset hbs hcl ht hr hreach
    obtain ⟨-, ss, bkt, hlen, hok⟩ := hgood.ok hset hbs hcl ht hr hdoes
    rw [← hlen] at hl hcall
    exact (hok.decreases (List.ne_nil_of_length_pos (by omega)) hgood hl hcall).2
  refine ⟨fun s hreach hkind => ⟨?_, fun a hdoes => ?_⟩, hdecreases, fun tr s hrun => ?_⟩
  · have hgood := stepRun_good hset hbs hcl ht hr hreach
    have hn := hgood.pos hkind
    simp only [StepCall.Does]
    -- each kind of step has a result, whatever the order of its parts
    cases hk : s.2.kind with
    | sampleSortStep =>
      have hthreshold : 1 ≤ sequentialThreshold n threadnum :=
        le_trans (by decide) (le_max_left ..)
      obtain ⟨a, ha⟩ := exists_sampledInParts hset hbs hcl ht hr hthreshold (rng s.1) s.2.strings
        hn hgood.shares
      exact ⟨a, s.2.strings, ha⟩
    | seqSampleSortStep =>
      obtain ⟨a, ss, bkt, ha, -⟩ := seqSampleSortStep_ok hset hbs hcl ht hr (rng s.1) s.2.strings
        hn hgood.shares
      exact ⟨a, s.2.strings, ha⟩
    | mkqsCache => exact absurd hk hkind
  · obtain ⟨-, ss, bkt, hlen, hok⟩ :=
      (stepRun_good hset hbs hcl ht hr hreach).ok hset hbs hcl ht hr hdoes
    rw [← hlen]
    exact hok.shrinks (List.ne_nil_of_length_pos (by omega))
  · -- the rank bounds the number of calls that can follow
    refine (Nat.le_add_right ..).trans
      (hrun.length_le (fun s => recursionRank set n s.2.strings s.2.n s.2.depth) ?_ ?_)
    · rintro s rfl
      rw [enqueue_strings, enqueue_n, enqueue_depth]
      exact recursionRank_le set strings n
    · intro s l s' hreach hstep
      exact recursionRank_lt (stepRun_good hset hbs hcl ht hr (hreach.step hstep)).n_le
        (hdecreases s l s' hreach hstep)

end Runs

section Generic

variable {mem : ℕ → CharType} {cl : ClassifierClass} {treebits : ℕ}

/-- Every call of a run is for strings that share its depth. -/
theorem genericRun_good (hbs : cl ≠ .binarySearch) (hcl : cl.Instantiable treebits)
    (ht : treebits ≤ 15) (hr : 1 ≤ cl.rollout) {n : ℕ} {rng : List ℕ → ℕ → ℕ}
    {strings : ℕ → CString mem} {s : List ℕ × SortCall mem}
    (h : (genericRun cl treebits rng strings n).Reachable s) : s.2.Shares ∧ s.2.n ≤ n := by
  refine h.invariant (P := fun s => s.2.Shares ∧ s.2.n ≤ n) ?_ ?_
  · rintro s rfl
    exact ⟨sharesDepth_zero strings n, le_refl n⟩
  · rintro s b s' - ⟨hshares, hn⟩ ⟨lv, hlarge, hlv, hb, hrec, rfl⟩
    obtain ⟨lv', ss, bkt, heq, hok⟩ :=
      rightLevels_generic hbs hcl ht hr (rng s.1) _ _ _ hlarge hshares
    rw [hlv, Option.some_inj] at heq
    subst heq
    refine ⟨hok.shares hb hrec, ?_⟩
    -- no bucket is larger than its range
    have hend := bucketEnd_le lv.bktsize hb
    have htotal := hok.arranged.total
    rw [hok.length_eq] at htotal
    rw [htotal] at hend
    simp only
    omega

/-- The recursion of `sample_sort_generic`. -/
theorem genericRun_terminates (hbs : cl ≠ .binarySearch) (hcl : cl.Instantiable treebits)
    (ht : treebits ≤ 15) (hr : 1 ≤ cl.rollout) (rng : List ℕ → ℕ → ℕ) (strings : ℕ → CString mem)
    (n : ℕ) :
    (∀ s, (genericRun cl treebits rng strings n).Reachable s → samplesortSmallsort ≤ s.2.n →
      ∃ lv, genericLevel cl treebits (rng s.1) s.2.strings s.2.n s.2.depth = some lv ∧
        Shrinks (UCharStringSet mem) (numsplitters treebits) s.2.n s.2.depth lv.bktsize
          lv.bucketStrings fun i => lv.done i = true) ∧
    (∀ s b s', (genericRun cl treebits rng strings n).Reachable s →
      (genericRun cl treebits rng strings n).step s b s' →
      recursionMeasure (UCharStringSet mem).chars s'.2.strings s'.2.n s'.2.depth <
        recursionMeasure (UCharStringSet mem).chars s.2.strings s.2.n s.2.depth) ∧
    ∀ tr s, (genericRun cl treebits rng strings n).Run tr s →
      tr.length ≤ (charsLeft (UCharStringSet mem).chars strings n 0 + 1) * (n + 1) := by
  have hpos := numsplitters_pos (instantiable_le hcl).1
  have hdecreases : ∀ s b s', (genericRun cl treebits rng strings n).Reachable s →
      (genericRun cl treebits rng strings n).step s b s' →
      recursionMeasure (UCharStringSet mem).chars s'.2.strings s'.2.n s'.2.depth <
        recursionMeasure (UCharStringSet mem).chars s.2.strings s.2.n s.2.depth := by
    rintro s b s' hreach ⟨lv, hlarge, hlv, hb, hrec, rfl⟩
    obtain ⟨lv', ss, bkt, heq, hok⟩ := rightLevels_generic hbs hcl ht hr (rng s.1) _ _ _ hlarge
      (genericRun_good hbs hcl ht hr hreach).1
    rw [hlv, Option.some_inj] at heq
    subst heq
    exact hok.decreases hpos hb hrec
  -- every level is a right one, so its buckets shrink and its calls decrease
  refine ⟨fun s hreach hlarge => ?_, hdecreases, fun tr s hrun => ?_⟩
  · obtain ⟨lv, ss, bkt, hlv, hok⟩ := rightLevels_generic hbs hcl ht hr (rng s.1) _ _ _ hlarge
      (genericRun_good hbs hcl ht hr hreach).1
    refine ⟨lv, hlv, ?_⟩
    rw [← hok.length_eq]
    refine hok.arranged.shrinks (List.ne_nil_of_length_pos ?_) (fun _ _ => rfl) fun i hi => ?_
    · rw [hok.length_eq]
      exact hpos
    · exact hok.done_iff i (hi.trans_eq hok.length_eq)
  · refine (Nat.le_add_right ..).trans (hrun.length_le
      (fun s => recursionRank (UCharStringSet mem) n s.2.strings s.2.n s.2.depth) ?_ ?_)
    · rintro s rfl
      exact recursionRank_le _ strings n
    · intro s b s' hreach hstep
      exact recursionRank_lt (genericRun_good hbs hcl ht hr (hreach.step hstep)).2
        (hdecreases s b s' hreach hstep)

/-- In each kind of step the even buckets and the depths of the odd ones leave less to do, so the
measure goes down in every recursive call and all recursion ends, whatever numbers are drawn. -/
theorem sampleSort_terminates (hbs : cl ≠ .binarySearch) (hcl : cl.Instantiable treebits)
    (ht : treebits ≤ 15) (hr : 1 ≤ cl.rollout) (strings : ℕ → CString mem) (n : ℕ) :
    (∀ rng : List ℕ → ℕ → ℕ,
      (∀ s, (genericRun cl treebits rng strings n).Reachable s → samplesortSmallsort ≤ s.2.n →
        ∃ lv, genericLevel cl treebits (rng s.1) s.2.strings s.2.n s.2.depth = some lv ∧
          Shrinks (UCharStringSet mem) (numsplitters treebits) s.2.n s.2.depth lv.bktsize
            lv.bucketStrings fun i => lv.done i = true) ∧
      (∀ s b s', (genericRun cl treebits rng strings n).Reachable s →
        (genericRun cl treebits rng strings n).step s b s' →
        recursionMeasure (UCharStringSet mem).chars s'.2.strings s'.2.n s'.2.depth <
          recursionMeasure (UCharStringSet mem).chars s.2.strings s.2.n s.2.depth) ∧
      ∀ tr s, (genericRun cl treebits rng strings n).Run tr s →
        tr.length ≤ (charsLeft (UCharStringSet mem).chars strings n 0 + 1) * (n + 1)) ∧
    ∀ (threadnum : ℕ) (rng : List (ℕ × Bool) → ℕ → ℕ),
      (∀ s, (stepRun (UCharStringSet mem) cl treebits threadnum rng strings n).Reachable s →
        s.2.kind ≠ .mkqsCache →
        (∃ a, s.2.Does (UCharStringSet mem) cl treebits (sequentialThreshold n threadnum)
          (rng s.1) a) ∧
        ∀ a, s.2.Does (UCharStringSet mem) cl treebits (sequentialThreshold n threadnum)
            (rng s.1) a →
          Shrinks (UCharStringSet mem) (numsplitters treebits) s.2.n s.2.depth a.bktsize a.bucket
            fun i => a.lcp i &&& 0x80 ≠ 0) ∧
      (∀ s l s', (stepRun (UCharStringSet mem) cl treebits threadnum rng strings n).Reachable s →
        (stepRun (UCharStringSet mem) cl treebits threadnum rng strings n).step s l s' →
        recursionMeasure (UCharStringSet mem).chars s'.2.strings s'.2.n s'.2.depth <
          recursionMeasure (UCharStringSet mem).chars s.2.strings s.2.n s.2.depth) ∧
      ∀ tr s, (stepRun (UCharStringSet mem) cl treebits threadnum rng strings n).Run tr s →
        tr.length ≤ (charsLeft (UCharStringSet mem).chars strings n 0 + 1) * (n + 1) :=
  ⟨fun rng => genericRun_terminates hbs hcl ht hr rng strings n, fun threadnum rng =>
    stepRun_terminates (UCharStringSet.sortable mem) hbs hcl ht hr threadnum rng strings n⟩

/-- On 40000 words, no run of `sample_sort_generic` is longer than the bound. -/
theorem sampleSort_terminates_words :
    ¬ ∃ tr s, (genericRun .equal 10 (fun _ i => i) word 40000).Run tr s ∧
      (charsLeft (UCharStringSet wordMem).chars word 40000 0 + 1) *
        (40000 + 1) < tr.length := by
  rintro ⟨tr, s, hrun, hlong⟩
  have hbound := ((@sampleSort_terminates _ .equal 10 (by decide) ⟨by decide, by decide⟩
    (by decide) (by decide) word 40000).1 fun _ i => i).2.2 tr s hrun
  exact absurd hlong hbound.not_gt

end Generic

end StringSampleSort
