import StringSampleSort.Parallel.Distribute
import StringSampleSort.Sequential.GenericSort

/-!
# Sample sort steps

Model of what `SeqSampleSortStep` and `SampleSortStep` of
`src/parallel/bingmann-parallel_sample_sort.hpp` do before their recursive calls: they draw a
sample, build the classifier, classify the strings and move them to the shadow array, the latter in
several parts.

## Main results

- `Distributed.arranged`: a range that has been distributed is arranged by buckets
- `seqDistribute_reachable`: the sequential loop is the run of a single part
- `seqSampleSortStep_ok`, `SampledInParts.ok`: what both steps leave for their recursive calls
-/

namespace StringSampleSort

open Library Slice

/-! ## Model -/

section Model

variable {S : Type}

/-- The sorted sample of a step. -/
def sampleKeys (set : StringSet S) (rng : ℕ → ℕ) (strings : ℕ → S) (n depth samplesize : ℕ) :
    ℕ → KeyType :=
  stdSort ((List.range samplesize).map fun i => getUint64 set (strings (rng i % n)) depth)

/-- The classifier of a step. -/
def stepClassifier (set : StringSet S) (cl : ClassifierClass) (treebits : ℕ) (rng : ℕ → ℕ)
    (strings : ℕ → S) (n depth : ℕ) : SplitterArrays :=
  let samplesize := 2 * numsplitters treebits
  (cl.instantiate treebits).build (sampleKeys set rng strings n depth samplesize) samplesize

/-- What a step leaves for its recursive calls: `bkt`, the strings in the shadow array, and
`splitter_lcp`. -/
structure StepArrays (S : Type) where
  bkt : ℕ → ℕ
  sorted : ℕ → S
  lcp : ℕ → BitVec 8

/-- `*(sbegin + --bkt[*bktcache]) = std::move(*str);`, for string `j`. -/
def seqDistributeRound (bktcache : ℕ → ℕ) (strings : ℕ → S) (s : (ℕ → ℕ) × (ℕ → S)) (j : ℕ) :
    (ℕ → ℕ) × (ℕ → S) :=
  let place := s.1 (bktcache j) - 1
  (Function.update s.1 (bktcache j) place, Function.update s.2 place (strings j))

/-- `SeqSampleSortStep(ctx, strptr, depth, bktcache)`.  No result means that an assertion fails. -/
def seqSampleSortStep (set : StringSet S) (cl : ClassifierClass) (treebits : ℕ) (rng : ℕ → ℕ)
    (strings shadow : ℕ → S) (n depth : ℕ) : Option (StepArrays S) :=
  let samplesize := 2 * numsplitters treebits
  let bktnum := 2 * numsplitters treebits + 1
  let a := (cl.instantiate treebits).build (sampleKeys set rng strings n depth samplesize) samplesize
  ((cl.instantiate treebits).classify a
      ((contents strings n).map fun s => getUint64 set s depth)).bind fun bktcache =>
    let bkt := prefixSum fun b => bktcache.count b
    -- assert(bkt[bktnum - 1] == n);
    if bkt (bktnum - 1) = n then
      let r := (List.range n).foldl (seqDistributeRound (fun i => bktcache.getD i 0) strings)
        (Function.update bkt bktnum n, shadow)
      some ⟨r.1, r.2, a.lcp⟩
    else none

/-- `SampleSortStep` from `sample` to the beginning of `distribute_finished`: each part classifies
its strings, and the jobs of all parts distribute them in some order. -/
def SampledInParts (set : StringSet S) (cl : ClassifierClass) (treebits threshold : ℕ)
    (rng : ℕ → ℕ) (strings shadow : ℕ → S) (n depth : ℕ) (r : StepArrays S) : Prop :=
  let samplesize := 2 * numsplitters treebits
  let a := (cl.instantiate treebits).build (sampleKeys set rng strings n depth samplesize) samplesize
  ∃ (st : SampleSortStep S) (s : DistributeState S),
    st.size = n ∧ st.sequentialThreshold = threshold ∧ st.bktnum = 2 * numsplitters treebits + 1 ∧
    st.active = strings ∧
    (∀ p < st.parts, (cl.instantiate treebits).classify a
      ((slice strings (st.strB p) (st.strE p - st.strB p)).map fun s => getUint64 set s depth) =
        some (slice st.bucketId (st.strB p) (st.strE p - st.strB p))) ∧
    (st.distributeJobs shadow).Reachable s ∧ st.Finished s ∧
    r = ⟨st.boundaries s, s.shadow, a.lcp⟩

/-- The size of a bucket. -/
def StepArrays.bktsize (a : StepArrays S) (i : ℕ) : ℕ := a.bkt (i + 1) - a.bkt i

/-- The strings of a bucket: `strptr.flip(bkt[i], bktsize)`. -/
def StepArrays.bucket (a : StepArrays S) (i : ℕ) : ℕ → S := fun k => a.sorted (a.bkt i + k)

end Model

/-! ## Distributed strings are arranged -/

section Arrange

variable {S : Type} {set : StringSet S} {depth : ℕ} {ss : List KeyType} {bkt : KeyType → ℕ}

/-- The boundaries are the starts of the buckets. -/
theorem SampleSortStep.Distributed.bucketStart_eq {st : SampleSortStep S} {s : DistributeState S}
    (h : st.Distributed s) {b : ℕ} (hb : b ≤ st.bktnum) :
    bucketStart (fun i => st.boundaries s (i + 1) - st.boundaries s i) b = st.boundaries s b := by
  induction b with
  | zero => exact h.first.symm
  | succ b ih =>
    have hmono := h.mono b hb
    rw [bucketStart_succ, ih (by omega)]
    omega

/-- A range that has been distributed is arranged by buckets. -/
theorem SampleSortStep.Distributed.arranged {st : SampleSortStep S} {s : DistributeState S}
    (h : st.Distributed s)
    (hbkt : Bucketed (InRange set.chars st.active st.size) depth ss bkt)
    (hK : st.bktnum = 2 * ss.length + 1)
    (hid : ∀ i < st.size, st.bucketId i = bkt (keyAt (set.chars (st.active i)) depth)) :
    Arranged set.chars st.active st.size depth ss bkt
      (fun i => st.boundaries s (i + 1) - st.boundaries s i) s.shadow := by
  refine ⟨hbkt, h.strings, ?_, fun b hb p hp => ?_⟩
  · rw [← hK, h.bucketStart_eq (le_refl _), h.last]
  · -- the string comes from a place with this bucket id
    rw [← hK] at hb
    rw [h.bucketStart_eq hb.le] at hp
    obtain ⟨i, hi, heq⟩ := List.mem_map.mp ((h.bucket b hb).mem_iff.mp
      (mem_slice.mpr ⟨p, hp, rfl⟩))
    rw [List.mem_filter, List.mem_range, decide_eq_true_iff] at hi
    rw [← heq, ← hid i hi.1]
    exact hi.2

end Arrange

/-! ## The sequential loop -/

section SeqDistribute

variable {S : Type} {n K : ℕ} {bktcache : ℕ → ℕ}

/-- The strings as a single part. -/
def onePart (hn : 1 ≤ n) (hlt : ∀ i < n, bktcache i < K) (strings : ℕ → S) : SampleSortStep S where
  size := n
  sequentialThreshold := n + 1
  bktnum := K
  active := strings
  bucketId := bktcache
  size_pos := hn
  threshold_pos := Nat.le_add_left 1 n
  bucketId_lt := hlt

variable (hn : 1 ≤ n) (hlt : ∀ i < n, bktcache i < K) (strings shadow : ℕ → S)

theorem onePart_parts : (onePart hn hlt strings).parts = 1 := by
  have hzero : n / (n + 1) * 2 = 0 := by rw [Nat.div_eq_of_lt (Nat.lt_succ_self n), Nat.zero_mul]
  change (if (if n / (n + 1) * 2 = 0 then 1 else n / (n + 1) * 2) > maxProcs then maxProcs
    else if n / (n + 1) * 2 = 0 then 1 else n / (n + 1) * 2) = 1
  rw [hzero]
  rfl

theorem onePart_bounds : (onePart hn hlt strings).strB 0 = 0 ∧
    (onePart hn hlt strings).partSize 0 = n := by
  have hpsize : (onePart hn hlt strings).psize = n := by
    rw [SampleSortStep.psize, onePart_parts, Nat.div_one]
    rfl
  refine ⟨Nat.zero_mul _, ?_⟩
  rw [SampleSortStep.partSize_eq, hpsize, Nat.zero_mul, Nat.zero_add, one_mul, Nat.sub_zero]
  exact Nat.min_self n

/-- The counters of the single part are inclusive prefix sums. -/
theorem onePart_countFinished {b : ℕ} (hb : b < K) :
    (onePart hn hlt strings).countFinished.2 0 b =
      prefixSum (fun b => (contents bktcache n).count b) b := by
  have hparts := onePart_parts hn hlt strings
  have hcount : (onePart hn hlt strings).bucketCount 0 = fun b => (contents bktcache n).count b := by
    funext b
    rw [SampleSortStep.bucketCount, partCount, (onePart_bounds hn hlt strings).1,
      (onePart_bounds hn hlt strings).2, slice_zero]
    rfl
  have hsize : bucketSize (onePart hn hlt strings).bucketCount 1 =
      (onePart hn hlt strings).bucketCount 0 := funext fun b => by simp [bucketSize, bucketStart]
  rw [(onePart hn hlt strings).countFinished_eq.2 0 (by rw [hparts]; exact one_pos) b hb,
    regionStart_zero, hparts, hsize, hcount, prefixSum_eq]

/-- The sequential loop is the run of a single part. -/
theorem seqDistribute_reachable {bkt : ℕ → ℕ}
    (hbkt : ∀ b < K, bkt b = prefixSum (fun b => (contents bktcache n).count b) b) {j : ℕ}
    (hj : j ≤ n) :
    let r := (List.range j).foldl (seqDistributeRound bktcache strings) (bkt, shadow)
    ∃ s, ((onePart hn hlt strings).distributeJobs shadow).Reachable s ∧ s.moved 0 = j ∧
      (∀ b < K, s.bkt 0 b = r.1 b) ∧ r.1 K = bkt K ∧ s.shadow = r.2 := by
  have hparts := onePart_parts hn hlt strings
  obtain ⟨hstart, hsize⟩ := onePart_bounds hn hlt strings
  induction j with
  | zero =>
    refine ⟨_, Transition.Reachable.start rfl, rfl, fun b hb => ?_, rfl, rfl⟩
    exact (onePart_countFinished hn hlt strings hb).trans (hbkt b hb).symm
  | succ j ih =>
    obtain ⟨s, hreach, hmoved, hbkt', hlast, hshadow⟩ := ih (by omega)
    have hround : 0 < (onePart hn hlt strings).parts ∧
        s.moved 0 < (onePart hn hlt strings).strE 0 - (onePart hn hlt strings).strB 0 := by
      rw [hparts, hmoved]
      exact ⟨one_pos, hj.trans_eq hsize.symm⟩
    have hid : (onePart hn hlt strings).bktcache 0 j = bktcache j := by
      rw [SampleSortStep.bktcache, hstart, Nat.zero_add]
      rfl
    have hb := hlt j (by omega)
    refine ⟨_, hreach.step (l := 0) (if_pos hround), ?_, fun b hb' => ?_, ?_, ?_⟩
    · simp only [Function.update_self, hmoved]
    · simp only [Function.update_self, hmoved, hid, List.range_succ, List.foldl_append, List.foldl_cons,
        List.foldl_nil, seqDistributeRound, hbkt' _ hb]
      by_cases hbb : b = bktcache j
      · rw [hbb, Function.update_self, Function.update_self]
      · rw [Function.update_of_ne hbb, Function.update_of_ne hbb]
        exact hbkt' b hb'
    · simp only [List.range_succ, List.foldl_append, List.foldl_cons, List.foldl_nil,
        seqDistributeRound]
      rw [Function.update_of_ne hb.ne']
      exact hlast
    · simp only [hmoved, hid, List.range_succ, List.foldl_append, List.foldl_cons, List.foldl_nil,
        seqDistributeRound, hbkt' _ hb, hshadow, hstart, Nat.zero_add]
      rfl

/-- So the strings have been distributed. -/
theorem seqDistribute_distributed {bkt : ℕ → ℕ}
    (hbkt : ∀ b < K, bkt b = prefixSum (fun b => (contents bktcache n).count b) b)
    (hlast : bkt K = n) :
    let r := (List.range n).foldl (seqDistributeRound bktcache strings) (bkt, shadow)
    ∃ s, (onePart hn hlt strings).Distributed s ∧
      (∀ b ≤ K, (onePart hn hlt strings).boundaries s b = r.1 b) ∧ s.shadow = r.2 := by
  intro r
  obtain ⟨s, hreach, hmoved, hbkt', hlast', hshadow⟩ :=
    seqDistribute_reachable hn hlt strings shadow hbkt (le_refl n)
  have hfinished : (onePart hn hlt strings).Finished s := by
    intro p hp
    rw [onePart_parts] at hp
    obtain rfl : p = 0 := by omega
    exact hmoved.trans (onePart_bounds hn hlt strings).2.symm
  refine ⟨s, (SampleSortStep.reachable_invariant hreach).distributed hfinished, fun b hb => ?_,
    hshadow⟩
  rcases Nat.eq_or_lt_of_le hb with rfl | hlt'
  · exact (Function.update_self ..).trans (hlast.symm.trans hlast'.symm)
  · exact (Function.update_of_ne hlt'.ne ..).trans (hbkt' b hlt')

end SeqDistribute

/-! ## What the steps leave -/

section Steps

variable {S : Type} {set : StringSet S} {cl : ClassifierClass} {treebits : ℕ}

/-- The strings have been arranged by the buckets of the splitters, `bkt` holds the starts of the
buckets, and `splitter_lcp` their depths and which of them are done. -/
structure StepArrays.Ok (set : StringSet S) (strings : ℕ → S) (n depth : ℕ) (ss : List KeyType)
    (bkt : KeyType → ℕ) (a : StepArrays S) : Prop where
  arranged : Arranged set.chars strings n depth ss bkt a.bktsize a.sorted
  start : ∀ b ≤ 2 * ss.length + 1, a.bkt b = bucketStart a.bktsize b
  less_eq : ∀ i ≤ ss.length, (a.lcp i &&& 0x7F).toNat = lessLcp ss i
  done_iff : ∀ i < ss.length, a.lcp i &&& 0x80 ≠ 0 ↔ lowByte (ss.getD i 0) = 0

/-- Only the strings of the range matter. -/
theorem StepArrays.Ok.congr {strings strings' : ℕ → S} {n depth : ℕ} {ss : List KeyType}
    {bkt : KeyType → ℕ} {a : StepArrays S} (h : a.Ok set strings n depth ss bkt)
    (hs : ∀ i < n, strings i = strings' i) : a.Ok set strings' n depth ss bkt := by
  have hrange : InRange set.chars strings n = InRange set.chars strings' n := by
    funext x
    exact propext (exists_congr fun i => and_congr_right fun hi => by rw [hs i hi])
  have harranged := h.arranged
  refine ⟨⟨?_, ?_, harranged.total, harranged.bucket⟩, h.start, h.less_eq, h.done_iff⟩
  · rw [← hrange]
    exact harranged.bucketed
  · rw [← contents_congr hs]
    exact harranged.perm

/-- The splitters of a step are keys of strings of its range. -/
theorem bucketed_of_sampleKeys (hset : set.Sortable) {rng : ℕ → ℕ} {strings : ℕ → S} {n depth : ℕ}
    (hn : 1 ≤ n) (hshare : SharesDepth set.chars strings n depth) {ss : List KeyType}
    {bkt : KeyType → ℕ} (hsorted : ss.Pairwise (· ≤ ·)) {samplesize : ℕ}
    (hkeys : ∀ k ∈ ss, ∃ i < samplesize, k = sampleKeys set rng strings n depth samplesize i)
    (hbkt : ∀ key, IsBucket ss key (bkt key)) :
    Bucketed (InRange set.chars strings n) depth ss bkt where
  noNul := by
    rintro x ⟨p, -, rfl⟩
    exact hset.noNul _
  share := by
    rintro x y ⟨p, hp, rfl⟩ ⟨q, hq, rfl⟩
    exact hshare p hp q hq
  sorted := hsorted
  splitter := by
    intro k hk
    obtain ⟨i, hi, rfl⟩ := hkeys k hk
    have hmem : sampleKeys set rng strings n depth samplesize i ∈ (List.range samplesize).map
      fun i => getUint64 set (strings (rng i % n)) depth := stdSort_mem (by simpa using hi)
    obtain ⟨j, -, hj⟩ := List.mem_map.mp hmem
    have hlt := Nat.mod_lt (rng j) hn
    refine ⟨_, ⟨_, hlt, rfl⟩, ?_⟩
    rw [← hset.key_eq _ _ (set.length_chars _ ▸ hshare.le_length hlt)]
    exact hj
  isBucket := hbkt

/-- The arrays of a range that has been distributed. -/
theorem SampleSortStep.Distributed.ok {st : SampleSortStep S} {s : DistributeState S}
    (h : st.Distributed s) {depth : ℕ} {ss : List KeyType} {bkt : KeyType → ℕ} {a : StepArrays S}
    (hbkt : Bucketed (InRange set.chars st.active st.size) depth ss bkt)
    (hK : st.bktnum = 2 * ss.length + 1)
    (hid : ∀ i < st.size, st.bucketId i = bkt (keyAt (set.chars (st.active i)) depth))
    (hbounds : ∀ b ≤ st.bktnum, st.boundaries s b = a.bkt b) (hsorted : s.shadow = a.sorted)
    (hless : ∀ i ≤ ss.length, (a.lcp i &&& 0x7F).toNat = lessLcp ss i)
    (hdone : ∀ i < ss.length, a.lcp i &&& 0x80 ≠ 0 ↔ lowByte (ss.getD i 0) = 0) :
    a.Ok set st.active st.size depth ss bkt := by
  have hsize : ∀ b < st.bktnum, st.boundaries s (b + 1) - st.boundaries s b = a.bktsize b :=
    fun b hb => by rw [hbounds b hb.le, hbounds (b + 1) hb, StepArrays.bktsize]
  have harranged := (h.arranged hbkt hK hid).congr fun b hb => hsize b (hK ▸ hb)
  rw [hsorted] at harranged
  refine ⟨harranged, fun b hb => ?_, hless, hdone⟩
  rw [← hK] at hb
  rw [← hbounds b hb, ← h.bucketStart_eq hb]
  exact bucketStart_congr fun c hc => hsize c (by omega)

/-- The classifier of a step. -/
theorem step_classifier (hset : set.Sortable) (hbs : cl ≠ .binarySearch)
    (hcl : cl.Instantiable treebits) (ht : treebits ≤ 15) (hr : 1 ≤ cl.rollout) (rng : ℕ → ℕ)
    {strings : ℕ → S} {n depth : ℕ} (hn : 1 ≤ n) (hshare : SharesDepth set.chars strings n depth) :
    let samplesize := 2 * numsplitters treebits
    let a := (cl.instantiate treebits).build (sampleKeys set rng strings n depth samplesize)
      samplesize
    ∃ ss bkt, ss.length = numsplitters treebits ∧
      Bucketed (InRange set.chars strings n) depth ss bkt ∧
      (∀ keys, (cl.instantiate treebits).classify a keys = some (keys.map bkt)) ∧
      (∀ i ≤ ss.length, (a.lcp i &&& 0x7F).toNat = lessLcp ss i) ∧
      (∀ i < ss.length, a.lcp i &&& 0x80 ≠ 0 ↔ lowByte (ss.getD i 0) = 0) ∧
      (¬ cl.IsEqualFamily → ∀ i < ss.length, (cl.instantiate treebits).getSplitter a i = ss[i]?) := by
  intro samplesize a
  have hpos : 0 < samplesize := by
    have := numsplitters_pos (instantiable_le hcl).1
    omega
  have hsorted : SortedSamples (sampleKeys set rng strings n depth samplesize) samplesize := by
    have := stdSort_sorted ((List.range samplesize).map fun i =>
      getUint64 set (strings (rng i % n)) depth)
    rwa [List.length_map, List.length_range] at this
  obtain ⟨bkt, hclassify, hbkt, hless, hdone⟩ := classifier_spec hbs hcl ht hr hpos hsorted
  refine ⟨cl.splitters treebits a, bkt, length_splitters cl treebits a,
    bucketed_of_sampleKeys hset hn hshare (splitters_pairwise hcl hpos hsorted)
    (fun k hk => splitters_mem_samples hcl hpos hk) hbkt, hclassify, hless, hdone,
    fun hne i hi => ?_⟩
  rw [length_splitters] at hi
  rw [readsSplitters hcl hne hbs _ _ i hi, splitters_eq hbs, build_tree hbs]

/-- The key that `classify` reads from a string of the range. -/
theorem key_of_share (hset : set.Sortable) {strings : ℕ → S} {n depth i : ℕ}
    (hshare : SharesDepth set.chars strings n depth) (hi : i < n) :
    getUint64 set (strings i) depth = keyAt (set.chars (strings i)) depth :=
  hset.key_eq _ _ (set.length_chars _ ▸ hshare.le_length hi)

/-- `SeqSampleSortStep` leaves right arrays. -/
theorem seqSampleSortStep_ok (hset : set.Sortable) (hbs : cl ≠ .binarySearch)
    (hcl : cl.Instantiable treebits) (ht : treebits ≤ 15) (hr : 1 ≤ cl.rollout) (rng : ℕ → ℕ)
    {strings : ℕ → S} (shadow : ℕ → S) {n depth : ℕ} (hn : 1 ≤ n)
    (hshare : SharesDepth set.chars strings n depth) :
    ∃ a ss bkt, seqSampleSortStep set cl treebits rng strings shadow n depth = some a ∧
      ss.length = numsplitters treebits ∧ a.Ok set strings n depth ss bkt ∧
      a.lcp = (stepClassifier set cl treebits rng strings n depth).lcp ∧
      (¬ cl.IsEqualFamily → ∀ i < ss.length, (cl.instantiate treebits).getSplitter
        (stepClassifier set cl treebits rng strings n depth) i = ss[i]?) := by
  obtain ⟨ss, bkt, hlen, hbucketed, hclassify, hless, hdone, hget'⟩ :=
    step_classifier hset hbs hcl ht hr rng hn hshare
  let bktcache := ((contents strings n).map fun s => getUint64 set s depth).map bkt
  have hget : ∀ i < n, bktcache.getD i 0 = bkt (keyAt (set.chars (strings i)) depth) := by
    intro i hi
    rw [← key_of_share hset hshare hi]
    simp [bktcache, contents, hi]
  have hlt : ∀ i < n, (fun i => bktcache.getD i 0) i < 2 * numsplitters treebits + 1 :=
    fun i hi => by
      rw [← hlen]
      exact (hget i hi).trans_lt (hbucketed.bucket_lt _)
  have hcontents : contents (fun i => bktcache.getD i 0) n = bktcache := by
    refine List.ext_getElem (by simp [bktcache]) fun i h₁ h₂ => ?_
    simp [contents, h₂]
  -- the counters are the inclusive prefix sums
  have hprefix : ∀ b < 2 * numsplitters treebits + 1,
      Function.update (prefixSum fun b => bktcache.count b) (2 * numsplitters treebits + 1) n b =
        prefixSum (fun b => (contents (fun i => bktcache.getD i 0) n).count b) b := by
    intro b hb
    rw [Function.update_of_ne hb.ne, hcontents]
  obtain ⟨s, hdist, hbounds, hshadow⟩ := seqDistribute_distributed hn hlt strings shadow hprefix
    (Function.update_self ..)
  have htotal : prefixSum (fun b => bktcache.count b) (2 * numsplitters treebits) = n := by
    have htallies := tallies_count id (fun i => bktcache.getD i 0) hlt
    have := htallies.total
    rw [List.map_id, hcontents, bucketStart_succ, ← prefixSum_eq] at this
    exact this
  refine ⟨⟨_, _, _⟩, ss, bkt, ?_, hlen, hdist.ok hbucketed ?_ hget hbounds hshadow hless hdone,
    rfl, hget'⟩
  · rw [seqSampleSortStep]
    simp only [hclassify, Option.bind_some, Nat.add_sub_cancel]
    rw [if_pos htotal]
  · rw [hlen]
    rfl

/-- The jobs of a `SampleSortStep` can all be finished. -/
theorem exists_sampledInParts (hset : set.Sortable) (hbs : cl ≠ .binarySearch)
    (hcl : cl.Instantiable treebits) (ht : treebits ≤ 15) (hr : 1 ≤ cl.rollout) {threshold : ℕ}
    (hthreshold : 1 ≤ threshold) (rng : ℕ → ℕ) {strings : ℕ → S} (shadow : ℕ → S) {n depth : ℕ}
    (hn : 1 ≤ n) (hshare : SharesDepth set.chars strings n depth) :
    ∃ a, SampledInParts set cl treebits threshold rng strings shadow n depth a := by
  obtain ⟨ss, bkt, hlen, hbucketed, hclassify, -⟩ :=
    step_classifier hset hbs hcl ht hr rng hn hshare
  let st : SampleSortStep S :=
    { size := n
      sequentialThreshold := threshold
      bktnum := 2 * numsplitters treebits + 1
      active := strings
      bucketId := fun i => bkt (getUint64 set (strings i) depth)
      size_pos := hn
      threshold_pos := hthreshold
      bucketId_lt := fun i _ => hlen ▸ hbucketed.bucket_lt _ }
  obtain ⟨s, hreach, hfinished⟩ := SampleSortStep.exists_finished st shadow
  refine ⟨_, st, s, rfl, rfl, rfl, rfl, fun p _ => ?_, hreach, hfinished, rfl⟩
  rw [hclassify, List.map_map, map_slice]
  rfl

/-- `SampleSortStep` leaves right arrays, in whatever order its jobs have run. -/
theorem SampledInParts.ok (hset : set.Sortable) (hbs : cl ≠ .binarySearch)
    (hcl : cl.Instantiable treebits) (ht : treebits ≤ 15) (hr : 1 ≤ cl.rollout) {threshold : ℕ}
    {rng : ℕ → ℕ} {strings shadow : ℕ → S} {n depth : ℕ} {a : StepArrays S}
    (h : SampledInParts set cl treebits threshold rng strings shadow n depth a) (hn : 1 ≤ n)
    (hshare : SharesDepth set.chars strings n depth) :
    ∃ ss bkt, ss.length = numsplitters treebits ∧ a.Ok set strings n depth ss bkt := by
  obtain ⟨ss, bkt, hlen, hbucketed, hclassify, hless, hdone, -⟩ :=
    step_classifier hset hbs hcl ht hr rng hn hshare
  obtain ⟨st, s, rfl, -, hK, rfl, hparts, hreach, hfinished, rfl⟩ := h
  have hdist := (SampleSortStep.reachable_invariant hreach).distributed hfinished
  have hid : ∀ i < st.size, st.bucketId i = bkt (keyAt (set.chars (st.active i)) depth) := by
    intro i hi
    -- the string belongs to some part
    rw [← List.mem_range, ← st.partsCover] at hi
    obtain ⟨⟨p, j⟩, hm, rfl⟩ := List.mem_map.mp hi
    obtain ⟨hp, hj⟩ := mem_moves.mp hm
    have hpart := hparts p hp
    rw [hclassify, Option.some_inj] at hpart
    have hget := congrArg (fun l => l[j]?) hpart
    rw [List.getElem?_map, List.getElem?_map] at hget
    have hslice := getElem?_slice st.active (st.strB p) hj
    have hslice' := getElem?_slice st.bucketId (st.strB p) hj
    rw [SampleSortStep.partSize] at hslice hslice'
    simp only [hslice, hslice', Option.map_some, Option.some_inj] at hget
    refine hget.symm.trans ?_
    exact congrArg bkt (key_of_share hset hshare (st.place_lt hp hj))
  exact ⟨ss, bkt, hlen, hdist.ok hbucketed (by rw [hK, hlen]) hid (fun _ _ => rfl) rfl hless hdone⟩

end Steps

end StringSampleSort
