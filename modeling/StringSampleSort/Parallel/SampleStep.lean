import StringSampleSort.Parallel.BoundaryLcp
import StringSampleSort.Parallel.JobPlan
import StringSampleSort.Parallel.SampleLevel

/-!
# A step of sample sort on a piece

Model of `SeqSampleSortStep` of `src/parallel/bingmann-parallel_sample_sort.hpp` on the memory: its
constructor, `calculate_lcp`, and what is done for a bucket whose key contains the terminator.

The strings of a piece move to the other array, where each bucket is a piece again.  Which keys
belong to a bucket is known of the sorted strings as well, so that the common prefixes at the
boundaries can be calculated once the buckets are finished.

## Main results

- `SortTask.PieceOk.bucketsOk`: what is known about the buckets of a piece
- `newSampleStep_spec`: the constructor
- `BucketsOk.sampleSortLcp`: `sample_sort_lcp` writes the entries at the boundaries
-/

namespace StringSampleSort

open Library Slice SortTask

/-! ## Model -/

/-- `DefaultTreebits`. -/
def defaultTreebits : ℕ := 10

/-- `bktnum`. -/
def sampleBktnum : ℕ := 2 * numsplitters defaultTreebits + 1

/-- An equal bucket whose key contains the terminator. -/
def SplitterArrays.done (a : SplitterArrays) (i : ℕ) : Bool :=
  decide (i % 2 = 1 ∧ a.lcp (i / 2) &&& 0x80 ≠ 0)

/-- The depth from which bucket `i` is sorted. -/
def SplitterArrays.bucketDepth (a : SplitterArrays) (depth i : ℕ) : ℕ :=
  if i % 2 = 0 then depth + (a.lcp (i / 2) &&& 0x7F).toNat else depth + 8

/-- The strings of a step in their buckets: what `SeqSampleSortStep` and `SampleSortStep` have in
common. -/
structure SampleBuckets where
  strptr : StringPtr
  depth : ℕ
  classifier : SplitterArrays
  bkt : ℕ → ℕ

/-- `SeqSampleSortStep`.  The steps of a job are numbered by `level`, which the code does not
store. -/
structure SeqSampleSortStep extends SampleBuckets where
  level : ℕ
  idx : ℕ

namespace SampleBuckets

/-- `bkt[i + 1] - bkt[i]`. -/
def bktsize (s : SampleBuckets) (i : ℕ) : ℕ := s.bkt (i + 1) - s.bkt i

/-- `strptr.flip(bkt[i], bktsize)`. -/
def bucketPtr (s : SampleBuckets) (i : ℕ) : StringPtr := s.strptr.flipSub (s.bkt i) (s.bktsize i)

end SampleBuckets

section Model

variable {S : Type} (cls : StringPtrClass) (ss : StringSet S) (cl : ClassifierClass)

/-- `classifier.get_splitter(i)`. -/
def splitterOf (a : SplitterArrays) (i : ℕ) : Option KeyType :=
  (cl.instantiate defaultTreebits).getSplitter a i

/-- `SeqSampleSortStep(ctx, strptr, depth, bktcache)`.  No result means that an assertion fails. -/
def newSampleStep (rng : ℕ → ℕ) (level : ℕ) (strptr : StringPtr) (depth : ℕ) (m : Memory S) :
    Option (SeqSampleSortStep × Memory S) :=
  let strings := strptr.active.get m
  (seqSampleSortStep ss cl defaultTreebits rng strings (strptr.shadow.get m) strptr.size depth).map
    fun r =>
      ({ strptr, depth
         classifier := stepClassifier ss cl defaultTreebits rng strings strptr.size depth
         bkt := r.bkt, level, idx := 0 }, m.write strptr.shadow r.sorted)

namespace SampleBuckets

variable (s : SampleBuckets)

/-- An equal bucket with NULL-terminated key is done.  A `SampleSortStep` calls `fill_lcp` without
asking for `Context::CalcLcp`. -/
def fillDone (calcLcp : Bool) (i : ℕ) (m : Memory S) : Option (Memory S) :=
  let r := cls.copyBack (s.bucketPtr i) m
  if calcLcp then
    (splitterOf cl s.classifier (i / 2)).map fun key =>
      cls.fillLcp r.1 (s.depth + lcpKeyDepth key) r.2
  else some r.2

/-- The buckets of a step, and what is called for them.  A `single` string is only copied back in
some steps. -/
def shape (single : Bool) : Shape RangeCall where
  parts := sampleBktnum
  size := s.bktsize
  call i :=
    if s.classifier.done i || (single && s.bktsize i == 1) then none
    else some (s.bucketPtr i, s.classifier.bucketDepth s.depth i)

/-- `sample_sort_lcp` of a step. -/
def calculateLcp (m : Memory S) : Option (Memory S) :=
  if cls.withLcp then
    sampleSortLcp ss cls s.strptr.original (splitterOf cl s.classifier) s.depth sampleBktnum s.bkt m
  else some m

end SampleBuckets

end Model

/-! ## Buckets -/

/-- The window of a bucket. -/
def bucketWindow (w : Window) (bkt : ℕ → ℕ) (i : ℕ) : Window := ⟨w.lo + bkt i, bkt (i + 1) - bkt i⟩

/-- What is known about the buckets of a window: which keys the sorted strings of a bucket have, and
how many characters they share. -/
structure BucketsOk {S : Type} (T : SortTask S) (cl : ClassifierClass) (w : Window) (depth : ℕ)
    (a : SplitterArrays) (bkt : ℕ → ℕ) : Prop where
  bound : w.lo + w.size ≤ T.total
  boundaries : BucketBoundaries sampleBktnum w.size bkt
  depthOk : T.DepthOk w depth
  inBuckets : ∃ bucketOf, InBuckets bucketOf (splitterOf cl a) sampleBktnum bkt
    fun i => T.targetKey depth (w.lo + i)
  bucketDepth : ∀ i < sampleBktnum, a.done i = false →
    T.DepthOk (bucketWindow w bkt i) (a.bucketDepth depth i)
  const : ∀ i < sampleBktnum, a.done i = true → bkt i < bkt (i + 1) →
    ∃ key, splitterOf cl a (i / 2) = some key ∧
      (∀ p, (bucketWindow w bkt i).Mem p → T.target p = T.target (bucketWindow w bkt i).lo) ∧
      (T.target (bucketWindow w bkt i).lo).length = depth + lcpKeyDepth key
  odd : ∃ i < sampleBktnum, i % 2 = 1 ∧ bkt i < bkt (i + 1)

section Buckets

variable {S : Type} {T : SortTask S} {cl : ClassifierClass} {g : Ghost S} {P : Piece} {w : Window}
  {depth : ℕ} {a : SplitterArrays} {bkt : ℕ → ℕ}

theorem bucketWindow_eq (w : Window) (bkt : ℕ → ℕ) (i : ℕ) :
    bucketWindow w bkt i = tile (fun i => w.lo + bkt i) i := by
  rw [bucketWindow, tile, Nat.add_sub_add_left]

/-- Every place belongs to a bucket. -/
theorem BucketBoundaries.exists_bucket {K n i : ℕ} (h : BucketBoundaries K n bkt) (hi : i < n) :
    ∃ b < K, bkt b ≤ i ∧ i < bkt (b + 1) := by
  obtain ⟨b, hb, hlo, hhi⟩ := exists_tile h.le (h.first.trans_le (Nat.zero_le i))
    (hi.trans_eq h.last.symm)
  simp only [tile] at hlo hhi
  exact ⟨b, hb, hlo, by omega⟩

section Arrays

variable {r : StepArrays S} {ss : List KeyType} {bucketOf : KeyType → ℕ} {strings : ℕ → S} {n : ℕ}

theorem StepArrays.Ok.boundaries (h : r.Ok T.ss strings n depth ss bucketOf) :
    BucketBoundaries (2 * ss.length + 1) n r.bkt where
  odd := by omega
  first := by rw [h.start 0 (Nat.zero_le _)]; rfl
  last := by rw [h.start _ le_rfl, h.arranged.total]
  le b hb := by
    rw [h.start b hb.le, h.start (b + 1) hb, bucketStart_succ]
    exact Nat.le_add_right ..

/-- The strings of a bucket have keys of the bucket. -/
theorem StepArrays.Ok.bucketOf_eq (h : r.Ok T.ss strings n depth ss bucketOf) {b i : ℕ}
    (hb : b < 2 * ss.length + 1) (hlo : r.bkt b ≤ i) (hhi : i < r.bkt (b + 1)) :
    bucketOf (keyAt (T.ss.chars (r.sorted i)) depth) = b := by
  rw [h.start b hb.le] at hlo
  rw [h.start (b + 1) hb, bucketStart_succ] at hhi
  exact h.arranged.bucket b hb i ⟨hlo, hhi⟩

/-- Buckets are ordered as keys. -/
theorem StepArrays.Ok.bucketOf_mono (h : r.Ok T.ss strings n depth ss bucketOf) :
    Monotone bucketOf := fun _ _ hle =>
  not_lt.mp fun hlt => absurd (h.arranged.bucketed.key_lt_of_bucket_lt hlt) (not_lt.mpr hle)

end Arrays

/-- Strings that have been moved into their buckets are arranged by bucket, as the sorted strings
are. -/
private theorem bucket_classes {r : StepArrays S} {ss : List KeyType} {bucketOf : KeyType → ℕ}
    {strings : ℕ → S} (h : T.PieceOk g P)
    (hr : r.Ok T.ss strings P.window.size P.depth ss bucketOf)
    (hvalue : ∀ i < P.window.size, g.value (P.window.lo + i) = r.sorted i) :
    MonotoneIn (bucketOf ∘ T.valueKey g P.depth) P.window.lo P.window.size ∧
      ∀ b < 2 * ss.length + 1, ∀ p, P.window.Mem p →
        (bucketOf (T.targetKey P.depth p) = b ↔ (bucketWindow P.window r.bkt b).Mem p) := by
  have hplace : ∀ p, P.window.Mem p → ∃ i < P.window.size, p = P.window.lo + i := by
    rintro p ⟨hlo, hhi⟩
    exact ⟨p - P.window.lo, by omega, by omega⟩
  have hkey : ∀ b < 2 * ss.length + 1, ∀ i < P.window.size, r.bkt b ≤ i → i < r.bkt (b + 1) →
      bucketOf (T.valueKey g P.depth (P.window.lo + i)) = b := by
    intro b hb i hi hlo hhi
    rw [valueKey, hvalue i hi]
    exact hr.bucketOf_eq hb hlo hhi
  have hmono : MonotoneIn (bucketOf ∘ T.valueKey g P.depth) P.window.lo P.window.size := by
    intro p q hp hq hpq
    obtain ⟨i, hi, rfl⟩ := hplace p hp
    obtain ⟨j, hj, rfl⟩ := hplace q hq
    obtain ⟨b, hb, hbi, hbi'⟩ := hr.boundaries.exists_bucket hi
    obtain ⟨c, hc, hcj, hcj'⟩ := hr.boundaries.exists_bucket hj
    show bucketOf _ ≤ bucketOf _
    rw [hkey b hb i hi hbi hbi', hkey c hc j hj hcj hcj']
    by_contra hlt
    have hle := hr.boundaries.mono (show c + 1 ≤ b by omega) hb.le
    omega
  refine ⟨hmono, fun b hb p hp => ?_⟩
  rw [← h.class_eq hr.bucketOf_mono hmono hp]
  obtain ⟨i, hi, rfl⟩ := hplace p hp
  obtain ⟨c, hc, hci, hci'⟩ := hr.boundaries.exists_bucket hi
  have hin : (bucketWindow P.window r.bkt b).Mem (P.window.lo + i) ↔
      r.bkt b ≤ i ∧ i < r.bkt (b + 1) := by
    have hle := hr.boundaries.le b hb
    show P.window.lo + r.bkt b ≤ P.window.lo + i ∧
      P.window.lo + i < P.window.lo + r.bkt b + (r.bkt (b + 1) - r.bkt b) ↔ _
    omega
  rw [hin]
  constructor
  · intro heq
    rw [hkey c hc i hi hci hci'] at heq
    exact heq ▸ ⟨hci, hci'⟩
  · rintro ⟨hlo, hhi⟩
    exact hkey b hb i hi hlo hhi

/-- The buckets of a step on a piece: the strings are in the other array, each bucket is a piece,
and what is known of the keys of the strings holds of the sorted strings as well. -/
theorem SortTask.PieceOk.bucketsOk (h : T.PieceOk g P) {r : StepArrays S} {ss : List KeyType}
    {bucketOf : KeyType → ℕ} (hlen : ss.length = numsplitters defaultTreebits)
    (hr : r.Ok T.ss ((T.pointer P).active.get g.mem) P.window.size P.depth ss bucketOf)
    (hlcp : r.lcp = a.lcp) (hget : ∀ i < ss.length, splitterOf cl a i = ss[i]?) :
    ∃ g', g'.mem = g.mem.write (T.pointer P).shadow r.sorted ∧ Effect P.window g g' ∧
      BucketsOk T cl P.window P.depth a r.bkt ∧
      ∀ i < sampleBktnum, 0 < (bucketWindow P.window r.bkt i).size →
        T.PieceOk g' ⟨!P.flipped, bucketWindow P.window r.bkt i,
          if a.done i then P.depth else a.bucketDepth P.depth i⟩ := by
  have hK : 2 * ss.length + 1 = sampleBktnum := by rw [hlen]; rfl
  -- the strings as they are moved
  have hstrings : ∀ k < P.window.size, (T.pointer P).active.get g.mem k =
      g.value (P.window.lo + k) := fun k hk =>
    (h.value _ ⟨Nat.le_add_right .., Nat.add_lt_add_left hk _⟩).symm
  have hB : Rearranges g P r.sorted := by
    have hperm := hr.arranged.perm
    have hcontents : contents ((T.pointer P).active.get g.mem) P.window.size =
        slice g.value P.window.lo P.window.size := contents_congr hstrings
    rwa [hcontents] at hperm
  obtain ⟨he, hP⟩ := h.rearrange (!P.flipped) hB
  set g' := g.rearranged
    (g.mem.write ⟨T.cls.activeArray !P.flipped, P.window.lo, P.window.size⟩ r.sorted) P.window
    r.sorted
  obtain ⟨hmono, hclass⟩ := bucket_classes hP hr fun i hi => by
    rw [Ghost.rearranged_value _ _ _ ⟨Nat.le_add_right .., Nat.add_lt_add_left hi _⟩,
      Nat.add_sub_cancel_left]
  have hbounds := hr.boundaries
  rw [hK] at hbounds hclass
  have hinside : ∀ i < sampleBktnum, (bucketWindow P.window r.bkt i).Inside P.window := by
    intro i hi
    have hle := hbounds.le i hi
    have hsize := hbounds.le_size (b := i + 1) hi
    refine ⟨Nat.le_add_right .., ?_⟩
    show P.window.lo + r.bkt i + (r.bkt (i + 1) - r.bkt i) ≤ _
    omega
  have hkeys : ∀ i < sampleBktnum, ∀ p, (bucketWindow P.window r.bkt i).Mem p →
      bucketOf (keyAt (T.target p) P.depth) = i := fun i hi p hp =>
    (hclass i hi p ((hinside i hi).mem hp)).mpr hp
  -- the sorted strings are strings of the range
  have hrange : ∀ p, P.window.Mem p →
      InRange T.ss.chars ((T.pointer P).active.get g.mem) P.window.size (T.target p) := by
    intro p hp
    obtain ⟨q, ⟨hlo, hhi⟩, heq⟩ := h.exists_value hp
    refine ⟨q - P.window.lo, by omega, ?_⟩
    rw [hstrings _ (by omega), Nat.add_sub_cancel' hlo, heq]
  have hdepth : ∀ i < sampleBktnum, a.done i = false →
      T.DepthOk (bucketWindow P.window r.bkt i) (a.bucketDepth P.depth i) := by
    intro i hi hdone p q hp hq
    have hx := hrange p ((hinside i hi).mem hp)
    have hy := hrange q ((hinside i hi).mem hq)
    rcases Nat.even_or_odd' i with ⟨j, rfl | rfl⟩
    · rw [SplitterArrays.bucketDepth, if_pos (by omega), Nat.mul_div_cancel_left _ Nat.two_pos,
        ← hlcp, hr.less_eq j (by omega)]
      exact hr.arranged.bucketed.less_share hx hy (hkeys _ hi p hp) (hkeys _ hi q hq)
    · have hhalf : (2 * j + 1) / 2 = j := by omega
      rw [SplitterArrays.bucketDepth, if_neg (by omega)]
      refine hr.arranged.bucketed.equal_share hx hy (hkeys _ hi p hp) (hkeys _ hi q hq)
        fun hlow => ?_
      have hset := (hr.done_iff j (by omega)).mpr hlow
      rw [hlcp] at hset
      rw [SplitterArrays.done, hhalf, decide_eq_false_iff_not] at hdone
      exact hdone ⟨by omega, hset⟩
  refine ⟨g', rfl, he, ⟨h.bound, hbounds, h.depth, ⟨bucketOf, ⟨fun b hb i hlo hhi => ?_,
    fun j hj k hk => ?_⟩⟩, hdepth, fun i hi hdone hne => ?_, ?_⟩, fun i hi hpos => ?_⟩
  · have hle := hbounds.le b hb
    refine hkeys b hb _ ⟨Nat.add_le_add_left hlo _, ?_⟩
    show P.window.lo + i < P.window.lo + r.bkt b + (r.bkt (b + 1) - r.bkt b)
    omega
  · rw [hget j (by omega)]
    exact hr.arranged.bucketed.splitter_of_odd hk
  · obtain ⟨hodd, hset⟩ := of_decide_eq_true hdone
    have hj : 2 * (i / 2) + 1 = i := by omega
    have hlt : i / 2 < ss.length := by omega
    have hlow := (hr.done_iff _ hlt).mp (by rw [hlcp]; exact hset)
    have hall : ∀ p, (bucketWindow P.window r.bkt i).Mem p →
        T.targetKey P.depth p = ss.getD (i / 2) 0 := by
      intro p hp
      have hkey := hr.arranged.bucketed.splitter_of_odd ((hkeys i hi p hp).trans hj.symm)
      rw [List.getD_eq_getElem?_getD, hkey]
      rfl
    have hmem : (bucketWindow P.window r.bkt i).Mem (bucketWindow P.window r.bkt i).lo :=
      ⟨le_rfl, Nat.lt_add_of_pos_right (Nat.sub_pos_of_lt hne)⟩
    have hconst := (h.depth.sub (hinside i hi)).const hall hlow hmem
    refine ⟨ss.getD (i / 2) 0, ?_, hconst⟩
    rw [hget _ hlt, List.getD_eq_getElem?_getD, List.getElem?_eq_getElem hlt]
    rfl
  · have hss : ss ≠ [] := by
      rintro rfl
      simp [numsplitters, defaultTreebits] at hlen
    obtain ⟨x, ⟨q, hq, rfl⟩, hodd⟩ := hr.arranged.bucketed.exists_odd hss
    obtain ⟨k, hk, heq⟩ := exists_of_perm hr.arranged.perm.symm hq
    obtain ⟨b, hb, hlo, hhi⟩ := hbounds.exists_bucket hk
    have hbucket := hr.bucketOf_eq (by omega) hlo hhi
    rw [heq] at hbucket
    exact ⟨b, hb, hbucket ▸ hodd, by omega⟩
  · refine hP.sub_class hr.bucketOf_mono hmono (hinside i hi) hpos (hclass i hi) ?_
    split
    · exact h.depth.sub (hinside i hi)
    · next hdone => exact hdepth i hi (by simpa using hdone)

/-- The boundaries that have strings on both sides. -/
theorem BucketBoundaries.isBoundary_iff_interior {K n i : ℕ} (h : BucketBoundaries K n bkt) :
    IsBoundary K bkt i ↔ (0 < i ∧ i < n) ∧ ∃ b < K, i = bkt b := by
  constructor
  · intro hi
    have hbounds := h.isBoundary_bounds hi
    obtain ⟨b, hb, heq, -⟩ := hi
    exact ⟨hbounds, b, hb, heq.symm⟩
  · rintro ⟨⟨hpos, hlt⟩, b, hb, rfl⟩
    obtain ⟨c, hc, hlo, hhi⟩ := h.exists_bucket hlt
    obtain ⟨a, ha, halo, hahi⟩ := h.exists_bucket (show bkt b - 1 < n by omega)
    have hbc : b ≤ c := by
      by_contra hcb
      have hle := h.mono (show c + 1 ≤ b by omega) hb.le
      omega
    have hstart := h.mono hbc hc.le
    have hac : a < c := by
      by_contra hca
      have hle := h.mono (show c ≤ a by omega) ha.le
      omega
    exact ⟨c, hc, by omega, by omega, a, hac, by omega⟩

/-- `sample_sort_lcp` writes the entries at the boundaries when all strings are finished. -/
theorem BucketsOk.sampleSortLcp (h : BucketsOk T cl w depth a bkt) (hlcp : T.cls.withLcp = true)
    (hfin : ∀ p, w.Mem p → T.Finished g p) :
    ∃ m', sampleSortLcp T.ss T.cls (T.cls.pointer false w.lo w.size) (splitterOf cl a) depth
        sampleBktnum bkt g.mem = some m' ∧
      T.EntriesRight (fun p => w.Interior p ∧ ∃ i < sampleBktnum, p = w.lo + bkt i) g
        ⟨m', g.value⟩ := by
  obtain ⟨bucketOf, hbuckets⟩ := h.inBuckets
  -- the keys of the output strings are those of the target
  have hkey : ∀ i < w.size, outputKey T.ss T.cls (T.cls.pointer false w.lo w.size) depth g.mem i =
      T.targetKey depth (w.lo + i) := by
    intro i hi
    have hin : w.Mem (w.lo + i) := ⟨Nat.le_add_right .., Nat.add_lt_add_left hi _⟩
    obtain ⟨hout, hchars⟩ := hfin _ hin
    have hlen := h.depthOk.le_length hin
    rw [← hchars] at hlen
    rw [outputKey, StringPtrClass.output_pointer]
    show getUint64 T.ss (g.mem.strings T.cls.outputArray (w.lo + i)) depth = _
    rw [hout, T.sortable.key_eq _ _ (T.ss.length_chars _ ▸ hlen), hchars]
    rfl
  have hbuckets' : InBuckets bucketOf (splitterOf cl a) sampleBktnum bkt
      (outputKey T.ss T.cls (T.cls.pointer false w.lo w.size) depth g.mem) := by
    refine ⟨fun b hb i hlo hhi => ?_, hbuckets.splitter⟩
    rw [hkey i (hhi.trans_le (h.boundaries.le_size hb))]
    exact hbuckets.bucketOf_eq b hb i hlo hhi
  obtain ⟨m', heq, hw⟩ := sampleSortLcp_spec h.boundaries hbuckets' hlcp rfl rfl
  have hplace : ∀ p, (w.Interior p ∧ ∃ i < sampleBktnum, p = w.lo + bkt i) ↔
      ∃ i, IsBoundary sampleBktnum bkt i ∧ p = w.lo + i := by
    intro p
    constructor
    · rintro ⟨⟨hlo, hhi⟩, i, hi, rfl⟩
      have hbounds : 0 < bkt i ∧ bkt i < w.size := ⟨by omega, by omega⟩
      exact ⟨bkt i, h.boundaries.isBoundary_iff_interior.mpr ⟨hbounds, i, hi, rfl⟩, rfl⟩
    · rintro ⟨i, hi, rfl⟩
      obtain ⟨⟨hpos, hlt⟩, b, hb, rfl⟩ := h.boundaries.isBoundary_iff_interior.mp hi
      exact ⟨⟨by omega, by omega⟩, b, hb, rfl⟩
  have hother : ∀ p, ¬ (w.Interior p ∧ ∃ i < sampleBktnum, p = w.lo + bkt i) →
      ∀ i, IsBoundary sampleBktnum bkt i → p ≠ w.lo + i :=
    fun p hp i hi heq => hp ((hplace p).mpr ⟨i, hi, heq⟩)
  refine ⟨m', heq, hw.strings, rfl, fun p hp => hw.lcp_other p (hother p hp),
    fun p hp => hw.cache_other p fun _ => hother p hp, fun p hp => ?_⟩
  obtain ⟨i, hi, rfl⟩ := (hplace p).mp hp
  obtain ⟨hpos, hlt⟩ := h.boundaries.isBoundary_bounds hi
  have hprev : w.lo + i - 1 = w.lo + (i - 1) := by omega
  have hne := hbuckets'.key_ne h.boundaries hi
  rw [hkey i hlt, hkey (i - 1) (by omega), ← hprev] at hne
  obtain ⟨hlcpAt, hchar⟩ := h.depthOk.boundary_lcp hp.1 hne
  refine ⟨fun _ => ?_, fun hc => ?_⟩
  · rw [hlcpAt, hprev, ← hkey i hlt, ← hkey (i - 1) (by omega)]
    exact hw.lcp_at i hi
  · rw [hchar, hprev, ← hkey i hlt, ← hkey (i - 1) (by omega)]
    exact hw.cache_at hc i hi

end Buckets

/-! ## Steps -/

namespace SampleBuckets

section Defs

variable (s : SampleBuckets)

/-- The window of a step. -/
def window : Window := ⟨s.strptr.active.begin, s.strptr.size⟩

/-- A bucket as a piece. -/
def piece (i : ℕ) : Piece where
  flipped := !s.strptr.flipped
  window := bucketWindow s.window s.bkt i
  depth := if s.classifier.done i then s.depth else s.classifier.bucketDepth s.depth i

/-- The entries that `calculate_lcp` writes. -/
def Promises (p : ℕ) : Prop :=
  s.window.Interior p ∧ ∃ i < sampleBktnum, p = s.window.lo + s.bkt i

/-- A step as a level of its job. -/
def toLevel (single : Bool) (level idx : ℕ) : StepLevel where
  frame := ⟨level, s.shape single, idx⟩
  window := s.window
  piece := s.piece
  Promises := s.Promises
  size_eq _ := rfl

/-- What is known about a step: where its buckets are, and which keys belong to them. -/
structure Ok {S : Type} (T : SortTask S) (cl : ClassifierClass) : Prop where
  strptr : s.strptr = T.cls.pointer s.strptr.flipped s.window.lo s.window.size
  buckets : BucketsOk T cl s.window s.depth s.classifier s.bkt

end Defs

variable {S : Type} {T : SortTask S} {cl : ClassifierClass} {g : Ghost S} {s : SampleBuckets}
  {single : Bool} {level i : ℕ}

namespace Ok

/-- The pointer to the strings of a bucket. -/
theorem bucketPtr_eq (h : s.Ok T cl) (i : ℕ) : s.bucketPtr i = T.pointer (s.piece i) := by
  rw [bucketPtr, h.strptr, StringPtrClass.flipSub_pointer]
  rfl

/-- What is called for a bucket. -/
theorem call_eq (h : s.Ok T cl) (hdone : s.classifier.done i = false)
    (hsize : ¬ (single = true ∧ s.bktsize i = 1)) :
    (s.shape single).call i = some (T.pointer (s.piece i), (s.piece i).depth) := by
  have hcond : ¬ (s.classifier.done i || (single && s.bktsize i == 1)) = true := by
    simpa [hdone] using hsize
  have hdepth : (s.piece i).depth = s.classifier.bucketDepth s.depth i :=
    if_neg (by simp [hdone])
  rw [hdepth, ← h.bucketPtr_eq]
  exact if_neg hcond

theorem area_eq (i : ℕ) : (s.toLevel single level 0).area i = tile (fun i => s.window.lo + s.bkt i) i :=
  bucketWindow_eq s.window s.bkt i

theorem bounds_mono (h : s.Ok T cl) :
    ∀ i < sampleBktnum, s.window.lo + s.bkt i ≤ s.window.lo + s.bkt (i + 1) :=
  fun i hi => Nat.add_le_add_left (h.buckets.boundaries.le i hi) _

/-- The window of a new step is covered by its buckets. -/
theorem covers (h : s.Ok T cl) (g : Ghost S) :
    T.Covers g s.window (s.toLevel single level 0).remaining s.Promises := by
  have htiles : (s.toLevel single level 0).remaining =
      (List.range sampleBktnum).map (tile fun i => s.window.lo + s.bkt i) := by
    show ((List.range sampleBktnum).drop 0).map (s.toLevel single level 0).area = _
    rw [List.drop_zero]
    exact List.map_congr_left fun i _ => area_eq i
  rw [htiles]
  refine (SortTask.Covers.tiles T g h.bounds_mono ?_ ?_).imp fun p hp hi => ⟨hp, hi⟩
  · simp only [h.buckets.boundaries.first, Nat.add_zero]
  · simp only [h.buckets.boundaries.last]

/-- A new step and the steps of its buckets do less than has been set aside for its window. -/
theorem rank_le (single : Bool) (level : ℕ) (h : s.Ok T cl) :
    (s.toLevel single level 0).rank T + T.total + 2 ^ 12 ≤ T.windowRank s.window s.depth := by
  obtain ⟨j, hj, hodd, hlt⟩ := h.buckets.odd
  refine StepLevel.rank_le (b := fun i => s.window.lo + s.bkt i) rfl
    (show sampleBktnum ≤ 2047 from le_rfl) (fun i _ => area_eq i) h.bounds_mono ?_ h.buckets.depthOk
    (fun i _ _ => ?_) ⟨j, hj, Nat.sub_pos_of_lt hlt, ?_⟩
  · show s.window = ⟨s.window.lo + s.bkt 0, s.window.lo + s.bkt sampleBktnum - (s.window.lo + s.bkt 0)⟩
    rw [h.buckets.boundaries.first, h.buckets.boundaries.last, Nat.add_zero,
      Nat.add_sub_cancel_left]
  · show s.depth ≤ (s.piece i).depth
    dsimp only [piece, SplitterArrays.bucketDepth]
    split_ifs <;> omega
  · -- an equal bucket that is not done goes on behind its key
    by_cases hcall : s.classifier.done j || (single && s.bktsize j == 1)
    · exact Or.inl (if_pos hcall)
    · rw [Bool.not_eq_true, Bool.or_eq_false_iff] at hcall
      refine Or.inr ⟨?_, ?_⟩
      · show s.depth < (s.piece j).depth
        dsimp only [piece, SplitterArrays.bucketDepth]
        rw [if_neg (by simp [hcall.1]), if_neg (by omega)]
        omega
      · show T.DepthOk _ (s.piece j).depth
        dsimp only [piece]
        rw [if_neg (by simp [hcall.1])]
        exact h.buckets.bucketDepth j hj hcall.1

/-- `calculate_lcp` writes the entries that have been promised, when all strings are finished. -/
theorem calculateLcp_spec (single : Bool) (level idx : ℕ) (h : s.Ok T cl)
    (hfin : ∀ p, s.window.Mem p → T.Finished g p) :
    ∃ m', s.calculateLcp T.cls T.ss cl g.mem = some m' ∧
      (s.toLevel single level idx).Calculated T g ⟨m', g.value⟩ := by
  have hptr : s.strptr.original = T.cls.pointer false s.window.lo s.window.size := by
    rw [h.strptr]
    exact StringPtrClass.original_pointer ..
  rw [calculateLcp, hptr]
  split
  · next hlcp =>
    obtain ⟨m', heq, hentries⟩ := h.buckets.sampleSortLcp hlcp hfin
    exact ⟨m', heq, hentries, fun p hp => hp.1⟩
  · next hlcp =>
    have hcache : T.cls.hasCache = false := by
      cases hcls : T.cls <;> simp_all [StringPtrClass.withLcp, StringPtrClass.hasCache]
    refine ⟨_, rfl, ⟨rfl, rfl, fun _ _ => rfl, fun _ _ => rfl, fun p _ => ⟨fun hl => ?_, fun hc => ?_⟩⟩,
      fun p hp => hp.1⟩
    · exact absurd hl hlcp
    · rw [hcache] at hc
      exact absurd hc Bool.false_ne_true

/-- An equal bucket whose key contains the terminator is finished. -/
theorem fillDone_spec {calcLcp : Bool} (hcalc : T.cls.withLcp = true → calcLcp = true)
    (h : s.Ok T cl) (hi : i < sampleBktnum) (hP : T.PieceOk g (s.piece i))
    (hdone : s.classifier.done i = true) :
    ∃ g', s.fillDone T.cls cl calcLcp i g.mem = some g'.mem ∧ Effect (s.piece i).window g g' ∧
      T.Covers g' (s.piece i).window [] fun _ => False := by
  obtain ⟨key, hkey, hconst, hlen⟩ :=
    h.buckets.const i hi hdone (Nat.lt_of_sub_pos hP.pos)
  obtain ⟨g', hmem, he, hc⟩ := fillLcp_finishes hP hconst hlen
  refine ⟨g', ?_, he, hc⟩
  rw [fillDone, h.bucketPtr_eq, hkey, hmem]
  split
  · rfl
  · next hnot =>
    -- without LCPs there is nothing to fill
    rw [StringPtrClass.fillLcp, if_neg fun hlcp => hnot (hcalc hlcp)]

end Ok

end SampleBuckets

/-! ## The constructor -/

/-- What is needed of the classifier of a sort: it can be instantiated, and reads back its
splitters. -/
structure ClassifierClass.Usable (cl : ClassifierClass) : Prop where
  ne_binarySearch : cl ≠ .binarySearch
  instantiable : cl.Instantiable defaultTreebits
  rollout : 1 ≤ cl.rollout
  not_equal : ¬ cl.IsEqualFamily

theorem ClassifierClass.usable_treeUnrollInterleave :
    (ClassifierClass.treeUnrollInterleave 4).Usable :=
  ⟨by decide, by decide, by decide, id⟩

theorem ClassifierClass.usable_treeCalcUnrollInterleave :
    (ClassifierClass.treeCalcUnrollInterleave 4).Usable :=
  ⟨by decide, by decide, by decide, id⟩

section Constructor

variable {S : Type} {T : SortTask S} {cl : ClassifierClass} {g : Ghost S} {P : Piece}
  {a : SplitterArrays}

/-- A step on a piece, when its strings have been moved to their buckets. -/
theorem SortTask.PieceOk.sampleBuckets (h : T.PieceOk g P) {r : StepArrays S} {ss : List KeyType}
    {bucketOf : KeyType → ℕ} (hlen : ss.length = numsplitters defaultTreebits)
    (hr : r.Ok T.ss ((T.pointer P).active.get g.mem) P.window.size P.depth ss bucketOf)
    (hlcp : r.lcp = a.lcp) (hget : ∀ i < ss.length, splitterOf cl a i = ss[i]?) :
    let s : SampleBuckets := ⟨T.pointer P, P.depth, a, r.bkt⟩
    ∃ g', g'.mem = g.mem.write (T.pointer P).shadow r.sorted ∧ Effect P.window g g' ∧
      s.Ok T cl ∧ ∀ single level, (s.toLevel single level 0).PiecesOk T g' := by
  obtain ⟨g', hmem, he, hok, hpieces⟩ := h.bucketsOk hlen hr hlcp hget
  exact ⟨g', hmem, he, ⟨rfl, hok⟩, fun single level i _ hi hpos => hpieces i hi hpos⟩

/-- The constructor moves the strings of a piece to their buckets. -/
theorem newSampleStep_spec (hcl : cl.Usable) (rng : ℕ → ℕ) (level : ℕ) (h : T.PieceOk g P) :
    ∃ st g', newSampleStep T.ss cl rng level (T.pointer P) P.depth g.mem = some (st, g'.mem) ∧
      st.level = level ∧ st.idx = 0 ∧ st.strptr = T.pointer P ∧ st.depth = P.depth ∧
      st.Ok T cl ∧ (st.toLevel false level 0).PiecesOk T g' ∧ Effect P.window g g' := by
  obtain ⟨r, ss, bucketOf, heq, hlen, hr, hlcp, hget⟩ := seqSampleSortStep_ok T.sortable
    hcl.ne_binarySearch hcl.instantiable (by decide) hcl.rollout rng
    ((T.pointer P).shadow.get g.mem) h.pos h.sharesDepth
  obtain ⟨g', hmem, he, hok, hpieces⟩ := h.sampleBuckets hlen hr hlcp (hget hcl.not_equal)
  refine ⟨⟨⟨T.pointer P, P.depth, stepClassifier T.ss cl defaultTreebits rng
    ((T.pointer P).active.get g.mem) P.window.size P.depth, r.bkt⟩, level, 0⟩, g', ?_, rfl, rfl, rfl,
    rfl, hok, hpieces false level, he⟩
  rw [newSampleStep, hmem]
  show Option.map _ (seqSampleSortStep _ _ _ _ _ _ P.window.size _) = _
  rw [heq]
  rfl

end Constructor

end StringSampleSort
