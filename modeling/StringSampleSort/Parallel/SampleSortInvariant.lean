import StringSampleSort.Parallel.JobInvariant
import StringSampleSort.Parallel.SampleSortJobs

/-!
# The invariant of a large sort

Up to the last `DistributeJob` a `SampleSortStep` works on its strings alone; what its jobs have
done is the run of a distribution in parts.  From there on it is a level of which one bucket after the
other is freed.

## Main results

- `SampleSortJobs.Holds`: the condition of a step, wherever it stands
- `CountInv.count_ok`, `DistributeInv.distribute_ok`: the jobs of a part
-/

namespace StringSampleSort

open Library Slice SortTask

/-! ## Conditions -/

section Conditions

variable {S : Type}

/-- The sample has been drawn: `ss` are the splitters, `bucketOf` is what the classifier computes,
and `st` are the strings of the piece with their buckets. -/
structure Classified (T : SortTask S) (cl : ClassifierClass) (P : Piece) (st : SampleSortStep S)
    (ss : List KeyType) (bucketOf : KeyType → ℕ) (g : Ghost S) (s : SampleSortJobs) : Prop where
  piece : T.PieceOk g P
  strptr : s.strptr = T.pointer P
  depth : s.depth = P.depth
  size : st.size = P.window.size
  threshold : st.sequentialThreshold = s.threshold
  bktnum : st.bktnum = sampleBktnum
  active : ∀ i < st.size, st.active i = (T.pointer P).active.get g.mem i
  bucketId : ∀ i < st.size, st.bucketId i = bucketOf (keyAt (T.ss.chars (st.active i)) P.depth)
  length : ss.length = numsplitters defaultTreebits
  bucketed : Bucketed (InRange T.ss.chars st.active st.size) P.depth ss bucketOf
  classify : ∀ keys, (cl.instantiate defaultTreebits).classify s.classifier keys =
    some (keys.map bucketOf)
  less_eq : ∀ i ≤ ss.length, (s.classifier.lcp i &&& 0x7F).toNat = lessLcp ss i
  done_iff : ∀ i < ss.length, s.classifier.lcp i &&& 0x80 ≠ 0 ↔ lowByte (ss.getD i 0) = 0
  splitter : ∀ i < ss.length, splitterOf cl s.classifier i = ss[i]?

/-- The jobs of the parts `todo` have not finished, and `pwork` counts them. -/
structure PartsTodo (parts : ℕ) (todo : List ℕ) (pwork : ℕ) : Prop where
  nodup : todo.Nodup
  lt : ∀ p ∈ todo, p < parts
  pwork_eq : pwork = todo.length
  pos : 0 < pwork

/-- The `CountJob`s run. -/
structure CountInv (T : SortTask S) (cl : ClassifierClass) (P : Piece) (st : SampleSortStep S)
    (ss : List KeyType) (bucketOf : KeyType → ℕ) (todo : List ℕ) (g : Ghost S)
    (s : SampleSortJobs) : Prop where
  classified : Classified T cl P st ss bucketOf g s
  parts : PartsTodo st.parts todo s.pwork
  counted : ∀ p < st.parts, p ∉ todo →
    (∀ j < st.partSize p, s.bktcache p j = st.bktcache p j) ∧ s.bkt p = st.count p

/-- The `DistributeJob`s run: what they have done is what `d` says. -/
structure DistributeInv (T : SortTask S) (cl : ClassifierClass) (P : Piece) (st : SampleSortStep S)
    (ss : List KeyType) (bucketOf : KeyType → ℕ) (d : DistributeState S) (todo : List ℕ)
    (g : Ghost S) (s : SampleSortJobs) : Prop where
  classified : Classified T cl P st ss bucketOf g s
  parts : PartsTodo st.parts todo s.pwork
  cached : ∀ p < st.parts, ∀ j < st.partSize p, s.bktcache p j = st.bktcache p j
  moves : ∃ shadow, st.Invariant shadow d
  bkt : ∀ p < st.parts, s.bkt p = d.bkt p
  moved : s.moved = d.moved
  shadow : ∀ i < st.size, (T.pointer P).shadow.get g.mem i = d.shadow i
  distributed : ∀ p < st.parts, p ∉ todo → d.moved p = st.partSize p

namespace SampleSortJobs

/-- The window of a step. -/
def window (s : SampleSortJobs) : Window := ⟨s.strptr.active.begin, s.strptr.size⟩

/-- The part that a step sorts. -/
def share (s : SampleSortJobs) : WorkShare := ⟨s.part, s.window⟩

/-- A step as a level, of which so many buckets have been dealt with. -/
def level (s : SampleSortJobs) (i : ℕ) : StepLevel := s.buckets.toLevel true 0 i

end SampleSortJobs

/-- The strings are in their buckets, and the first `i` buckets have been dealt with. -/
structure DealInv (T : SortTask S) (cl : ClassifierClass) (i : ℕ) (subs : List WorkShare)
    (g : Ghost S) (s : SampleSortJobs) : Prop where
  ok : s.buckets.Ok T cl
  last : (s.classifier.lcp (numsplitters defaultTreebits) &&& 0x7F).toNat = 0
  le : i ≤ sampleBktnum
  plan : JobPlan T g s.window [] [s.level i] subs 1 s.history

/-- The condition of a step with these substeps. -/
def SampleSortJobs.Holds (T : SortTask S) (cl : ClassifierClass) (g : Ghost S) (s : SampleSortJobs)
    (subs : List WorkShare) : Prop :=
  match s.stage with
  | .sample => subs = [] ∧
      s = .new s.part s.strptr s.depth s.threshold s.size_pos s.threshold_pos ∧
      T.CallOk g (s.strptr, s.depth)
  | .count todo => subs = [] ∧ s.working = 0 ∧
      ∃ P st ss bucketOf, CountInv T cl P st ss bucketOf todo g s
  | .distribute todo => subs = [] ∧ s.working = 0 ∧
      ∃ P st ss bucketOf d, DistributeInv T cl P st ss bucketOf d todo g s
  | .deal i => DealInv T cl i subs g s ∧ s.working = subs.length + 1
  | .release => DealInv T cl sampleBktnum subs g s ∧ s.working = subs.length + 1
  | .waiting => DealInv T cl sampleBktnum subs g s ∧ s.working = subs.length ∧ subs ≠ []
  | .allDone => DealInv T cl sampleBktnum subs g s ∧ subs = []
  | .finished => subs = [] ∧ (T.Covers g s.window [] fun _ => False) ∧ Valid s.history ∧
      ExactlyOnce s.history

/-- A bound for the actions of a step, and of those that it will create. -/
def SampleSortJobs.rank (T : SortTask S) (s : SampleSortJobs) : ℕ :=
  match s.stage with
  | .sample => T.callRank (s.strptr, s.depth)
  | .count todo => rankScale * T.windowRank s.window s.depth + todo.length + 200
  | .distribute todo => rankScale * (T.windowRank s.window s.depth - (T.total + 2 ^ 12)) +
      ∑ p ∈ Finset.range s.parts, (s.strE p - s.strB p - s.moved p) + todo.length + 100
  | .deal i => rankScale * (s.level i).rank T + s.working + 4
  | .release => s.working + 3
  | .waiting => s.working + 2
  | .allDone => 1
  | .finished => 0

end Conditions

/-! ## Parts -/

section Parts

variable {parts : ℕ} {todo : List ℕ} {pwork p : ℕ}

namespace PartsTodo

/-- No job has run yet. -/
theorem start (hparts : 1 ≤ parts) : PartsTodo parts (List.range parts) parts :=
  ⟨List.nodup_range, fun _ => List.mem_range.mp, List.length_range.symm, hparts⟩

theorem exists_mem (h : PartsTodo parts todo pwork) : ∃ p, p ∈ todo :=
  List.exists_mem_of_length_pos (h.pwork_eq ▸ h.pos)

/-- A job has finished, and others have not. -/
theorem erase (h : PartsTodo parts todo pwork) (hp : p ∈ todo) (hmore : pwork - 1 ≠ 0) :
    PartsTodo parts (todo.erase p) (pwork - 1) where
  nodup := h.nodup.erase p
  lt q hq := h.lt q (List.mem_of_mem_erase hq)
  pwork_eq := by rw [h.pwork_eq, List.length_erase_of_mem hp]
  pos := Nat.pos_of_ne_zero hmore

/-- The last job has finished. -/
theorem last (h : PartsTodo parts todo pwork) (hp : p ∈ todo) (hlast : pwork - 1 = 0) :
    todo.erase p = [] := by
  apply List.eq_nil_of_length_eq_zero
  rw [List.length_erase_of_mem hp, ← h.pwork_eq, hlast]

end PartsTodo

/-- The parts depend on the number of strings and on the threshold only. -/
theorem SampleSortStep.parts_congr {α β : Type} {st : SampleSortStep α} {st' : SampleSortStep β}
    (hsize : st.size = st'.size) (hthreshold : st.sequentialThreshold = st'.sequentialThreshold) :
    st.parts = st'.parts ∧ st.strB = st'.strB ∧ st.strE = st'.strE := by
  have hparts : st.parts = st'.parts := by
    rw [SampleSortStep.parts, SampleSortStep.parts, hsize, hthreshold]
  -- the bounds of the parts go by their number and the number of strings
  have hpsize : st.psize = st'.psize := by
    rw [SampleSortStep.psize, SampleSortStep.psize, hsize, hparts]
  have hstrB : st.strB = st'.strB := by
    funext p
    rw [SampleSortStep.strB, SampleSortStep.strB, hpsize]
  refine ⟨hparts, hstrB, ?_⟩
  funext p
  rw [SampleSortStep.strE, SampleSortStep.strE, hpsize, hsize, hstrB]

end Parts

/-! ## The sample -/

section Sample

variable {S : Type} {T : SortTask S} {cl : ClassifierClass} {P : Piece} {st : SampleSortStep S}
  {splitters : List KeyType} {bucketOf : KeyType → ℕ} {g g' : Ghost S} {s : SampleSortJobs}
  {subs : List WorkShare}

namespace Classified

theorem layout_eq (h : Classified T cl P st splitters bucketOf g s) :
    s.parts = st.parts ∧ s.strB = st.strB ∧ s.strE = st.strE := by
  have hsize : s.layout.size = st.size := by
    rw [h.size]
    exact congrArg StringPtr.size h.strptr
  exact SampleSortStep.parts_congr hsize h.threshold.symm

/-- What the jobs do to the counters of the step does not matter. -/
theorem of_eq {s' : SampleSortJobs} (h : Classified T cl P st splitters bucketOf g s)
    (hstrptr : s'.strptr = s.strptr) (hdepth : s'.depth = s.depth)
    (hthreshold : s'.threshold = s.threshold) (hclassifier : s'.classifier = s.classifier) :
    Classified T cl P st splitters bucketOf g s' where
  piece := h.piece
  strptr := hstrptr.trans h.strptr
  depth := hdepth.trans h.depth
  size := h.size
  threshold := h.threshold.trans hthreshold.symm
  bktnum := h.bktnum
  active := h.active
  bucketId := h.bucketId
  length := h.length
  bucketed := h.bucketed
  classify := hclassifier ▸ h.classify
  less_eq := hclassifier ▸ h.less_eq
  done_iff := hclassifier ▸ h.done_iff
  splitter := hclassifier ▸ h.splitter

theorem size_eq (h : Classified T cl P st splitters bucketOf g s) : s.strptr.size = st.size := by
  rw [h.size, h.strptr]
  rfl

theorem window_eq (h : Classified T cl P st splitters bucketOf g s) : s.window = P.window := by
  rw [SampleSortJobs.window, h.strptr]
  rfl

end Classified

/-- The classifier of a sample. -/
theorem classified_sample (hcl : cl.Usable) (hP : T.PieceOk g P) (rng : ℕ → ℕ)
    (hptr : s.strptr = T.pointer P) (hdepth : s.depth = P.depth)
    (hclassifier : s.classifier = stepClassifier T.ss cl defaultTreebits rng
      ((T.pointer P).active.get g.mem) P.window.size P.depth) :
    ∃ st splitters bucketOf, Classified T cl P st splitters bucketOf g s := by
  -- the keys of the sample give sorted splitters, and a bucket for each key
  obtain ⟨splitters, bucketOf, hlen, hbucketed, hclassify, hless, hdone, hget⟩ :=
    step_classifier T.sortable hcl.ne_binarySearch hcl.instantiable (by decide) hcl.rollout rng
      hP.pos hP.sharesDepth
  -- the step of the distribution: the bucket of a string is that of its key
  refine ⟨{
    size := P.window.size
    sequentialThreshold := s.threshold
    bktnum := sampleBktnum
    active := (T.pointer P).active.get g.mem
    bucketId := fun i =>
      bucketOf (keyAt (T.ss.chars ((T.pointer P).active.get g.mem i)) P.depth)
    size_pos := hP.pos
    threshold_pos := s.threshold_pos
    bucketId_lt := fun i _ => ?_ }, splitters, bucketOf, ?_⟩
  · have hlt := hbucketed.bucket_lt (keyAt (T.ss.chars ((T.pointer P).active.get g.mem i)) P.depth)
    rwa [hlen] at hlt
  · exact {
      piece := hP
      strptr := hptr
      depth := hdepth
      size := rfl
      threshold := rfl
      bktnum := rfl
      active := fun _ _ => rfl
      bucketId := fun _ _ => rfl
      length := hlen
      bucketed := hbucketed
      classify := by rw [hclassifier]; exact hclassify
      less_eq := by rw [hclassifier]; exact hless
      done_iff := by rw [hclassifier]; exact hdone
      splitter := by rw [hclassifier]; exact hget hcl.not_equal }

/-- The sample is drawn. -/
theorem SampleSortJobs.sample_ok (hcl : cl.Usable) (hstage : s.stage = .sample)
    (h : s.Holds T cl g subs) (rng : ℕ → ℕ) :
    SortOutcome.Ok T (SampleSortJobs.Holds T cl) SampleSortJobs.share (SampleSortJobs.rank T) g s
      subs g (s.sample T.ss cl rng g.mem) := by
  have hrank : s.rank T = rankScale * (T.windowRank s.window s.depth + 7) := by
    rw [SampleSortJobs.rank, hstage]
    rfl
  rw [SampleSortJobs.Holds, hstage] at h
  obtain ⟨rfl, hnew, P, hP, hcall⟩ := h
  obtain ⟨hptr, hdepth⟩ := Prod.mk.inj hcall
  have hworking : s.working = 0 := by
    rw [hnew]
    rfl
  -- the classifier is built from the strings of the active array, which are those of the piece
  have hclassifier : (s.sample T.ss cl rng g.mem).proc.classifier = stepClassifier T.ss cl
      defaultTreebits rng ((T.pointer P).active.get g.mem) P.window.size P.depth := by
    show stepClassifier T.ss cl defaultTreebits rng (s.strptr.active.get g.mem) s.strptr.size
      s.depth = _
    rw [show s.strptr = T.pointer P from hptr, show s.depth = P.depth from hdepth]
    rfl
  obtain ⟨st, splitters, bucketOf, hclassified⟩ := classified_sample
    (s := (s.sample T.ss cl rng g.mem).proc) hcl hP rng hptr hdepth hclassifier
  have hparts : s.parts = st.parts := hclassified.layout_eq.1
  refine ⟨rfl, Touches.refl _ _ _, rfl, ⟨rfl, hworking, P, st, splitters, bucketOf, hclassified,
    ?_, fun p hp hdone => ?_⟩, by simp [sample], List.forall_mem_singleton.mpr ?_, ?_⟩
  · show PartsTodo st.parts (List.range s.parts) s.parts
    rw [hparts]
    exact .start st.parts_bounds.1
  · exact absurd (List.mem_range.mpr (hparts ▸ hp)) hdone
  · rw [show s.strptr = T.pointer P from hptr, show s.depth = P.depth from hdepth]
    exact hP.sharesDepth
  · -- the jobs for the parts are paid for by the rank of the sample
    have hle : s.parts ≤ 129 := hparts ▸ st.parts_bounds.2
    rw [hrank]
    show rankScale * T.windowRank s.window s.depth + (List.range s.parts).length + 200 + 0 < _
    rw [List.length_range, rankScale]
    omega

end Sample

/-! ## Counting -/

section Count

variable {S : Type} {T : SortTask S} {cl : ClassifierClass} {P : Piece} {st : SampleSortStep S}
  {splitters : List KeyType} {bucketOf : KeyType → ℕ} {g g' : Ghost S} {s : SampleSortJobs}
  {todo : List ℕ} {p : ℕ}

/-- What `classify` finds for the strings of a part. -/
theorem Classified.classify_part (h : Classified T cl P st splitters bucketOf g s)
    (hp : p < st.parts) :
    (cl.instantiate defaultTreebits).classify s.classifier
        ((slice (s.strptr.active.get g.mem) (s.strB p) (s.strE p - s.strB p)).map fun str =>
          getUint64 T.ss str s.depth) =
      some (slice st.bucketId (st.strB p) (st.partSize p)) := by
  obtain ⟨-, hstrB, hstrE⟩ := h.layout_eq
  rw [h.classify, hstrB, hstrE, List.map_map, map_slice]
  refine congrArg some (slice_congr fun q hq => ?_)
  obtain ⟨j, rfl⟩ := Nat.exists_eq_add_of_le hq.1
  have hlt : st.strB p + j < st.size := st.place_lt hp (Nat.lt_of_add_lt_add_left hq.2)
  -- a string that reaches the depth has its next eight characters as the key
  have hkey := key_of_share T.sortable h.piece.sharesDepth (h.size ▸ hlt)
  rw [h.bucketId _ hlt, h.active _ hlt, ← hkey]
  simp only [Function.comp_apply, h.strptr, h.depth]

/-- The counters of a part. -/
theorem count_slice (st : SampleSortStep S) (p : ℕ) :
    (List.range (st.partSize p)).foldl (fun mybkt j => Function.update mybkt
      ((slice st.bucketId (st.strB p) (st.partSize p)).getD j 0)
      (mybkt ((slice st.bucketId (st.strB p) (st.partSize p)).getD j 0) + 1)) (fun _ => 0) =
      st.count p := by
  rw [SampleSortStep.count]
  refine List.foldl_ext _ _ _ fun mybkt j hj => ?_
  have hget : (slice st.bucketId (st.strB p) (st.partSize p)).getD j 0 = st.bktcache p j := by
    rw [List.getD_eq_getElem?_getD, getElem?_slice _ _ (List.mem_range.mp hj)]
    rfl
  rw [hget]

/-- The parts make up the strings. -/
theorem SampleSortStep.sum_partSize (st : SampleSortStep S) :
    ∑ p ∈ Finset.range st.parts, st.partSize p = st.size := by
  -- the places of all parts together are those of the strings
  have hlength := congrArg List.length st.partsCover
  rw [List.length_map, List.length_range, moves, List.length_flatMap] at hlength
  simp only [List.length_map, List.length_range] at hlength
  rw [← hlength, Finset.sum_eq_multiset_sum]
  rfl

/-- What is set aside for a piece is enough for its distribution. -/
theorem SortTask.PieceOk.windowRank_ge (h : T.PieceOk g P) :
    P.window.size ≤ T.total ∧ T.total + 2 ^ 15 ≤ T.windowRank P.window P.depth := by
  have hunit := h.depth.unit_le
  have hpos := h.pos
  have hbound := h.bound
  have hle : T.rankUnit * 1 ≤ T.rankUnit * P.window.size := Nat.mul_le_mul_left _ hpos
  rw [rankUnit] at hunit hle
  omega

/-- The step when the counters of all parts have been summed up. -/
def SampleSortJobs.summedUp (s : SampleSortJobs) : SampleSortJobs :=
  { s with
    bkt := (prefixSums sampleBktnum s.parts s.bkt).2
    moved := fun _ => 0
    pwork := s.parts
    stage := .distribute (List.range s.parts) }

/-- `count_finished` starts the `DistributeJob`s. -/
theorem Classified.countFinished_spec (h : Classified T cl P st splitters bucketOf g s)
    (hcounted : ∀ p < st.parts,
      (∀ j < st.partSize p, s.bktcache p j = st.bktcache p j) ∧ s.bkt p = st.count p) :
    s.countFinished = some s.summedUp ∧
      ∃ d, DistributeInv T cl P st splitters bucketOf d (List.range s.parts) g s.summedUp := by
  have hparts := h.layout_eq.1
  have hcount : ∀ p < s.parts, s.bkt p = st.count p := fun p hp => (hcounted p (hparts ▸ hp)).2
  obtain ⟨hsum, hbkt⟩ := prefixSums_congr sampleBktnum hcount
  have hfinished : prefixSums sampleBktnum s.parts st.count = st.countFinished := by
    rw [SampleSortStep.countFinished, h.bktnum, hparts]
  rw [hfinished] at hsum hbkt
  -- the counters of all parts sum up to the number of strings, as the assertion says
  have hassert : (prefixSums sampleBktnum s.parts s.bkt).1 = s.strptr.size := by
    rw [hsum, st.countFinished_eq.1, h.size_eq]
  refine ⟨by rw [SampleSortJobs.countFinished]; exact if_pos hassert,
    st.distributeStart ((T.pointer P).shadow.get g.mem), ?_⟩
  exact {
    classified := h.of_eq rfl rfl rfl rfl
    parts := by
      show PartsTodo st.parts (List.range s.parts) s.parts
      rw [hparts]
      exact .start st.parts_bounds.1
    cached := fun p hp => (hcounted p hp).1
    moves := ⟨_, SampleSortStep.distributeStart_invariant⟩
    bkt := fun p hp => by
      have hlt : p < s.parts := hparts.symm ▸ hp
      rw [SampleSortJobs.summedUp, SampleSortStep.distributeStart]
      dsimp only
      exact hbkt p hlt
    moved := rfl
    shadow := fun _ _ => rfl
    distributed := fun p hp hnot => absurd (List.mem_range.mpr (hparts ▸ hp)) hnot }

/-- The strings of a part are counted. -/
theorem CountInv.count_ok (h : CountInv T cl P st splitters bucketOf todo g s)
    (hstage : s.stage = .count todo) (hworking : s.working = 0) (hp : p ∈ todo) :
    ∃ s', s.count T.ss cl todo p g.mem = some s' ∧
      SortOutcome.Ok T (SampleSortJobs.Holds T cl) SampleSortJobs.share (SampleSortJobs.rank T) g s
        [] g (s'.outcome g.mem) := by
  have hrank : s.rank T = rankScale * T.windowRank s.window s.depth + todo.length + 200 := by
    rw [SampleSortJobs.rank, hstage]
  have hlt := h.parts.lt p hp
  obtain ⟨hparts, hstrB, hstrE⟩ := h.classified.layout_eq
  have hsize : s.strE p - s.strB p = st.partSize p := by rw [hstrB, hstrE, SampleSortStep.partSize]
  have hclassify := h.classified.classify_part hlt
  have hcount := count_slice st p
  have hlength := h.parts.pwork_eq
  set mybktcache := fun j => (slice st.bucketId (st.strB p) (st.partSize p)).getD j 0 with hcache
  set s' : SampleSortJobs := { s with
    bktcache := Function.update s.bktcache p mybktcache
    bkt := Function.update s.bkt p (st.count p)
    pwork := s.pwork - 1
    stage := .count (todo.erase p) } with hs'
  have hclassified : Classified T cl P st splitters bucketOf g s' :=
    h.classified.of_eq rfl rfl rfl rfl
  -- the other parts keep their counters and their bucket ids
  have hcounted : ∀ q < st.parts, q ∉ todo.erase p →
      (∀ j < st.partSize q, s'.bktcache q j = st.bktcache q j) ∧ s'.bkt q = st.count q := by
    intro q hq hnot
    by_cases heq : q = p
    · subst heq
      refine ⟨fun j hj => ?_, Function.update_self ..⟩
      show Function.update s.bktcache q mybktcache q j = _
      rw [Function.update_self]
      show (slice st.bucketId (st.strB q) (st.partSize q)).getD j 0 = _
      rw [List.getD_eq_getElem?_getD, getElem?_slice _ _ hj]
      rfl
    · obtain ⟨hold, hold'⟩ := h.counted q hq fun hin => hnot ((List.mem_erase_of_ne heq).mpr hin)
      refine ⟨fun j hj => ?_, ?_⟩
      · show Function.update s.bktcache p mybktcache q j = _
        rw [Function.update_of_ne heq, hold j hj]
      · show Function.update s.bkt p (st.count p) q = _
        rw [Function.update_of_ne heq, hold']
  have hcall : s.count T.ss cl todo p g.mem =
      if s.pwork - 1 = 0 then s'.countFinished else some s' := by
    rw [SampleSortJobs.count]
    dsimp only
    rw [hclassify, Option.bind_some, hsize, hcount]
  rw [hcall]
  have hpos := h.parts.pos
  split
  · -- the last `CountJob` goes on with `count_finished`
    next hlast =>
    have hnone : todo.erase p = [] := h.parts.last hp hlast
    obtain ⟨heq, d, hinv⟩ := hclassified.countFinished_spec fun q hq =>
      hcounted q hq (by simp [hnone])
    refine ⟨_, heq, rfl, Touches.refl _ _ _, rfl, ⟨rfl, hworking, P, st, splitters, bucketOf, d,
      hinv⟩, by simp [SampleSortJobs.outcome], by simp [SampleSortJobs.outcome], ?_⟩
    -- now each string has to be moved once
    have hsum : ∑ p ∈ Finset.range s.parts, (s.strE p - s.strB p - 0) = st.size := by
      rw [hparts, hstrB, hstrE]
      exact st.sum_partSize
    have hpiece := h.classified.piece.windowRank_ge
    have hle : s.parts ≤ 129 := hparts ▸ st.parts_bounds.2
    rw [← h.classified.size, ← h.classified.window_eq, ← h.classified.depth] at hpiece
    rw [hrank]
    show rankScale * (T.windowRank s.window s.depth - (T.total + 2 ^ 12)) +
      ∑ p ∈ Finset.range s.parts, (s.strE p - s.strB p - 0) + (List.range s.parts).length + 100 + 0
        < _
    rw [hsum, List.length_range, rankScale]
    omega
  · -- another `CountJob` is still at work
    next hmore =>
    refine ⟨s', rfl, rfl, Touches.refl _ _ _, rfl, ⟨rfl, hworking, P, st, splitters, bucketOf,
      hclassified, h.parts.erase hp hmore, hcounted⟩, by simp [SampleSortJobs.outcome],
      by simp [SampleSortJobs.outcome], ?_⟩
    rw [hrank]
    show rankScale * T.windowRank s.window s.depth + (todo.erase p).length + 200 + 0 < _
    rw [List.length_erase_of_mem hp]
    omega

end Count

/-! ## Distributing -/

section Distribute

variable {S : Type} {T : SortTask S} {cl : ClassifierClass} {P : Piece} {st : SampleSortStep S}
  {splitters : List KeyType} {bucketOf : KeyType → ℕ} {g g' : Ghost S} {s : SampleSortJobs}
  {d : DistributeState S} {todo : List ℕ} {p : ℕ}

/-- A string is written to a place of the shadow array. -/
def Ghost.writeShadow (g : Ghost S) (T : SortTask S) (P : Piece) (place : ℕ) (str : S) : Ghost S :=
  ⟨g.mem.write ((T.pointer P).shadow.subi place (place + 1)) fun _ => str, g.value⟩

theorem writeShadow_active (T : SortTask S) (P : Piece) (place : ℕ) (str : S) :
    (g.writeShadow T P place str).mem.strings (T.cls.activeArray P.flipped) =
      g.mem.strings (T.cls.activeArray P.flipped) :=
  Function.update_of_ne (StringPtrClass.activeArray_ne P.flipped).symm _ _

theorem writeShadow_shadow (T : SortTask S) (P : Piece) (place : ℕ) (str : S) (i : ℕ) :
    (T.pointer P).shadow.get (g.writeShadow T P place str).mem i =
      Function.update ((T.pointer P).shadow.get g.mem) place str i := by
  show Function.update g.mem.strings (T.cls.activeArray !P.flipped)
    (splice _ (P.window.lo + place) (place + 1 - place) _) (T.cls.activeArray !P.flipped)
    (P.window.lo + i) = _
  rw [Function.update_self, Nat.add_sub_cancel_left]
  by_cases hi : i = place
  · subst hi
    rw [Function.update_self, splice_of_in _ _ ⟨le_rfl, Nat.lt_succ_self _⟩]
  · rw [Function.update_of_ne hi, splice_of_not_in _ _ (by rw [InWindow]; omega)]
    rfl

/-- A place of the shadow array is written. -/
theorem writeShadow_effect (T : SortTask S) {P : Piece} {place : ℕ} (hplace : place < P.window.size)
    (str : S) : Effect P.window g (g.writeShadow T P place str) where
  strings arr q hq := by
    show Function.update g.mem.strings (T.cls.activeArray !P.flipped)
      (splice _ (P.window.lo + place) (place + 1 - place) _) arr q = _
    -- only the place itself changes, and it is a place of the window
    by_cases harr : arr = T.cls.activeArray !P.flipped
    · subst harr
      rw [Function.update_self]
      refine splice_of_not_in _ _ fun hin => hq ?_
      obtain ⟨hlo, hhi⟩ := hin
      exact ⟨by omega, by omega⟩
    · rw [Function.update_of_ne harr]
  value _ _ := rfl
  perm := List.Perm.refl _
  lcps _ _ := rfl
  cache _ _ := rfl

/-- The strings that are moved stay in the active array. -/
theorem Classified.writeShadow (h : Classified T cl P st splitters bucketOf g s) (place : ℕ)
    (str : S) : Classified T cl P st splitters bucketOf (g.writeShadow T P place str) s where
  piece := h.piece.congr (fun _ _ => rfl) fun q _ => congrFun (writeShadow_active T P place str) q
  strptr := h.strptr
  depth := h.depth
  size := h.size
  threshold := h.threshold
  bktnum := h.bktnum
  active i hi := by
    rw [h.active i hi]
    exact (congrFun (writeShadow_active T P place str) (P.window.lo + i)).symm
  bucketId := h.bucketId
  length := h.length
  bucketed := h.bucketed
  classify := h.classify
  less_eq := h.less_eq
  done_iff := h.done_iff
  splitter := h.splitter

theorem DistributeInv.holds (h : DistributeInv T cl P st splitters bucketOf d todo g s)
    (hstage : s.stage = .distribute todo) (hworking : s.working = 0) : s.Holds T cl g [] := by
  rw [SampleSortJobs.Holds, hstage]
  exact ⟨rfl, hworking, P, st, splitters, bucketOf, d, h⟩

theorem SampleSortJobs.rank_distribute (hstage : s.stage = .distribute todo) :
    s.rank T = rankScale * (T.windowRank s.window s.depth - (T.total + 2 ^ 12)) +
      ∑ p ∈ Finset.range s.parts, (s.strE p - s.strB p - s.moved p) + todo.length + 100 := by
  rw [SampleSortJobs.rank, hstage]

/-- A `DistributeJob` moves a string. -/
theorem DistributeInv.round_ok (h : DistributeInv T cl P st splitters bucketOf d todo g s)
    (hstage : s.stage = .distribute todo) (hworking : s.working = 0) (hp : p ∈ todo)
    (hmore : s.moved p < s.strE p - s.strB p) :
    ∃ o g', s.distribute todo p g.mem = some o ∧
      SortOutcome.Ok T (SampleSortJobs.Holds T cl) SampleSortJobs.share (SampleSortJobs.rank T) g s
        [] g' o := by
  have hlt := h.parts.lt p hp
  obtain ⟨hparts, hstrB, hstrE⟩ := h.classified.layout_eq
  have hsize : s.strE p - s.strB p = st.partSize p := by rw [hstrB, hstrE, SampleSortStep.partSize]
  obtain ⟨shadow, hmoves⟩ := h.moves
  have hmore' : d.moved p < st.partSize p := by rwa [← h.moved, ← hsize]
  -- what the job reads
  have hb : s.bktcache p (s.moved p) = st.bktcache p (d.moved p) := by
    rw [h.moved, h.cached p hlt _ hmore']
  have hplace : s.bkt p (s.bktcache p (s.moved p)) - 1 = st.place p (d.moved p) := by
    rw [hb, h.bkt p hlt, hmoves.counter hlt hmore', Nat.add_sub_cancel]
  have hstr : s.strptr.active.get g.mem (s.strB p + s.moved p) =
      st.active (st.strB p + d.moved p) := by
    rw [h.classified.active _ (st.place_lt hlt hmore'), h.classified.strptr, h.moved, hstrB]
  have hplace_lt : st.place p (d.moved p) < st.size :=
    (st.mem_range_iff_place _).mpr ⟨p, hlt, _, hmore', rfl⟩
  -- the same round of the distribution by itself
  have hround : st.distributeRound p d = some {
      bkt := Function.update d.bkt p
        (Function.update (d.bkt p) (st.bktcache p (d.moved p)) (st.place p (d.moved p)))
      moved := Function.update d.moved p (d.moved p + 1)
      shadow := Function.update d.shadow (st.place p (d.moved p))
        (st.active (st.strB p + d.moved p))
      written := st.place p (d.moved p) :: d.written } := by
    rw [SampleSortStep.distributeRound, if_pos ⟨hlt, hmore'⟩]
    dsimp only
    rw [hmoves.counter hlt hmore', Nat.add_sub_cancel]
  rw [SampleSortJobs.distribute, if_pos hmore]
  dsimp only
  rw [hplace, hstr, hb]
  refine ⟨_, g.writeShadow T P (st.place p (d.moved p)) (st.active (st.strB p + d.moved p)), rfl,
    ?_, ⟨?_, by simp⟩, rfl, ?_, by simp [SampleSortJobs.outcome],
    by simp [SampleSortJobs.outcome], ?_⟩
  · show g.mem.write ((T.pointer P).shadow.subi _ _) _ = g.mem.write (s.strptr.shadow.subi _ _) _
    rw [h.classified.strptr]
  · show Effect s.window _ _
    rw [h.classified.window_eq]
    exact writeShadow_effect T (h.classified.size ▸ hplace_lt) _
  · refine DistributeInv.holds {
      classified := (h.classified.writeShadow _ _).of_eq rfl rfl rfl rfl
      parts := h.parts
      cached := h.cached
      moves := ⟨shadow, hmoves.round hround⟩
      bkt := fun q hq => ?_
      moved := congrArg (fun moved => Function.update moved p (moved p + 1)) h.moved
      shadow := fun i hi => ?_
      distributed := fun q hq hnot => ?_ } hstage hworking
    · show Function.update s.bkt p _ q = Function.update d.bkt p _ q
      by_cases heq : q = p
      · subst heq
        rw [Function.update_self, Function.update_self, h.bkt q hq]
      · rw [Function.update_of_ne heq, Function.update_of_ne heq, h.bkt q hq]
    · rw [writeShadow_shadow]
      dsimp only
      by_cases heq : i = st.place p (d.moved p)
      · subst heq
        rw [Function.update_self, Function.update_self]
      · rw [Function.update_of_ne heq, Function.update_of_ne heq, h.shadow i hi]
    · have hne : q ≠ p := fun heq => hnot (heq ▸ hp)
      show Function.update d.moved p _ q = _
      rw [Function.update_of_ne hne, h.distributed q hq hnot]
  · -- one string less is to be moved
    have hsum : ∑ q ∈ Finset.range s.parts, (s.strE q - s.strB q -
        Function.update s.moved p (s.moved p + 1) q) <
        ∑ q ∈ Finset.range s.parts, (s.strE q - s.strB q - s.moved q) := by
      refine Finset.sum_lt_sum (fun q _ => ?_) ⟨p, Finset.mem_range.mpr (hparts ▸ hlt), ?_⟩
      · by_cases heq : q = p
        · subst heq
          rw [Function.update_self]
          omega
        · rw [Function.update_of_ne heq]
      · rw [Function.update_self]
        omega
    rw [SampleSortJobs.rank_distribute hstage]
    show SampleSortJobs.rank T { s with
      bkt := _, moved := Function.update s.moved p (s.moved p + 1) } + 0 < _
    rw [SampleSortJobs.rank_distribute (s := { s with
      bkt := _, moved := Function.update s.moved p (s.moved p + 1) }) hstage]
    exact Nat.add_lt_add_right (Nat.add_lt_add_right (Nat.add_lt_add_left hsum _) _) _

/-- The step at the beginning of `distribute_finished`. -/
def SampleSortJobs.dealStart (s : SampleSortJobs) : SampleSortJobs :=
  let s := { s with
    bkt := Function.update s.bkt 0 (Function.update (s.bkt 0) sampleBktnum s.strptr.size)
    working := s.working + 1
    stage := .deal 0 }
  { s with history := [.create 0 (s.buckets.shape true)] }

theorem Memory.write_get (m : Memory S) {r : StringRange} {A : ℕ → S}
    (h : ∀ i < r.size, r.get m i = A i) : m.write r A = m := by
  have hsame : splice (m.strings r.array) r.begin r.size A = m.strings r.array := by
    funext p
    rw [splice]
    split
    · next hp =>
      rw [← h _ (by have := hp.1; have := hp.2; omega), StringRange.get, Nat.add_sub_cancel' hp.1]
    · rfl
  rw [Memory.write, hsame, Function.update_eq_self]

/-- When all strings have been moved, the buckets are a level. -/
theorem DistributeInv.distributeFinished_spec
    (h : Classified T cl P st splitters bucketOf g s) {shadow : ℕ → S}
    (hmoves : st.Invariant shadow d) (hfinished : st.Finished d)
    (hbkt : ∀ p < st.parts, s.bkt p = d.bkt p)
    (hshadow : ∀ i < st.size, (T.pointer P).shadow.get g.mem i = d.shadow i) :
    s.distributeFinished = some s.dealStart ∧ ∃ g', g'.mem = g.mem ∧ Effect P.window g g' ∧
      DealInv T cl 0 [] g' s.dealStart := by
  have hdist := hmoves.distributed hfinished
  have hzero : s.bkt 0 = d.bkt 0 := hbkt 0 st.parts_bounds.1
  have hne : (0 : ℕ) ≠ st.bktnum := by
    rw [h.bktnum]
    decide
  -- the first bucket of the first part begins at the first string
  have hassert : s.bkt 0 0 = 0 := by
    have hfirst := hdist.first
    rwa [SampleSortStep.boundaries, Function.update_of_ne hne, ← hzero] at hfirst
  refine ⟨by rw [SampleSortJobs.distributeFinished, if_pos hassert]; rfl, ?_⟩
  have hr := hdist.ok (a := ⟨st.boundaries d, d.shadow, s.classifier.lcp⟩) h.bucketed
    (by rw [h.bktnum, h.length]; rfl) h.bucketId (fun _ _ => rfl) rfl h.less_eq h.done_iff
  have hr' := hr.congr h.active
  rw [h.size] at hr'
  obtain ⟨g', hmem, he, hok, hpieces⟩ :=
    h.piece.sampleBuckets (a := s.classifier) h.length hr' rfl h.splitter
  have hbuckets : s.dealStart.buckets = ⟨T.pointer P, P.depth, s.classifier, st.boundaries d⟩ := by
    have hrow : s.dealStart.bkt 0 = Function.update (s.bkt 0) sampleBktnum s.strptr.size := by
      rw [SampleSortJobs.dealStart]
      dsimp only
      rw [Function.update_self]
    rw [← h.strptr, ← h.depth, SampleSortStep.boundaries, h.bktnum, ← hzero, ← h.size_eq,
      SampleSortJobs.buckets, hrow]
    rfl
  -- the strings are in the shadow array already, so the level changes no memory
  have hwrite : g'.mem = g.mem := hmem.trans (Memory.write_get _ fun i hi => by
    rw [hshadow i (h.size ▸ hi)])
  rw [← hbuckets] at hok hpieces
  have hlast := h.less_eq splitters.length le_rfl
  rw [lessLcp, if_pos (Or.inr le_rfl), h.length] at hlast
  have hwindow : s.dealStart.buckets.window = P.window := h.window_eq
  refine ⟨g', hwrite, he, hok, hlast, Nat.zero_le _, ?_⟩
  -- the level covers the window, and all its buckets are still to be dealt
  have hplan := JobPlan.first (k := s.dealStart.level 0) (g := g) (T := T)
    (by rwa [← hwindow] at he) rfl (hok.covers g') (hpieces true 0)
  rw [← List.nil_append [s.dealStart.level 0]] at hplan
  exact hplan.free

theorem DealInv.holds {i : ℕ} {subs : List WorkShare} (h : DealInv T cl i subs g s)
    (hstage : s.stage = .deal i) (hworking : s.working = subs.length + 1) :
    s.Holds T cl g subs := by
  rw [SampleSortJobs.Holds, hstage]
  exact ⟨h, hworking⟩

theorem SampleSortJobs.rank_deal {i : ℕ} (hstage : s.stage = .deal i) :
    s.rank T = rankScale * (s.level i).rank T + s.working + 4 := by
  rw [SampleSortJobs.rank, hstage]

/-- A `DistributeJob` has moved its strings. -/
theorem DistributeInv.finish_ok (h : DistributeInv T cl P st splitters bucketOf d todo g s)
    (hstage : s.stage = .distribute todo) (hworking : s.working = 0) (hp : p ∈ todo)
    (hdone : ¬ s.moved p < s.strE p - s.strB p) :
    ∃ o g', s.distribute todo p g.mem = some o ∧
      SortOutcome.Ok T (SampleSortJobs.Holds T cl) SampleSortJobs.share (SampleSortJobs.rank T) g s
        [] g' o := by
  have hlt := h.parts.lt p hp
  obtain ⟨hparts, hstrB, hstrE⟩ := h.classified.layout_eq
  obtain ⟨shadow, hmoves⟩ := h.moves
  have hsize : s.strE p - s.strB p = st.partSize p := by rw [hstrB, hstrE, SampleSortStep.partSize]
  -- the loop of the job ends behind its last string
  have hall : d.moved p = st.partSize p := by
    have hle := hmoves.moved_le p hlt
    rw [h.moved, hsize] at hdone
    omega
  have hdistributed : ∀ q < st.parts, q ∉ todo.erase p → d.moved q = st.partSize q := by
    intro q hq hnot
    by_cases heq : q = p
    · rw [heq, hall]
    · exact h.distributed q hq fun hin => hnot ((List.mem_erase_of_ne heq).mpr hin)
  have hlength := h.parts.pwork_eq
  have hpos := h.parts.pos
  set s' : SampleSortJobs := { s with
    pwork := s.pwork - 1, stage := .distribute (todo.erase p) } with hs'
  have hclassified : Classified T cl P st splitters bucketOf g s' :=
    h.classified.of_eq rfl rfl rfl rfl
  rw [SampleSortJobs.distribute, if_neg hdone]
  dsimp only
  split
  · -- the last `DistributeJob` goes on with `distribute_finished`
    next hlast =>
    have hnone : todo.erase p = [] := h.parts.last hp hlast
    obtain ⟨heq, g', hmem, he, hinv⟩ := DistributeInv.distributeFinished_spec hclassified hmoves
      (fun q hq => hdistributed q hq (by simp [hnone])) h.bkt h.shadow
    have hrank := hinv.ok.rank_le true 0
    rw [heq]
    refine ⟨_, g', rfl, hmem, ⟨?_, by simp⟩, rfl, hinv.holds rfl (congrArg (· + 1) hworking),
      by simp [SampleSortJobs.outcome], by simp [SampleSortJobs.outcome], ?_⟩
    · show Effect s.window _ _
      rwa [h.classified.window_eq]
    · rw [SampleSortJobs.rank_distribute hstage]
      show SampleSortJobs.rank T s'.dealStart + 0 < _
      rw [SampleSortJobs.rank_deal (s := s'.dealStart) rfl]
      have hworking' : s'.dealStart.working = 1 := congrArg (· + 1) hworking
      have hlevel : (s'.dealStart.level 0).rank T + T.total + 2 ^ 12 ≤
          T.windowRank s.window s.depth := hrank
      rw [hworking', rankScale]
      omega
  · next hmore =>
    refine ⟨_, g, rfl, rfl, Touches.refl _ _ _, rfl, DistributeInv.holds (d := d) { h with
        classified := hclassified
        parts := h.parts.erase hp hmore
        distributed := hdistributed } rfl hworking, by simp [SampleSortJobs.outcome],
      by simp [SampleSortJobs.outcome], ?_⟩
    rw [SampleSortJobs.rank_distribute hstage]
    show SampleSortJobs.rank T s' + 0 < _
    rw [SampleSortJobs.rank_distribute (s := s') rfl, List.length_erase_of_mem hp]
    show rankScale * (T.windowRank s.window s.depth - (T.total + 2 ^ 12)) +
      ∑ p ∈ Finset.range s.parts, (s.strE p - s.strB p - s.moved p) + (todo.length - 1) + 100 +
        0 < _
    omega

/-- A round of the loop of a `DistributeJob`, or its end. -/
theorem DistributeInv.distribute_ok (h : DistributeInv T cl P st splitters bucketOf d todo g s)
    (hstage : s.stage = .distribute todo) (hworking : s.working = 0) (hp : p ∈ todo) :
    ∃ o g', s.distribute todo p g.mem = some o ∧
      SortOutcome.Ok T (SampleSortJobs.Holds T cl) SampleSortJobs.share (SampleSortJobs.rank T) g s
        [] g' o := by
  by_cases hmore : s.moved p < s.strE p - s.strB p
  · exact h.round_ok hstage hworking hp hmore
  · exact h.finish_ok hstage hworking hp hmore

end Distribute

end StringSampleSort
