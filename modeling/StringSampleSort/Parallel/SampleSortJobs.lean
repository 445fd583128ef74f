import StringSampleSort.Parallel.SmallsortJob

/-!
# The jobs of a large sort

Model of `SampleSortStep` of `src/parallel/bingmann-parallel_sample_sort.hpp` with its jobs:
`sample`, `count`, `count_finished`, `distribute`, `distribute_finished` and `substep_all_done`, on
the memory.

The `CountJob`s of a step may run in any order, and its `DistributeJob`s move one string after the
other while those of other parts do the same.  `distribute_finished` deals with one bucket at a
time.

## Main results

- `SampleSortJobs.step`: the next action of the jobs of a step
- `SampleSortJobs.notifyDone`: `substep_notify_done`
-/

namespace StringSampleSort

open Library Slice SortTask

/-! ## States -/

/-- Where a step stands: the `SampleJob` is in the queue, the `CountJob`s or the `DistributeJob`s of
the parts `todo` have not finished, bucket `i` comes next in `distribute_finished`, the handle is
released, the step waits for substeps, is in `substep_all_done`, or is deleted. -/
inductive StepStage
  | sample
  | count (todo : List ℕ)
  | distribute (todo : List ℕ)
  | deal (i : ℕ)
  | release
  | waiting
  | allDone
  | finished
  deriving DecidableEq, Repr

/-- A `SampleSortStep` with its jobs.  `threshold` is `ctx.sequential_threshold()`, `moved` counts
how many strings of each part its `DistributeJob` has moved, `working` is `m_substep_working`, and
`part` names the part that the step sorts, among those of `pstep`. -/
structure SampleSortJobs where
  strptr : StringPtr
  depth : ℕ
  threshold : ℕ
  pwork : ℕ
  classifier : SplitterArrays
  bktcache : ℕ → ℕ → ℕ
  bkt : ℕ → ℕ → ℕ
  moved : ℕ → ℕ
  working : ℕ
  history : List (Event RangeCall)
  stage : StepStage
  part : ℕ × ℕ
  size_pos : 1 ≤ strptr.size
  threshold_pos : 1 ≤ threshold

namespace SampleSortJobs

/-- `SampleSortStep(ctx, pstep, strptr, depth)`. -/
def new (part : ℕ × ℕ) (strptr : StringPtr) (depth threshold : ℕ) (size_pos : 1 ≤ strptr.size)
    (threshold_pos : 1 ≤ threshold) : SampleSortJobs where
  strptr := strptr
  depth := depth
  threshold := threshold
  pwork := 0
  classifier := ⟨fun _ => 0, fun _ => 0, fun _ => 0⟩
  bktcache _ _ := 0
  bkt _ _ := 0
  moved _ := 0
  working := 0
  history := []
  stage := .sample
  part := part
  size_pos := size_pos
  threshold_pos := threshold_pos

section Members

variable (s : SampleSortJobs)

/-- How the strings are cut into parts. -/
def layout : SampleSortStep Unit where
  size := s.strptr.size
  sequentialThreshold := s.threshold
  bktnum := 1
  active _ := ()
  bucketId _ := 0
  size_pos := s.size_pos
  threshold_pos := s.threshold_pos
  bucketId_lt _ _ := Nat.one_pos

/-- `parts`. -/
def parts : ℕ := s.layout.parts

/-- `strB` of part `p`. -/
def strB (p : ℕ) : ℕ := s.layout.strB p

/-- `strE` of part `p`. -/
def strE (p : ℕ) : ℕ := s.layout.strE p

/-- The step when the strings are in their buckets: `bkt` is that of part 0. -/
def buckets : SampleBuckets where
  strptr := s.strptr
  depth := s.depth
  classifier := s.classifier
  bkt := s.bkt 0

/-- `substep_notify_done()`. -/
def notifyDone : SampleSortJobs :=
  { s with
    working := s.working - 1
    stage := if s.working - 1 = 0 then .allDone else s.stage }

/-- `pstep->substep_notify_done()` by the substep for a part. -/
def joined (part : ℕ × ℕ) : SampleSortJobs :=
  { s with history := .notify part.1 part.2 :: s.history }.notifyDone

/-- Nothing but the step has changed. -/
def outcome {S : Type} (m : Memory S) : SortOutcome S SampleSortJobs := ⟨m, s, [], []⟩

end Members

end SampleSortJobs

/-! ## Jobs -/

section Model

variable {S : Type} (cls : StringPtrClass) (ss : StringSet S) (cl : ClassifierClass)

/-- A round of the loops of `distribute_finished`. -/
def dealBucket (s : SampleBuckets) (i : ℕ) (f : FreeState S) : Option (FreeState S) :=
  let bktsize := s.bktsize i
  let sp := s.bucketPtr i
  if bktsize = 0 then some f
  else if bktsize = 1 then -- just one string pointer, copyback
    some (f.finish 0 i (cls.copyBack sp f.mem).2)
  else if i < sampleBktnum - 1 then
    -- i is even -> bkt[i] is less-than bucket
    if i % 2 = 0 then
      some (f.enqueue 0 i sp (s.depth + (s.classifier.lcp (i / 2) &&& 0x7F).toNat))
    -- i is odd -> bkt[i] is equal bucket
    else if s.classifier.lcp (i / 2) &&& 0x80 ≠ 0 then
      -- equal-bucket has NULL-terminated key, done.
      (s.fillDone cls cl true i f.mem).map fun m => f.finish 0 i m
    else some (f.enqueue 0 i sp (s.depth + 8))
  else some (f.enqueue 0 i sp s.depth)

namespace SampleSortJobs

/-- `sample(ctx)`. -/
def sample (rng : ℕ → ℕ) (m : Memory S) (s : SampleSortJobs) : SortOutcome S SampleSortJobs where
  mem := m
  proc := { s with
    classifier :=
      stepClassifier ss cl defaultTreebits rng (s.strptr.active.get m) s.strptr.size s.depth
    -- create new jobs
    pwork := s.parts
    stage := .count (List.range s.parts) }
  enqueued := []
  calls := [((s.strptr, s.depth), m)]

/-- `count_finished(ctx)`.  No result means that an assertion fails. -/
def countFinished (s : SampleSortJobs) : Option SampleSortJobs :=
  -- inclusive prefix sum over bkt
  let r := prefixSums sampleBktnum s.parts s.bkt
  if r.1 = s.strptr.size then
    -- create new jobs
    some { s with
      bkt := r.2
      moved := fun _ => 0
      pwork := s.parts
      stage := .distribute (List.range s.parts) }
  else none

/-- `count(p, ctx)`. -/
def count (todo : List ℕ) (p : ℕ) (m : Memory S) (s : SampleSortJobs) : Option SampleSortJobs :=
  let n := s.strE p - s.strB p
  let strings := slice (s.strptr.active.get m) (s.strB p) n
  ((cl.instantiate defaultTreebits).classify s.classifier
      (strings.map fun str => getUint64 ss str s.depth)).bind fun bktcache =>
    let mybktcache := fun j => bktcache.getD j 0
    let mybkt := (List.range n).foldl
      (fun mybkt j => Function.update mybkt (mybktcache j) (mybkt (mybktcache j) + 1)) fun _ => 0
    let s := { s with
      bktcache := Function.update s.bktcache p mybktcache
      bkt := Function.update s.bkt p mybkt
      pwork := s.pwork - 1
      stage := .count (todo.erase p) }
    if s.pwork = 0 then s.countFinished else some s

/-- The beginning of `distribute_finished(ctx)`.  No result means that an assertion fails. -/
def distributeFinished (s : SampleSortJobs) : Option SampleSortJobs :=
  if s.bkt 0 0 = 0 then
    let s := { s with
      -- first processor's bkt pointers are boundaries between bkts, just add sentinel
      bkt := Function.update s.bkt 0 (Function.update (s.bkt 0) sampleBktnum s.strptr.size)
      -- keep anonymous subjob handle while creating subjobs
      working := s.working + 1
      stage := .deal 0 }
    some { s with history := [.create 0 (s.buckets.shape true)] }
  else none

/-- A round of the loop of `distribute(p, ctx)`, or its end. -/
def distribute (todo : List ℕ) (p : ℕ) (m : Memory S) (s : SampleSortJobs) :
    Option (SortOutcome S SampleSortJobs) :=
  if s.moved p < s.strE p - s.strB p then
    -- *(sbegin + --mybkt[*mybktcache]) = std::move(*str);
    let b := s.bktcache p (s.moved p)
    let place := s.bkt p b - 1
    let str := s.strptr.active.get m (s.strB p + s.moved p)
    some ({ s with
        bkt := Function.update s.bkt p (Function.update (s.bkt p) b place)
        moved := Function.update s.moved p (s.moved p + 1) }.outcome
      (m.write (s.strptr.shadow.subi place (place + 1)) fun _ => str))
  else
    let s := { s with pwork := s.pwork - 1, stage := .distribute (todo.erase p) }
    (if s.pwork = 0 then s.distributeFinished else some s).map fun s => s.outcome m

/-- A round of the loops of `distribute_finished`, or their end. -/
def deal (i : ℕ) (m : Memory S) (s : SampleSortJobs) : Option (SortOutcome S SampleSortJobs) :=
  if i < sampleBktnum then
    (dealBucket cls cl s.buckets i ⟨m, s.working, s.history, []⟩).map fun f =>
      ⟨f.mem, { s with working := f.working, history := f.history, stage := .deal (i + 1) },
        f.enqueued, []⟩
  else some ({ s with stage := .release }.outcome m)

/-- The next action of the jobs of a step: that of part `p`, where there are several.  No result
means that an assertion fails, or that there is no such action. -/
def step (inp : JobInput) (p : ℕ) (m : Memory S) (s : SampleSortJobs) :
    Option (SortOutcome S SampleSortJobs) :=
  match s.stage with
  | .sample => some (s.sample ss cl inp.rng m)
  | .count todo =>
    if todo.contains p then (s.count ss cl todo p m).map fun s => s.outcome m else none
  | .distribute todo => if todo.contains p then s.distribute todo p m else none
  | .deal i => s.deal cls cl i m
  | .release =>
    -- release anonymous subjob handle
    if s.working > 0 then some ({ s with stage := .waiting }.notifyDone.outcome m) else none
  | .waiting => none
  | .allDone =>
    (s.buckets.calculateLcp cls ss cl m).map fun m =>
      { s with history := .calculate 0 :: s.history, stage := .finished }.outcome m
  | .finished => none

end SampleSortJobs

end Model

end StringSampleSort
