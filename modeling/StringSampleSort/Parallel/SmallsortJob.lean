import StringSampleSort.Parallel.FreedWork
import StringSampleSort.Parallel.MkqsSort
import StringSampleSort.Parallel.SampleStep
import StringSampleSort.Parallel.Termination

/-!
# The job that sorts a small range

Model of `SmallsortJob` of `src/parallel/bingmann-parallel_sample_sort.hpp`: `run`,
`sort_sample_sort`, the loop of `sort_mkqs_cache`, the freeing of work, and `substep_all_done`.

A job runs in actions: a round of one of the loops, the question whether a thread is idle, a bucket
or a step whose work is freed, and a step whose LCPs are calculated at the end.  Between the actions
of a job those of other jobs may come in any order.

## Main results

- `SmallsortJob.step`: the next action of a job
- `SmallsortJob.notifyDone`: `substep_notify_done`
-/

namespace StringSampleSort

open Library SortTask

/-! ## States -/

/-- `enable_sequential_sample_sort`. -/
def enableSequentialSampleSort : Bool := true

/-- `use_work_sharing`. -/
def useWorkSharing : Bool := true

/-- The two loops of a job.  `sort_mkqs_cache` is called by `run`, or nested in
`sort_sample_sort`. -/
inductive JobLoop
  | sampleSort
  | mkqs (nested : Bool)
  deriving DecidableEq, Repr

/-- Where a job stands: in the queue, at the head of a loop, at the question whether a thread is
idle, in `sample_sort_free_work` or in round `fl` of `mkqs_free_work`, before the release of the
wrapper job, waiting for substeps, in `substep_all_done`, or deleted. -/
inductive JobPhase
  | queued
  | loop (l : JobLoop)
  | poll (l : JobLoop)
  | freeSample (l : JobLoop)
  | freeMkqs (l : JobLoop) (fl : ℕ)
  | release
  | waiting
  | allDone
  | finished
  deriving DecidableEq, Repr

/-- `SmallsortJob`.  The last step of a stack comes first; `working` is `m_substep_working`, and
`part` names the part that the job sorts, among those of `pstep`. -/
structure SmallsortJob extends MkqsMembers where
  keys : ℕ → KeyType
  in_strptr : StringPtr
  in_depth : ℕ
  ss_pop_front : ℕ
  ss_stack : List SeqSampleSortStep
  working : ℕ
  phase : JobPhase
  part : ℕ × ℕ

/-- What a job depends on besides the memory: the answer of `has_idle()`, the numbers that are drawn
for a sample, what a new buffer contains, and the keys that are read where bucket ids have been
written to the buffer. -/
structure JobInput where
  idle : Bool
  rng : ℕ → ℕ
  fresh : ℕ → KeyType
  garbage : ℕ → KeyType

/-- What an action leaves: the memory, the state `P` of the sort step, what it has enqueued, and the
calls that it has made, with the memory at that time. -/
structure SortOutcome (S P : Type) where
  mem : Memory S
  proc : P
  enqueued : List EnqueuedWork
  calls : List (RangeCall × Memory S)

/-- `SmallsortJob(pstep, strptr, depth)`. -/
def SmallsortJob.new (part : ℕ × ℕ) (strptr : StringPtr) (depth : ℕ) : SmallsortJob where
  bktcache_size := 0
  ms_pop_front := 0
  ms_stack := []
  created := 0
  history := []
  keys _ := 0
  in_strptr := strptr
  in_depth := depth
  ss_pop_front := 0
  ss_stack := []
  working := 0
  phase := .queued
  part := part

namespace SmallsortJob

section Members

variable {S : Type} (j : SmallsortJob)

/-- The state of `sort_mkqs_cache`. -/
def mkqsState (m : Memory S) : MkqsState S :=
  { toMkqsMembers := j.toMkqsMembers, mem := m, keys := j.keys, entries := [] }

/-- The job after `sort_mkqs_cache` has gone on to a state. -/
def withMkqs (s : MkqsState S) : SmallsortJob :=
  { j with toMkqsMembers := s.toMkqsMembers, keys := s.keys }

/-- The job after an event. -/
def note (e : Event RangeCall) : SmallsortJob := { j with history := e :: j.history }

/-- `substep_notify_done()`. -/
def notifyDone : SmallsortJob :=
  { j with
    working := j.working - 1
    phase := if j.working - 1 = 0 then .allDone else j.phase }

/-- `pstep->substep_notify_done()` by the substep for a part. -/
def joined (part : ℕ × ℕ) : SmallsortJob := (j.note (.notify part.1 part.2)).notifyDone

/-- Nothing but the job has changed. -/
def outcome (m : Memory S) : SortOutcome S SmallsortJob := ⟨m, j, [], []⟩

/-- Parts of a level have been dealt with. -/
def freed (f : FreeState S) : SortOutcome S SmallsortJob :=
  ⟨f.mem, { j with working := f.working, history := f.history }, f.enqueued, []⟩

end Members

end SmallsortJob

/-- The calls of the steps and insertion sorts that have been entered. -/
def MkqsState.calls {S : Type} (s : MkqsState S) : List (RangeCall × Memory S) :=
  s.entries.map fun e => ((e.strptr, e.depth), e.memory.mem)

/-! ## Actions -/

section Model

variable {S : Type} (cls : StringPtrClass) (ss : StringSet S) (cl : ClassifierClass)

/-- Bucket `i` of a step in `sample_sort_free_work`. -/
def freeBucket (s : SeqSampleSortStep) (i : ℕ) (f : FreeState S) : Option (FreeState S) :=
  let bktsize := s.bktsize i
  let sp := s.bucketPtr i
  -- i is even -> bkt[i] is less-than bucket
  if i % 2 = 0 then
    if bktsize = 0 then some f
    else some (f.enqueue s.level i sp (s.depth + (s.classifier.lcp (i / 2) &&& 0x7F).toNat))
  -- i is odd -> bkt[i] is equal bucket
  else
    if bktsize = 0 then some f
    else if s.classifier.lcp (i / 2) &&& 0x80 ≠ 0 then
      -- equal-bucket has NULL-terminated key, done.
      (s.fillDone cls cl cls.withLcp i f.mem).map fun m => f.finish s.level i m
    else some (f.enqueue s.level i sp (s.depth + 8))

/-- The parts of a step in `mkqs_free_work`.  No result means that an assertion fails. -/
def freeAreas (ms : MKQSStep) (f : FreeState S) : Option (FreeState S) :=
  let f :=
    if ms.idx = 0 ∧ ms.num_lt ≠ 0 then f.enqueue ms.level 0 (ms.strptr.sub 0 ms.num_lt) ms.depth
    else f
  let eq : Option (FreeState S) :=
    if ms.idx ≤ 1 then -- st.num_eq > 0 always
      if ms.num_eq > 0 then
        let sp := ms.strptr.sub ms.num_lt ms.num_eq
        if ms.eq_recurse then some (f.enqueue ms.level 1 sp (ms.depth + 8))
        else
          let spb := cls.copyBack sp f.mem
          some (f.finish ms.level 1 (cls.fillLcp spb.1 (ms.depth + ms.lcp_eq) spb.2))
      else none
    else some f
  eq.map fun f =>
    if ms.idx ≤ 2 ∧ ms.num_gt ≠ 0 then
      f.enqueue ms.level 2 (ms.strptr.sub (ms.num_lt + ms.num_eq) ms.num_gt) ms.depth
    else f

namespace SmallsortJob

/-- `sort_mkqs_cache(ctx, strptr, depth)` up to the head of its loop, or up to its end.  `bucket` is
the bucket that is sorted when the call is nested. -/
def callMkqs (inp : JobInput) (bucket : Option (ℕ × ℕ)) (strptr : StringPtr) (depth : ℕ)
    (m : Memory S) (j : SmallsortJob) : Option (SortOutcome S SmallsortJob) :=
  (callMkqsCache cls ss inp.fresh bucket strptr depth (j.mkqsState m)).map fun r =>
    { mem := r.2.mem
      proc := { j.withMkqs r.2 with
        phase :=
          if r.1 then .loop (.mkqs bucket.isSome)
          else if bucket.isSome then .poll .sampleSort else .release }
      enqueued := []
      calls := ((strptr, depth), m) :: r.2.calls }

/-- `ss_stack.emplace_back(ctx, strptr, depth, bktcache)`, after which the job is at `phase`. -/
def emplaceSample (inp : JobInput) (phase : JobPhase) (strptr : StringPtr) (depth : ℕ)
    (m : Memory S) (j : SmallsortJob) : Option (SortOutcome S SmallsortJob) :=
  (newSampleStep ss cl inp.rng j.created strptr depth m).map fun r =>
    { mem := r.2
      proc := { j.note (.create j.created (r.1.shape false)) with
        ss_stack := r.1 :: j.ss_stack
        created := j.created + 1
        keys := inp.garbage
        phase := phase }
      enqueued := []
      calls := [((strptr, depth), m)] }

/-- `run(ctx)` up to the head of a loop, or up to the release of the wrapper job. -/
def run (inp : JobInput) (m : Memory S) (j : SmallsortJob) : Option (SortOutcome S SmallsortJob) :=
  let n := j.in_strptr.size
  -- create anonymous wrapper job
  let j := { j with
    working := j.working + 1, bktcache_size := 0, ss_pop_front := 0, ms_pop_front := 0 }
  if enableSequentialSampleSort && n ≥ smallsortThreshold then
    let j := { j with keys := inp.fresh, bktcache_size := n * 2 }
    if j.ss_pop_front = 0 ∧ j.ss_stack.length = 0 then
      -- sort first level
      emplaceSample ss cl inp (.loop .sampleSort) j.in_strptr j.in_depth m j
    else none
  else callMkqs cls ss inp none j.in_strptr j.in_depth m j

/-- Bucket `i` of step `s`, which is not empty, is sorted from a depth on. -/
def sortBucket (inp : JobInput) (s : SeqSampleSortStep) (i depth : ℕ) (m : Memory S)
    (j : SmallsortJob) : Option (SortOutcome S SmallsortJob) :=
  let sp := s.bucketPtr i
  if s.bktsize i < smallsortThreshold then
    callMkqs cls ss inp (some (s.level, i)) sp depth m j
  else
    emplaceSample ss cl inp (.poll .sampleSort) sp depth m
      (j.note (.deal s.level i (.pushed j.created (sp, depth))))

/-- One round of the `while` loop of `sort_sample_sort`, up to the question whether a thread is
idle. -/
def sampleRound (inp : JobInput) (m : Memory S) (j : SmallsortJob) :
    Option (SortOutcome S SmallsortJob) :=
  match j.ss_stack with
  | [] => none
  | top :: rest =>
    let i := top.idx
    let s := { top with idx := top.idx + 1 } -- process the bucket s.idx
    let j := { j with ss_stack := s :: rest, phase := .poll .sampleSort }
    if i < sampleBktnum then
      let bktsize := s.bktsize i
      -- i is even -> bkt[i] is less-than bucket
      if i % 2 = 0 then
        if bktsize = 0 then some (j.outcome m)
        else if bktsize < smallsortThreshold ∧ ¬ i / 2 ≤ numsplitters defaultTreebits then none
        else sortBucket cls ss cl inp s i (s.depth + (s.classifier.lcp (i / 2) &&& 0x7F).toNat) m j
      -- i is odd -> bkt[i] is equal bucket
      else
        if bktsize = 0 then some (j.outcome m)
        else if s.classifier.lcp (i / 2) &&& 0x80 ≠ 0 then
          -- equal-bucket has NULL-terminated key, done.
          (s.fillDone cls cl cls.withLcp i m).map (j.note (.deal s.level i .filled)).outcome
        else sortBucket cls ss cl inp s i (s.depth + 8) m j
    else
      -- after full sort: calculate LCPs at this level
      (s.calculateLcp cls ss cl m).map
        ({ j with ss_stack := rest }.note (.calculate s.level)).outcome

/-- A round of a loop, or its end. -/
def loopRound (inp : JobInput) (m : Memory S) (j : SmallsortJob) :
    JobLoop → Option (SortOutcome S SmallsortJob)
  | .sampleSort =>
    if j.ss_stack.length > j.ss_pop_front then sampleRound cls ss cl inp m j
    else some ({ j with phase := .release }.outcome m)
  | .mkqs nested =>
    if j.ms_stack.length > j.ms_pop_front then
      (mkqsRound cls ss (j.mkqsState m)).map fun s =>
        ⟨s.mem, { j.withMkqs s with phase := .poll (.mkqs nested) }, [], s.calls⟩
    else some ({ j with phase := if nested then .poll .sampleSort else .release }.outcome m)

/-- `if (use_work_sharing && ctx.jobqueue.has_idle()) sample_sort_free_work(ctx);`, up to the stack
that is freed. -/
def pollIdle (inp : JobInput) (m : Memory S) (j : SmallsortJob) (l : JobLoop) :
    Option (SortOutcome S SmallsortJob) :=
  if useWorkSharing && inp.idle then
    if j.ss_stack.length ≥ j.ss_pop_front then
      if j.ss_stack.length = j.ss_pop_front then
        -- ss_stack is empty, check other stack
        if j.ms_stack.length ≥ j.ms_pop_front then
          some ({ j with phase := .freeMkqs l 0 }.outcome m)
        else none
      else some ({ j with phase := .freeSample l }.outcome m)
    else none
  else some ({ j with phase := .loop l }.outcome m)

/-- A round of the `while` loop of `sample_sort_free_work`, or its end. -/
def sampleFreeWork (m : Memory S) (j : SmallsortJob) (l : JobLoop) :
    Option (SortOutcome S SmallsortJob) :=
  let k := j.ss_stack.length - j.ss_pop_front - 1
  match j.ss_stack.drop k with
  | [] => none
  | s :: below =>
    if s.idx < sampleBktnum then
      let j := { j with ss_stack := j.ss_stack.take k ++ { s with idx := s.idx + 1 } :: below }
      (freeBucket cls cl s s.idx ⟨m, j.working, j.history, []⟩).map j.freed
    else
      -- shorten the current stack
      some ({ j with ss_pop_front := j.ss_pop_front + 1, phase := .loop l }.outcome m)

/-- Round `fl` of `mkqs_free_work`. -/
def mkqsFreeWork (m : Memory S) (j : SmallsortJob) (l : JobLoop) (fl : ℕ) :
    Option (SortOutcome S SmallsortJob) :=
  if fl < 8 ∧ j.ms_stack.length ≠ j.ms_pop_front then
    match j.ms_stack.drop (j.ms_stack.length - j.ms_pop_front - 1) with
    | [] => none
    | ms :: _ =>
      -- shorten the current stack
      let j := { j with ms_pop_front := j.ms_pop_front + 1, phase := .freeMkqs l (fl + 1) }
      (freeAreas cls ms ⟨m, j.working, j.history, []⟩).map j.freed
  else some ({ j with phase := .loop l }.outcome m)

/-- A round of the loops of `substep_all_done()`, or their end. -/
def substepAllDone (m : Memory S) (j : SmallsortJob) : Option (SortOutcome S SmallsortJob) :=
  if j.ms_pop_front > 0 then
    match j.ms_stack.drop (j.ms_stack.length - j.ms_pop_front) with
    | [] => none
    | ms :: _ =>
      some (({ j with ms_pop_front := j.ms_pop_front - 1 }.note (.calculate ms.level)).outcome
        (ms.calculateLcp cls m))
  else if j.ss_pop_front > 0 then
    match j.ss_stack.drop (j.ss_stack.length - j.ss_pop_front) with
    | [] => none
    | s :: _ =>
      (s.calculateLcp cls ss cl m).map
        ({ j with ss_pop_front := j.ss_pop_front - 1 }.note (.calculate s.level)).outcome
  else some ({ j with phase := .finished }.outcome m)

/-- The next action of a job.  No result means that an assertion fails, or that the job has nothing
to do. -/
def step (inp : JobInput) (m : Memory S) (j : SmallsortJob) : Option (SortOutcome S SmallsortJob) :=
  match j.phase with
  | .queued => run cls ss cl inp m j
  | .loop l => loopRound cls ss cl inp m j l
  | .poll l => pollIdle inp m j l
  | .freeSample l => sampleFreeWork cls cl m j l
  | .freeMkqs l fl => mkqsFreeWork cls m j l fl
  | .release =>
    -- finish wrapper job
    if j.working > 0 then some ({ j with phase := .waiting }.notifyDone.outcome m) else none
  | .waiting => none
  | .allDone => substepAllDone cls ss cl m j
  | .finished => none

end SmallsortJob

end Model

end StringSampleSort
