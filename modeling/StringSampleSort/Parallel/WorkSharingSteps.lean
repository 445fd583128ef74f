import StringSampleSort.Parallel.WorkSharing

/-!
# The actions of a small sort as those of a worker

Every action of a `SmallsortJob`, and every report that a substep has finished, is a run of the
worker that its stacks are.  So all that holds for the worker holds for the job, whatever it sorts.

## Main results

- `JobRun.Ok`: what holds of a job, where it stands
- `JobRun.Ok.action`, `JobRun.Ok.notify`: what happens to a job
-/

namespace StringSampleSort

open Library

/-! ## Conditions -/

/-- The stacks `k` are those of the job, and the worker reaches them. -/
structure JobRun.Inv (k : JobStacks) (r : JobRun) : Prop where
  ms_stack : r.job.ms_stack = k.ml ++ k.mf
  ms_pop_front : r.job.ms_pop_front = k.mf.length
  ss_stack : r.job.ss_stack = k.sl ++ (k.cur ++ k.sf)
  ss_pop_front : r.job.ss_pop_front = k.sf.length
  idx : ∀ ms ∈ k.ml, ms.idx ≤ 3
  done : ∀ s ∈ k.sf, sampleBktnum ≤ s.idx
  exclusive : k.mf ≠ [] → k.sl = [] ∧ k.cur = []
  runs : WorkerReaches (k.workStack r)

/-- Nothing is outstanding, and the levels `mf` and `sf` have still to be closed. -/
structure JobRun.AllDone (sf : List SeqSampleSortStep) (mf : List MKQSStep) (r : JobRun) :
    Prop where
  ms_stack : ∃ done, r.job.ms_stack = done ++ mf
  ms_pop_front : r.job.ms_pop_front = mf.length
  ss_stack : ∃ done, r.job.ss_stack = done ++ sf
  ss_pop_front : r.job.ss_pop_front = sf.length
  done : ∀ s ∈ sf, sampleBktnum ≤ s.idx
  runs : WorkerReaches
    ⟨[], mf.map (MKQSStep.frame ∘ MKQSStep.freed) ++ sf.map SeqSampleSortStep.frame, [],
      r.job.created, r.job.history⟩

/-- What holds of a job and its substeps. -/
def JobRun.Ok (r : JobRun) : Prop :=
  match r.job.phase with
  | .queued => r.outstanding = [] ∧ ∃ part strptr depth, r.job = .new part strptr depth
  | .allDone => r.outstanding = [] ∧ r.job.working = 0 ∧ ∃ sf mf, r.AllDone sf mf
  | .finished => r.outstanding = [] ∧ r.job.working = 0 ∧
      WorkerReaches ⟨[], [], [], r.job.created, r.job.history⟩
  | phase => ∃ k, r.Inv k ∧ k.At r.outstanding.length r.job.working phase

section Steps

variable {S : Type} {cls : StringPtrClass} {ss : StringSet S} {cl : ClassifierClass} {r : JobRun}
  {k : JobStacks} {o : SortOutcome S SmallsortJob} {m : Memory S} {inp : JobInput} {l : JobLoop}
  {base : ℕ} {top : SeqSampleSortStep} {rest sf : List SeqSampleSortStep} {mf : List MKQSStep}
  {strptr : StringPtr} {depth : ℕ}

theorem JobRun.after_outcome (r : JobRun) (j : SmallsortJob) (m : Memory S) :
    r.after (j.outcome m) = ⟨j, r.outstanding⟩ := by
  rw [JobRun.after, SmallsortJob.outcome, List.append_nil]

namespace JobRun

/-- The condition of a job that runs or waits. -/
theorem Inv.ok (h : r.Inv k) (hat : k.At r.outstanding.length r.job.working r.job.phase) :
    r.Ok := by
  rw [Ok]
  cases hphase : r.job.phase with
  | queued => rw [hphase] at hat; exact hat.elim
  | allDone => rw [hphase] at hat; exact hat.elim
  | finished => rw [hphase] at hat; exact hat.elim
  | _ => exact ⟨k, h, hphase ▸ hat⟩

/-- The job goes on elsewhere. -/
theorem Inv.goto_ok (phase : JobPhase) (h : r.Inv k)
    (hat : k.At r.outstanding.length r.job.working phase) (m : Memory S) :
    (r.after ({ r.job with phase := phase }.outcome m)).Ok := by
  rw [after_outcome]
  exact Inv.ok (k := k) ⟨h.ms_stack, h.ms_pop_front, h.ss_stack, h.ss_pop_front, h.idx, h.done,
    h.exclusive, h.runs⟩ hat

/-! ## Steps of sample sort -/

/-- A new step has dealt with none of its buckets. -/
theorem newSampleStep_start {rng : ℕ → ℕ} {level : ℕ} {q : SeqSampleSortStep × Memory S}
    (h : newSampleStep ss cl rng level strptr depth m = some q) :
    q.1.frame = ⟨level, q.1.shape false, 0⟩ := by
  rw [newSampleStep] at h
  obtain ⟨r, -, rfl⟩ := Option.map_eq_some_iff.mp h
  rfl

/-- A bucket that is not empty is sorted, or becomes a step. -/
theorem sortBucket_ok (h : r.Inv ⟨base, top :: rest, [], sf, [], []⟩)
    (hworking : r.job.working = r.outstanding.length + 1) (hidx : top.idx < sampleBktnum)
    (hsize : top.bktsize top.idx ≠ 0) (hdone : top.classifier.done top.idx = false)
    (hsort : SmallsortJob.sortBucket cls ss cl inp top.next top.idx
      (top.classifier.bucketDepth top.depth top.idx) m
      { r.job with ss_stack := top.next :: (rest ++ sf), phase := .poll .sampleSort } = some o) :
    (r.after o).Ok := by
  have hcall := bucket_call hdone
  have hruns : WorkerReaches ⟨top.frame :: rest.map SeqSampleSortStep.frame,
      sf.map SeqSampleSortStep.frame, r.outstanding.map EnqueuedWork.entry, r.job.created,
      r.job.history⟩ := h.runs
  rw [SmallsortJob.sortBucket] at hsort
  dsimp only at hsort
  split at hsort
  · obtain ⟨q, hq, rfl⟩ := Option.map_eq_some_iff.mp hsort
    obtain ⟨new, hnew, hnone⟩ := callMkqsCache_runs
      (hruns.step (.deal (f := top.frame) (d := .sorted _) hidx hsize hcall.symm trivial))
      (fun sh => hruns.step (.push (f := top.frame) sh hidx hsize hcall)) hq
    have hstack : q.2.ms_stack = new ++ [] := by
      rw [hnew.stack]
      exact congrArg (new ++ ·) h.ms_stack
    refine Inv.ok (k := ⟨base, top.next :: rest, [], sf, new, []⟩) ⟨hstack,
      hnew.pop_front.trans h.ms_pop_front, rfl, h.ss_pop_front, hnew.idx, h.done, by simp, ?_⟩ ?_
    · rw [JobRun.after, List.append_nil]
      exact hnew.runs
    · rw [JobRun.after, List.append_nil]
      rcases q with ⟨_ | _, s⟩
      · exact ⟨rfl, hnone rfl, hworking⟩
      · exact ⟨rfl, by simp [JobStacks.InLoop], hworking⟩
  · obtain ⟨q, hq, rfl⟩ := Option.map_eq_some_iff.mp hsort
    have hframe := newSampleStep_start hq
    refine Inv.ok (k := ⟨base, q.1 :: top.next :: rest, [], sf, [], []⟩) ⟨h.ms_stack,
      h.ms_pop_front, rfl, h.ss_pop_front, by simp, h.done, by simp, ?_⟩ ?_
    · have hpush := hruns.step (.push (f := top.frame) (q.1.shape false) hidx hsize hcall)
      rw [JobRun.after, JobStacks.workStack, List.append_nil, List.map_cons, hframe]
      exact hpush
    · rw [JobRun.after, List.append_nil]
      exact ⟨rfl, rfl, hworking⟩

/-- A round of the loop of `sort_sample_sort`. -/
theorem sampleRound_ok (h : r.Inv ⟨base, top :: rest, [], sf, [], []⟩)
    (hworking : r.job.working = r.outstanding.length + 1)
    (hround : SmallsortJob.sampleRound cls ss cl inp m r.job = some o) : (r.after o).Ok := by
  have hruns : WorkerReaches ⟨top.frame :: rest.map SeqSampleSortStep.frame,
      sf.map SeqSampleSortStep.frame, r.outstanding.map EnqueuedWork.entry, r.job.created,
      r.job.history⟩ := h.runs
  -- the next bucket has been dealt with, or is empty
  have hnext (history : List (Event RangeCall)) (hreach : WorkerReaches
      ⟨top.next.frame :: rest.map SeqSampleSortStep.frame, sf.map SeqSampleSortStep.frame,
        r.outstanding.map EnqueuedWork.entry, r.job.created, history⟩) (m' : Memory S) :
      (r.after (SmallsortJob.outcome { r.job with
        ss_stack := top.next :: (rest ++ sf), phase := .poll .sampleSort, history } m')).Ok := by
    rw [after_outcome]
    exact Inv.ok (k := ⟨base, top.next :: rest, [], sf, [], []⟩) ⟨h.ms_stack, h.ms_pop_front, rfl,
      h.ss_pop_front, by simp, h.done, by simp, hreach⟩ ⟨rfl, rfl, hworking⟩
  rw [SmallsortJob.sampleRound, show r.job.ss_stack = top :: (rest ++ sf) from h.ss_stack] at hround
  dsimp only at hround
  split at hround
  next hidx =>
    split at hround
    next heven =>
      have hdepth : top.classifier.bucketDepth top.depth top.idx = _ := if_pos heven
      have hdone : top.classifier.done top.idx = false := decide_eq_false fun hodd => by omega
      split at hround
      next hsize =>
        obtain rfl := Option.some_inj.mp hround
        exact hnext _ (hruns.step (.skip (f := top.frame) hsize)) m
      next hsize =>
        obtain ⟨-, hround⟩ := Option.ite_none_left_eq_some.mp hround
        rw [← hdepth] at hround
        exact sortBucket_ok h hworking hidx hsize hdone hround
    next hodd =>
      have hdepth : top.classifier.bucketDepth top.depth top.idx = _ := if_neg hodd
      split at hround
      next hsize =>
        obtain rfl := Option.some_inj.mp hround
        exact hnext _ (hruns.step (.skip (f := top.frame) hsize)) m
      next hsize =>
        split at hround
        next hset =>
          obtain ⟨m', -, rfl⟩ := Option.map_eq_some_iff.mp hround
          have hdone : top.classifier.done top.idx = true := decide_eq_true ⟨by omega, hset⟩
          exact hnext _ (hruns.step (.deal (f := top.frame) (d := .filled) hidx hsize
            (bucket_done hdone).symm trivial)) m'
        next hset =>
          have hdone : top.classifier.done top.idx = false := decide_eq_false fun hc => hset hc.2
          rw [← hdepth] at hround
          exact sortBucket_ok h hworking hidx hsize hdone hround
  next hidx =>
    -- all buckets have been dealt with
    obtain ⟨m', -, rfl⟩ := Option.map_eq_some_iff.mp hround
    rw [after_outcome]
    exact Inv.ok (k := ⟨base, rest, [], sf, [], []⟩) ⟨h.ms_stack, h.ms_pop_front, rfl,
      h.ss_pop_front, by simp, h.done, by simp,
      hruns.step (.close (f := top.frame) (not_lt.mp hidx))⟩ ⟨rfl, rfl, hworking⟩

/-- A round of a loop, or its end. -/
theorem loopRound_ok (h : r.Inv k) (hat : k.At r.outstanding.length r.job.working (.loop l))
    (hround : SmallsortJob.loopRound cls ss cl inp m r.job l = some o) : (r.after o).Ok := by
  have hss : r.job.ss_stack.length = k.sl.length + k.cur.length + r.job.ss_pop_front := by
    rw [h.ss_stack, h.ss_pop_front, List.length_append, List.length_append, Nat.add_assoc]
  have hms : r.job.ms_stack.length = k.ml.length + r.job.ms_pop_front := by
    rw [h.ms_stack, h.ms_pop_front, List.length_append]
  have hat₀ := hat
  obtain ⟨hcur, hloop, hworking⟩ := hat
  obtain ⟨base, sl, cur, sf, ml, mf⟩ := k
  simp only at hcur hss hms
  subst hcur
  rw [SmallsortJob.loopRound.eq_def] at hround
  cases l with
  | sampleSort =>
    obtain rfl : ml = [] := hloop
    dsimp only at hround
    split at hround
    next hmore =>
      obtain ⟨top, rest, rfl⟩ := List.exists_cons_of_ne_nil (l := sl) (by
        rintro rfl
        simp [hss] at hmore)
      obtain rfl : mf = [] := by
        by_contra hmf
        exact absurd (h.exclusive hmf).1 (by simp)
      exact sampleRound_ok h hworking hround
    next hmore =>
      obtain rfl := Option.some_inj.mp hround
      obtain rfl : sl = [] := by
        rw [← List.length_eq_zero_iff]
        simp at hss
        omega
      exact h.goto_ok .release ⟨rfl, rfl, rfl, hworking⟩ m
  | mkqs nested =>
    dsimp only at hround
    split at hround
    next hmore =>
      obtain ⟨top, rest, rfl⟩ := List.exists_cons_of_ne_nil (l := ml) (by
        rintro rfl
        simp [hms] at hmore)
      obtain ⟨s, hs, rfl⟩ := Option.map_eq_some_iff.mp hround
      have hruns : WorkerReaches
          ⟨top.frame :: (rest.map MKQSStep.frame ++ sl.map SeqSampleSortStep.frame),
            (JobStacks.workStack ⟨base, sl, [], sf, top :: rest, mf⟩ r).freed,
            r.outstanding.map EnqueuedWork.entry, (r.job.mkqsState m).created,
            (r.job.mkqsState m).history⟩ := h.runs
      obtain ⟨new, hnew⟩ := mkqsRound_runs h.ms_stack (h.idx top (List.mem_cons_self ..)) hruns hs
      refine Inv.ok (k := ⟨base, sl, [], sf, new ++ rest, mf⟩) ⟨?_, hnew.pop_front.trans
        h.ms_pop_front, h.ss_stack, h.ss_pop_front, ?_, h.done, h.exclusive, ?_⟩ ?_
      · rw [List.append_assoc]
        exact hnew.stack
      · exact List.forall_mem_append.mpr ⟨hnew.idx, fun ms hms => h.idx ms
          (List.mem_cons_of_mem _ hms)⟩
      · rw [JobRun.after, JobStacks.workStack, List.append_nil, List.map_append, List.append_assoc]
        exact hnew.runs
      · rw [JobRun.after, List.append_nil]
        exact ⟨rfl, hloop, hworking⟩
    next hmore =>
      obtain rfl := Option.some_inj.mp hround
      obtain rfl : ml = [] := by
        rw [← List.length_eq_zero_iff]
        omega
      cases nested with
      | true => exact h.goto_ok (.poll .sampleSort) ⟨rfl, rfl, hworking⟩ m
      | false => exact h.goto_ok .release ⟨rfl, (hloop rfl).1, rfl, hworking⟩ m

/-! ## Work sharing -/

/-- A thread may be idle. -/
theorem pollIdle_ok (h : r.Inv k) (hat : k.At r.outstanding.length r.job.working (.poll l))
    (hpoll : SmallsortJob.pollIdle inp m r.job l = some o) : (r.after o).Ok := by
  have hss : r.job.ss_stack.length = k.sl.length + k.cur.length + r.job.ss_pop_front := by
    rw [h.ss_stack, h.ss_pop_front, List.length_append, List.length_append, Nat.add_assoc]
  have hms : r.job.ms_stack.length = k.ml.length + r.job.ms_pop_front := by
    rw [h.ms_stack, h.ms_pop_front, List.length_append]
  obtain ⟨hcur, hloop, hworking⟩ := hat
  obtain ⟨base, sl, cur, sf, ml, mf⟩ := k
  simp only at hcur hss hms
  subst hcur
  rw [SmallsortJob.pollIdle] at hpoll
  split at hpoll
  · obtain ⟨-, hpoll⟩ := Option.ite_none_right_eq_some.mp hpoll
    split at hpoll
    next hempty =>
      obtain ⟨-, hpoll⟩ := Option.ite_none_right_eq_some.mp hpoll
      obtain rfl := Option.some_inj.mp hpoll
      obtain rfl : sl = [] := by
        rw [← List.length_eq_zero_iff]
        simp only [List.length_nil] at hss
        omega
      exact h.goto_ok (.freeMkqs l 0) ⟨rfl, rfl, hloop, hworking⟩ m
    next hempty =>
      obtain rfl := Option.some_inj.mp hpoll
      have hne : sl ≠ [] := by
        rintro rfl
        simp only [List.length_nil] at hss
        omega
      -- the lowest step is freed
      obtain ⟨above, s, rfl⟩ := (List.eq_nil_or_concat' sl).resolve_left hne
      obtain rfl : mf = [] := by
        by_contra hmf
        exact hne (h.exclusive hmf).1
      rw [after_outcome]
      refine Inv.ok (k := ⟨base, above, [s], sf, ml, []⟩) ⟨h.ms_stack, h.ms_pop_front, ?_,
        h.ss_pop_front, h.idx, h.done, by simp, ?_⟩ ⟨⟨s, rfl⟩, ?_, hworking⟩
      · exact h.ss_stack.trans (List.append_assoc ..)
      · have hruns := h.runs
        rw [JobStacks.workStack, List.map_append, ← List.append_assoc] at hruns
        exact hruns.step .free
      · cases l with
        | sampleSort => exact hloop
        | mkqs nested => exact fun hnested => absurd (hloop hnested).1 hne
  · obtain rfl := Option.some_inj.mp hpoll
    exact h.goto_ok (.loop l) ⟨rfl, hloop, hworking⟩ m

/-- A bucket of the lowest step of sample sort is freed, or the step is left behind. -/
theorem sampleFreeWork_ok (h : r.Inv k)
    (hat : k.At r.outstanding.length r.job.working (.freeSample l))
    (hphase : r.job.phase = .freeSample l)
    (hfree : SmallsortJob.sampleFreeWork cls cl m r.job l = some o) : (r.after o).Ok := by
  obtain ⟨⟨s, hcur⟩, hloop, hworking⟩ := hat
  obtain ⟨base, sl, cur, sf, ml, mf⟩ := k
  simp only at hcur
  subst hcur
  obtain rfl : mf = [] := by
    by_contra hmf
    exact absurd (h.exclusive hmf).2 (by simp)
  have hloop' : ∀ t sf', JobStacks.InLoop ⟨base, sl, t, sf', ml, []⟩ l := fun t sf' => by
    cases l with
    | sampleSort => exact hloop
    | mkqs nested => exact fun hnested => absurd (hloop hnested).2 (by simp)
  have hss : r.job.ss_stack = sl ++ s :: sf := h.ss_stack
  obtain ⟨htake, hdrop⟩ := split_stack sl s sf
  rw [← hss, ← show r.job.ss_pop_front = sf.length from h.ss_pop_front] at htake hdrop
  rw [SmallsortJob.sampleFreeWork] at hfree
  dsimp only at hfree
  rw [htake, hdrop] at hfree
  dsimp only at hfree
  split at hfree
  next hidx =>
    obtain ⟨f, hf, rfl⟩ := Option.map_eq_some_iff.mp hfree
    have hstart : FreeRuns (ml.map MKQSStep.frame ++ sl.map SeqSampleSortStep.frame)
        (sf.map SeqSampleSortStep.frame) (r.outstanding.map EnqueuedWork.entry) r.job.working
        r.job.created s.frame ⟨m, r.job.working, r.job.history, []⟩ := by
      refine ⟨?_, rfl⟩
      rw [List.map_nil, List.append_nil]
      exact h.runs
    have hruns := freeBucket_runs hidx hstart hf
    refine Inv.ok (k := ⟨base, sl, [s.next], sf, ml, []⟩) ⟨h.ms_stack, h.ms_pop_front, rfl,
      h.ss_pop_front, h.idx, h.done, by simp, ?_⟩ ?_
    · rw [JobRun.after, JobStacks.workStack, List.map_append (f := EnqueuedWork.entry)]
      exact hruns.runs
    · have hworking' := hruns.working_eq
      show JobStacks.At _ _ f.working r.job.phase
      rw [hphase, JobRun.after, List.length_append]
      refine ⟨⟨_, rfl⟩, hloop' _ _, ?_⟩
      simp only [SmallsortJob.freed]
      omega
  next hidx =>
    obtain rfl := Option.some_inj.mp hfree
    rw [after_outcome]
    exact Inv.ok (k := ⟨base, sl, [], s :: sf, ml, []⟩) ⟨h.ms_stack, h.ms_pop_front, h.ss_stack,
      congrArg (· + 1) h.ss_pop_front, h.idx, List.forall_mem_cons.mpr ⟨not_lt.mp hidx, h.done⟩,
      by simp, h.runs⟩ ⟨rfl, hloop' _ _, hworking⟩

/-- The areas of the lowest step of multikey quicksort are freed, or the job goes on sorting. -/
theorem mkqsFreeWork_ok {fl : ℕ} (h : r.Inv k)
    (hat : k.At r.outstanding.length r.job.working (.freeMkqs l fl))
    (hfree : SmallsortJob.mkqsFreeWork cls m r.job l fl = some o) : (r.after o).Ok := by
  have hlen : r.job.ms_stack.length = k.ml.length + r.job.ms_pop_front := by
    rw [h.ms_stack, h.ms_pop_front, List.length_append]
  obtain ⟨hcur, hsl, hloop, hworking⟩ := hat
  obtain ⟨base, sl, cur, sf, ml, mf⟩ := k
  simp only at hcur hsl hlen
  subst hcur hsl
  rw [SmallsortJob.mkqsFreeWork] at hfree
  split at hfree
  next hmore =>
    have hne : ml ≠ [] := by
      rintro rfl
      simp only [List.length_nil] at hlen
      omega
    obtain ⟨above, ms, rfl⟩ := (List.eq_nil_or_concat' ml).resolve_left hne
    have hms : r.job.ms_stack = above ++ ms :: mf := by
      rw [show r.job.ms_stack = above ++ [ms] ++ mf from h.ms_stack, List.append_assoc,
        List.singleton_append]
    obtain ⟨-, hdrop⟩ := split_stack above ms mf
    rw [← hms, ← show r.job.ms_pop_front = mf.length from h.ms_pop_front] at hdrop
    rw [hdrop] at hfree
    dsimp only at hfree
    obtain ⟨f, hf, rfl⟩ := Option.map_eq_some_iff.mp hfree
    have hstart : FreeRuns (above.map MKQSStep.frame)
        (mf.map (MKQSStep.frame ∘ MKQSStep.freed) ++ sf.map SeqSampleSortStep.frame)
        (r.outstanding.map EnqueuedWork.entry) r.job.working r.job.created ms.frame
        ⟨m, r.job.working, r.job.history, []⟩ := by
      refine ⟨?_, rfl⟩
      have hruns := h.runs
      rw [JobStacks.workStack, List.map_append (f := MKQSStep.frame), List.map_nil,
        List.append_nil] at hruns
      rw [List.map_nil, List.append_nil]
      exact hruns.step .free
    have hruns := freeAreas_runs (h.idx ms (by simp)) hstart hf
    refine Inv.ok (k := ⟨base, [], [], sf, above, ms :: mf⟩) ⟨hms,
      congrArg (· + 1) h.ms_pop_front, h.ss_stack, h.ss_pop_front,
      fun a ha => h.idx a (List.mem_append_left _ ha), h.done, fun _ => ⟨rfl, rfl⟩, ?_⟩ ?_
    · rw [JobRun.after, JobStacks.workStack, List.map_append (f := EnqueuedWork.entry),
        List.map_nil, List.append_nil]
      exact hruns.runs
    · have hworking' := hruns.working_eq
      show JobStacks.At _ _ f.working (.freeMkqs l (fl + 1))
      rw [JobRun.after, List.length_append]
      refine ⟨rfl, rfl, ?_, ?_⟩
      · cases l with
        | sampleSort => exact absurd (hloop : above ++ [ms] = []) hne
        | mkqs nested => exact fun _ => ⟨rfl, rfl⟩
      · simp only [SmallsortJob.freed]
        omega
  next hmore =>
    obtain rfl := Option.some_inj.mp hfree
    exact h.goto_ok (.loop l) ⟨rfl, hloop, hworking⟩ m

/-! ## The end of a job -/

/-- Nothing is outstanding: the freed steps have still to write their entries. -/
theorem Inv.allDone {base : ℕ} (h : r.Inv ⟨base, [], [], sf, [], mf⟩) (hout : r.outstanding = [])
    (working : ℕ) (phase : JobPhase) :
    JobRun.AllDone sf mf ⟨{ r.job with working, phase }, []⟩ := by
  refine ⟨⟨[], h.ms_stack⟩, h.ms_pop_front, ⟨[], h.ss_stack⟩, h.ss_pop_front, h.done, ?_⟩
  have hruns := h.runs
  rw [JobStacks.workStack, hout] at hruns
  exact hruns

/-- The wrapper job is finished. -/
theorem release_ok (h : r.Inv k) (hat : k.At r.outstanding.length r.job.working .release) :
    (r.after (SmallsortJob.outcome ({ r.job with phase := .waiting } : SmallsortJob).notifyDone
      m)).Ok := by
  obtain ⟨hcur, hsl, hml, hworking⟩ := hat
  obtain ⟨base, sl, cur, sf, ml, mf⟩ := k
  simp only at hcur hsl hml
  subst hcur hsl hml
  rw [after_outcome]
  by_cases hzero : r.job.working - 1 = 0
  · have hout : r.outstanding = [] := by
      rw [← List.length_eq_zero_iff]
      omega
    rw [SmallsortJob.notifyDone_last (j := { r.job with phase := .waiting }) hzero, hout]
    exact ⟨rfl, hzero, sf, mf, h.allDone hout _ _⟩
  · rw [SmallsortJob.notifyDone_more (j := { r.job with phase := .waiting }) hzero]
    refine Inv.ok (k := ⟨base, [], [], sf, [], mf⟩) ⟨h.ms_stack, h.ms_pop_front, h.ss_stack,
      h.ss_pop_front, h.idx, h.done, h.exclusive, h.runs⟩ ⟨rfl, rfl, rfl, ?_, ?_⟩
    · simp only
      omega
    · simp only
      omega

/-- A round of the loops of `substep_all_done()`, or their end. -/
theorem AllDone.substepAllDone_ok (h : r.AllDone sf mf) (hphase : r.job.phase = .allDone)
    (hout : r.outstanding = []) (hworking : r.job.working = 0)
    (hdone : SmallsortJob.substepAllDone cls ss cl m r.job = some o) : (r.after o).Ok := by
  have hms := h.ms_pop_front
  have hss := h.ss_pop_front
  rw [SmallsortJob.substepAllDone] at hdone
  cases mf with
  | cons ms mf =>
    obtain ⟨done, hstack⟩ := h.ms_stack
    rw [if_pos (by simp [hms]), hms, hstack, drop_stack] at hdone
    obtain rfl := Option.some_inj.mp hdone
    rw [after_outcome, JobRun.Ok, SmallsortJob.note]
    dsimp only
    rw [hphase]
    refine ⟨hout, hworking, sf, mf, ⟨done ++ [ms], ?_⟩, rfl, h.ss_stack, hss, h.done, ?_⟩
    · exact (List.append_assoc done [ms] mf).symm
    · exact h.runs.step (.closeFreed le_rfl)
  | nil =>
    rw [if_neg (by simp [hms])] at hdone
    cases sf with
    | cons s sf =>
      obtain ⟨done, hstack⟩ := h.ss_stack
      rw [if_pos (by simp [hss]), hss, hstack, drop_stack] at hdone
      obtain ⟨m', -, rfl⟩ := Option.map_eq_some_iff.mp hdone
      rw [after_outcome, JobRun.Ok, SmallsortJob.note]
      dsimp only
      rw [hphase]
      refine ⟨hout, hworking, sf, [], ⟨h.ms_stack, hms, ⟨done ++ [s], ?_⟩, rfl,
        fun a ha => h.done a (List.mem_cons_of_mem _ ha), ?_⟩⟩
      · exact (List.append_assoc done [s] sf).symm
      · exact h.runs.step (.closeFreed (h.done s (List.mem_cons_self ..)))
    | nil =>
      rw [if_neg (by simp [hss])] at hdone
      obtain rfl := Option.some_inj.mp hdone
      rw [after_outcome]
      exact ⟨hout, hworking, h.runs⟩

/-! ## All actions -/

/-- A job is run from the queue. -/
theorem run_ok {part : ℕ × ℕ}
    (hrun : SmallsortJob.run cls ss cl inp m (.new part strptr depth) = some o) :
    (JobRun.after ⟨.new part strptr depth, []⟩ o).Ok := by
  have hstart : WorkerReaches ⟨[], [], [], 0, []⟩ := Transition.Reachable.start rfl
  rw [SmallsortJob.run] at hrun
  dsimp only at hrun
  split at hrun
  · obtain ⟨-, hrun⟩ := Option.ite_none_right_eq_some.mp hrun
    obtain ⟨q, hq, rfl⟩ := Option.map_eq_some_iff.mp hrun
    have hframe := newSampleStep_start hq
    refine Inv.ok (k := ⟨0, [q.1], [], [], [], []⟩) ⟨rfl, rfl, rfl, rfl, by simp, by simp, by simp,
      ?_⟩ ⟨rfl, rfl, rfl⟩
    have hfirst := hstart.step (.first (q.1.shape false))
    rw [JobStacks.workStack, List.map_singleton, hframe]
    exact hfirst
  · obtain ⟨q, hq, rfl⟩ := Option.map_eq_some_iff.mp hrun
    obtain ⟨new, hnew, hnone⟩ := callMkqsCache_runs hstart
      (fun sh => hstart.step (.first sh)) hq
    have hruns := hnew.runs
    refine Inv.ok (k := ⟨0, [], [], [], new, []⟩) ⟨hnew.stack, hnew.pop_front, rfl, rfl, hnew.idx,
      by simp, by simp, hnew.runs⟩ ?_
    rcases q with ⟨_ | _, s⟩
    · exact ⟨rfl, rfl, hnone rfl, rfl⟩
    · exact ⟨rfl, fun _ => ⟨rfl, rfl⟩, rfl⟩

/-- An action of a job. -/
theorem Ok.action (h : r.Ok) (hstep : r.job.step cls ss cl inp m = some o) : (r.after o).Ok := by
  rw [Ok] at h
  rw [SmallsortJob.step] at hstep
  cases hphase : r.job.phase with
  | queued =>
    rw [hphase] at h hstep
    obtain ⟨j, outstanding⟩ := r
    obtain ⟨rfl, part, strptr, depth, rfl⟩ := h
    exact run_ok hstep
  | loop l =>
    rw [hphase] at h hstep
    obtain ⟨k, hinv, hat⟩ := h
    exact loopRound_ok hinv hat hstep
  | poll l =>
    rw [hphase] at h hstep
    obtain ⟨k, hinv, hat⟩ := h
    exact pollIdle_ok hinv hat hstep
  | freeSample l =>
    rw [hphase] at h hstep
    obtain ⟨k, hinv, hat⟩ := h
    exact sampleFreeWork_ok hinv hat hphase hstep
  | freeMkqs l fl =>
    rw [hphase] at h hstep
    obtain ⟨k, hinv, hat⟩ := h
    exact mkqsFreeWork_ok hinv hat hstep
  | release =>
    rw [hphase] at h hstep
    obtain ⟨k, hinv, hat⟩ := h
    obtain ⟨-, hstep⟩ := Option.ite_none_right_eq_some.mp hstep
    obtain rfl := Option.some_inj.mp hstep
    exact release_ok hinv hat
  | waiting =>
    rw [hphase] at hstep
    exact absurd hstep (by simp)
  | allDone =>
    rw [hphase] at h hstep
    obtain ⟨hout, hworking, sf, mf, hinv⟩ := h
    exact hinv.substepAllDone_ok hphase hout hworking hstep
  | finished =>
    rw [hphase] at hstep
    exact absurd hstep (by simp)

/-- A job with substeps runs or waits. -/
theorem Ok.exists_inv (h : r.Ok) (hne : r.outstanding ≠ []) :
    ∃ k, r.Inv k ∧ k.At r.outstanding.length r.job.working r.job.phase := by
  rw [Ok] at h
  cases hphase : r.job.phase <;> rw [hphase] at h <;>
    first | exact h | exact absurd h.1 hne

/-- A substep is reported as finished. -/
theorem Ok.notify {pre post : List EnqueuedWork} {e : EnqueuedWork} (h : r.Ok)
    (hout : r.outstanding = pre ++ e :: post) :
    (JobRun.mk (r.job.joined e.part) (pre ++ post)).Ok := by
  obtain ⟨k, hinv, hat⟩ := h.exists_inv (by rw [hout]; simp)
  have hlength : r.outstanding.length = (pre ++ post).length + 1 := by
    rw [hout, List.length_append, List.length_append, List.length_cons, Nat.add_assoc]
  rw [hlength] at hat
  have hruns := hinv.runs
  rw [JobStacks.workStack, hout, List.map_append (f := EnqueuedWork.entry), List.map_cons] at hruns
  have hnotified := hruns.step .notify
  rw [← List.map_append] at hnotified
  have hinv' (working : ℕ) (phase : JobPhase) : JobRun.Inv k ⟨{ r.job with
      history := .notify e.part.1 e.part.2 :: r.job.history, working, phase }, pre ++ post⟩ :=
    ⟨hinv.ms_stack, hinv.ms_pop_front, hinv.ss_stack, hinv.ss_pop_front, hinv.idx, hinv.done,
      hinv.exclusive, hnotified⟩
  by_cases hzero : r.job.working - 1 = 0
  · -- the job has waited for this substep only
    rw [SmallsortJob.joined_of_last e.part hzero]
    obtain ⟨hphase, hnone⟩ := hat.last hzero
    rw [hphase] at hat
    rw [List.eq_nil_of_length_eq_zero hnone] at hinv' ⊢
    obtain ⟨hcur, hsl, hml, -⟩ := hat
    obtain ⟨base, sl, cur, sf, ml, mf⟩ := k
    simp only at hcur hsl hml
    subst hcur hsl hml
    exact ⟨rfl, hzero, sf, mf, (hinv' 0 .waiting).allDone rfl _ _⟩
  · rw [SmallsortJob.joined_of_more e.part hzero]
    exact (hinv' _ _).ok (hat.pred hzero)

end JobRun

end Steps

end StringSampleSort
