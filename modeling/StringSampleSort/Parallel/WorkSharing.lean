import StringSampleSort.Parallel.JobStacks

/-!
# Work sharing repeats nothing

A `SmallsortJob` alone, whatever the other threads do to the memory between its actions, and in
whatever order the substeps are reported as finished that it has handed over.

Its two stacks are a single stack of levels, of which the worker takes the uppermost and work
sharing the lowest: every action of the job is a run of such a worker.  Which strings are sorted,
and by which classifier, does not matter.

## Main results

- `smallsortRuns`: all runs of a job
- `mkqsRound_runs`, `callMkqsCache_runs`: the upper end of the stack
- `freeBucket_runs`, `freeAreas_runs`: the lower end
-/

namespace StringSampleSort

open Library

/-! ## Runs of a job -/

/-- An action of the job, with the memory as it finds it, or the report that a substep has
finished. -/
inductive JobMove (S : Type)
  | action (inp : JobInput) (m : Memory S)
  | notify (e : EnqueuedWork)

/-- A job, and what it has handed over and has not been reported as finished. -/
structure JobRun where
  job : SmallsortJob
  outstanding : List EnqueuedWork

/-- The run after an action of the job. -/
def JobRun.after {S : Type} (r : JobRun) (o : SortOutcome S SmallsortJob) : JobRun :=
  ⟨o.proc, r.outstanding ++ o.enqueued⟩

/-- All runs of `SmallsortJob(pstep, strptr, depth)`, from the queue on. -/
def smallsortRuns {S : Type} (cls : StringPtrClass) (ss : StringSet S) (cl : ClassifierClass)
    (part : ℕ × ℕ) (strptr : StringPtr) (depth : ℕ) : Transition JobRun (JobMove S) where
  init r := r = ⟨.new part strptr depth, []⟩
  step r a r' :=
    match a with
    | .action inp m => ∃ o, r.job.step cls ss cl inp m = some o ∧ r' = r.after o
    | .notify e => ∃ pre post, r.outstanding = pre ++ e :: post ∧
        r' = ⟨r.job.joined e.part, pre ++ post⟩

/-! ## The job as a worker -/

/-- A step of sample sort as a level of the worker. -/
def SeqSampleSortStep.frame (s : SeqSampleSortStep) : Frame RangeCall :=
  ⟨s.level, s.shape false, s.idx⟩

/-- A step of multikey quicksort as a level of the worker. -/
def MKQSStep.frame (ms : MKQSStep) : Frame RangeCall := ⟨ms.level, ms.shape, ms.idx⟩

/-- A call that has been handed over by the worker. -/
def EnqueuedWork.entry (e : EnqueuedWork) : (ℕ × ℕ) × RangeCall := (e.part, e.call)

/-- The job as a worker. -/
def JobStacks.workStack (k : JobStacks) (r : JobRun) : WorkStack RangeCall where
  run := k.ml.map MKQSStep.frame ++ k.sl.map SeqSampleSortStep.frame
  freed := k.mf.map (MKQSStep.frame ∘ MKQSStep.freed) ++ (k.cur ++ k.sf).map SeqSampleSortStep.frame
  out := r.outstanding.map EnqueuedWork.entry
  created := r.job.created
  history := r.job.history

/-- A state that some run of a worker reaches. -/
abbrev WorkerReaches (s : WorkStack RangeCall) : Prop := (WorkStack.system RangeCall).Reachable s

theorem WorkerReaches.step {s s' : WorkStack RangeCall} (h : WorkerReaches s)
    (hstep : WorkStack.Step s s') : WorkerReaches s' :=
  Transition.Reachable.step (l := ()) h hstep

/-! ## Multikey quicksort -/

section Mkqs

variable {S : Type} {cls : StringPtrClass} {ss : StringSet S} {fs freed : List (Frame RangeCall)}
  {out : List ((ℕ × ℕ) × RangeCall)} {f : Frame RangeCall} {s s' : MkqsState S} {strptr : StringPtr}
  {cache depth : ℕ} {CacheDirty : Bool} {rest : List MKQSStep}

/-- `sort_mkqs_cache` has the steps `new` above `rest` on its stack, and the worker has their levels
above `fs`. -/
structure MkqsRuns (rest : List MKQSStep) (pop : ℕ) (fs freed : List (Frame RangeCall))
    (out : List ((ℕ × ℕ) × RangeCall)) (new : List MKQSStep) (s : MkqsState S) : Prop where
  stack : s.ms_stack = new ++ rest
  pop_front : s.ms_pop_front = pop
  idx : ∀ ms ∈ new, ms.idx ≤ 3
  runs : WorkerReaches ⟨new.map MKQSStep.frame ++ fs, freed, out, s.created, s.history⟩

/-- A new step has dealt with none of its parts. -/
theorem mkqsStep_start {level : ℕ} {m : KeyMemory S} {r : MKQSStep × KeyMemory S}
    (h : mkqsStep ss level strptr cache depth CacheDirty m = some r) :
    r.1.level = level ∧ r.1.idx = 0 := by
  rw [mkqsStep] at h
  obtain ⟨-, h⟩ := Option.ite_none_right_eq_some.mp h
  rw [← Option.some_inj.mp h]
  exact ⟨rfl, rfl⟩

/-- A step is put on the stack. -/
theorem emplaceBack_new (h : s.emplaceBack ss strptr cache depth CacheDirty = some s') :
    ∃ ms, ms.frame = ⟨s.created, ms.shape, 0⟩ ∧ s'.toMkqsMembers = { s.toMkqsMembers with
      ms_stack := ms :: s.ms_stack
      created := s.created + 1
      history := .create s.created ms.shape :: s.history } := by
  obtain ⟨r, heq, rfl⟩ := Option.map_eq_some_iff.mp h
  obtain ⟨hlevel, hidx⟩ := mkqsStep_start heq
  exact ⟨r.1, by rw [MKQSStep.frame, hlevel, hidx], rfl⟩

/-- A part is sorted at once, or becomes a level. -/
theorem sortPart_runs (hidx : f.idx < f.shape.parts) (hsize : f.shape.size f.idx ≠ 0)
    (hcall : f.shape.call f.idx = some (strptr, depth))
    (hruns : WorkerReaches ⟨f :: fs, freed, out, s.created, s.history⟩)
    (h : s.sortPart cls ss f.level f.idx strptr cache depth CacheDirty = some s') :
    ∃ new, MkqsRuns s.ms_stack s.ms_pop_front (f.next :: fs) freed out new s' := by
  rw [MkqsState.sortPart] at h
  split at h
  · obtain rfl := Option.some_inj.mp h
    exact ⟨[], rfl, rfl, by simp, hruns.step (.deal hidx hsize hcall.symm trivial)⟩
  · obtain ⟨ms, hframe, hmembers⟩ := emplaceBack_new h
    refine ⟨[ms], by rw [hmembers]; rfl, by rw [hmembers]; rfl, ?_, ?_⟩
    · rw [List.forall_mem_singleton, show ms.idx = 0 from congrArg Frame.idx hframe]
      exact Nat.zero_le 3
    · rw [hmembers, List.map_singleton, hframe]
      exact hruns.step (.push ms.shape hidx hsize hcall)

/-- Steps above the uppermost one, whose next part has been dealt with. -/
theorem MkqsRuns.above {pop : ℕ} {top : MKQSStep} {new : List MKQSStep}
    (h : MkqsRuns (top :: rest) pop (top.frame :: fs) freed out new s) (htop : top.idx ≤ 3) :
    MkqsRuns rest pop fs freed out (new ++ [top]) s where
  stack := by rw [h.stack, List.append_assoc, List.singleton_append]
  pop_front := h.pop_front
  idx := List.forall_mem_append.mpr ⟨h.idx, List.forall_mem_singleton.mpr htop⟩
  runs := by
    rw [List.map_append, List.append_assoc]
    exact h.runs

/-- A round of the loop. -/
theorem mkqsRound_runs {top : MKQSStep} (hstack : s.ms_stack = top :: rest) (htop : top.idx ≤ 3)
    (hruns : WorkerReaches ⟨top.frame :: fs, freed, out, s.created, s.history⟩)
    (h : mkqsRound cls ss s = some s') :
    ∃ new, MkqsRuns rest s.ms_pop_front fs freed out new s' := by
  -- a part that is dealt with, or passed over
  have hpart : ∀ i < 3, top.idx = i → top.next.idx ≤ 3 := fun i hi heq => by
    show top.idx + 1 ≤ 3
    omega
  have hskip : ∀ i < 3, top.idx = i → top.shape.size i = 0 →
      ∃ new, MkqsRuns rest s.ms_pop_front fs freed out new
        { s with ms_stack := top.next :: rest } := by
    intro i hi heq hsize
    refine ⟨[top.next], rfl, rfl, List.forall_mem_singleton.mpr (hpart i hi heq), ?_⟩
    exact hruns.step (.skip (by rw [MKQSStep.frame, heq]; exact hsize))
  have hsort : ∀ i < 3, top.idx = i → top.shape.size i ≠ 0 → ∀ strptr cache depth CacheDirty,
      top.shape.call i = some (strptr, depth) →
      MkqsState.sortPart cls ss top.level i strptr cache depth CacheDirty
        { s with ms_stack := top.next :: rest } = some s' →
      ∃ new, MkqsRuns rest s.ms_pop_front fs freed out new s' := by
    intro i hi heq hsize strptr cache depth CacheDirty hcall h
    obtain ⟨new, hnew⟩ := sortPart_runs
      (f := top.frame) (s := { s with ms_stack := top.next :: rest })
      (by rw [MKQSStep.frame, heq]; exact hi) (by rw [MKQSStep.frame, heq]; exact hsize)
      (by rw [MKQSStep.frame, heq]; exact hcall) hruns (by rw [MKQSStep.frame, heq]; exact h)
    exact ⟨_, hnew.above (hpart i hi heq)⟩
  rw [mkqsRound, hstack] at h
  dsimp only at h
  split at h
  next hone =>
    have heq : top.idx = 0 := Nat.succ_inj.mp hone
    split at h
    next hlt =>
      obtain rfl := Option.some_inj.mp h
      exact hskip 0 (by decide) heq hlt
    next hlt => exact hsort 0 (by decide) heq hlt _ _ _ _ rfl h
  next hone =>
    split at h
    next htwo =>
      have heq : top.idx = 1 := Nat.succ_inj.mp htwo
      obtain ⟨hpos, h⟩ := Option.ite_none_right_eq_some.mp h
      split at h
      next hend =>
        -- the strings that contain the terminator are not sorted further
        obtain rfl := Option.some_inj.mp h
        refine ⟨[top.next], rfl, rfl, List.forall_mem_singleton.mpr (hpart 1 (by decide) heq), ?_⟩
        have hcall : top.shape.call 1 = none := if_neg (by simpa using hend)
        have hframe : top.frame.idx = 1 := heq
        have hdeal := hruns.step (.deal (d := .filled) (hframe ▸ Nat.one_lt_succ_succ 1)
          (by rw [hframe]; exact hpos.ne') (by rw [hframe]; exact hcall.symm) trivial)
        rw [hframe] at hdeal
        exact hdeal
      next hend => exact hsort 1 (by decide) heq hpos.ne' _ _ _ _ (if_pos (by simpa using hend)) h
    next htwo =>
      split at h
      next hthree =>
        have heq : top.idx = 2 := Nat.succ_inj.mp hthree
        split at h
        next hgt =>
          obtain rfl := Option.some_inj.mp h
          exact hskip 2 (by decide) heq hgt
        next hgt => exact hsort 2 (by decide) heq hgt _ _ _ _ rfl h
      next hthree =>
        -- all parts have been dealt with
        obtain rfl := Option.some_inj.mp h
        refine ⟨[], rfl, rfl, by simp, hruns.step (.close ?_)⟩
        show 3 ≤ top.idx
        omega

/-- `sort_mkqs_cache(ctx, strptr, depth)` up to its loop. -/
theorem callMkqsCache_runs {fresh : ℕ → KeyType} {bucket : Option (ℕ × ℕ)} {r : Bool × MkqsState S}
    (hsorted : WorkerReaches
      ⟨fs, freed, out, s.created, (s.dealt bucket (.sorted (strptr, depth))).history⟩)
    (hpushed : ∀ sh, WorkerReaches ⟨⟨s.created, sh, 0⟩ :: fs, freed, out, s.created + 1,
      .create s.created sh :: (s.dealt bucket (.pushed s.created (strptr, depth))).history⟩)
    (h : callMkqsCache cls ss fresh bucket strptr depth s = some r) :
    ∃ new, MkqsRuns s.ms_stack s.ms_pop_front fs freed out new r.2 ∧ (r.1 = false → new = []) := by
  rw [callMkqsCache] at h
  split at h
  · obtain rfl := Option.some_inj.mp h
    rcases bucket with _ | ⟨level, i⟩
    · exact ⟨[], ⟨rfl, rfl, by simp, hsorted⟩, fun _ => rfl⟩
    · exact ⟨[], ⟨rfl, rfl, by simp, hsorted⟩, fun _ => rfl⟩
  · dsimp only at h
    -- a new buffer does not change the stack
    have hgrown : ∃ keys size, (if s.bktcache_size < strptr.size * 8 then
        { s with keys := fresh, bktcache_size := strptr.size * 8 } else s) =
          { s with keys := keys, bktcache_size := size } := by
      split
      · exact ⟨_, _, rfl⟩
      · exact ⟨s.keys, s.bktcache_size, rfl⟩
    obtain ⟨keys, size, hgrown⟩ := hgrown
    rw [hgrown] at h
    obtain ⟨-, h⟩ := Option.ite_none_right_eq_some.mp h
    obtain ⟨s', hs', rfl⟩ := Option.map_eq_some_iff.mp h
    obtain ⟨ms, hframe, hmembers⟩ := emplaceBack_new hs'
    have hidx : ∀ a ∈ [ms], a.idx ≤ 3 := List.forall_mem_singleton.mpr
      ((congrArg Frame.idx hframe).trans_le (Nat.zero_le 3))
    refine ⟨[ms], ⟨?_, ?_, hidx, ?_⟩, by simp⟩
    · rw [hmembers, dealt_ms_stack]
      rfl
    · rw [hmembers, dealt_ms_pop_front]
    · rw [hmembers, List.map_singleton, hframe, dealt_created]
      rcases bucket with _ | ⟨level, i⟩
      · exact hpushed ms.shape
      · exact hpushed ms.shape

end Mkqs

/-! ## Freed work -/

section Freed

variable {S : Type} {cls : StringPtrClass} {cl : ClassifierClass} {run fs : List (Frame RangeCall)}
  {out : List ((ℕ × ℕ) × RangeCall)} {working created : ℕ} {f : Frame RangeCall}
  {s s' : FreeState S} {strptr : StringPtr} {depth : ℕ}

/-- Parts of the uppermost freed level, which is `f` now, have been dealt with, and `s` is what this
has left. -/
structure FreeRuns (run fs : List (Frame RangeCall)) (out : List ((ℕ × ℕ) × RangeCall))
    (working created : ℕ) (f : Frame RangeCall) (s : FreeState S) : Prop where
  runs : WorkerReaches
    ⟨run, f :: fs, out ++ s.enqueued.map EnqueuedWork.entry, created, s.history⟩
  working_eq : s.working = working + s.enqueued.length

namespace FreeRuns

theorem skip (h : FreeRuns run fs out working created f s) (hsize : f.shape.size f.idx = 0) :
    FreeRuns run fs out working created f.next s :=
  ⟨h.runs.step (.skipFreed hsize), h.working_eq⟩

theorem finish (h : FreeRuns run fs out working created f s) (hidx : f.idx < f.shape.parts)
    (hsize : f.shape.size f.idx ≠ 0) (hcall : f.shape.call f.idx = none) (m : Memory S) :
    FreeRuns run fs out working created f.next (s.finish f.level f.idx m) :=
  ⟨h.runs.step (.dealFreed hidx hsize hcall.symm trivial), h.working_eq⟩

theorem enqueue (h : FreeRuns run fs out working created f s) (hidx : f.idx < f.shape.parts)
    (hsize : f.shape.size f.idx ≠ 0) (hcall : f.shape.call f.idx = some (strptr, depth)) :
    FreeRuns run fs out working created f.next (s.enqueue f.level f.idx strptr depth) where
  runs := by
    have hstep := h.runs.step (.enqueue hidx hsize hcall)
    rw [List.append_assoc] at hstep
    rw [FreeState.enqueue, List.map_append]
    exact hstep
  working_eq := by
    rw [FreeState.enqueue, h.working_eq, List.length_append, List.length_singleton, Nat.add_assoc]

end FreeRuns

/-- A bucket that is not done is sorted from its depth on. -/
theorem bucket_call {s : SampleBuckets} {i : ℕ} (hdone : s.classifier.done i = false) :
    (s.shape false).call i = some (s.bucketPtr i, s.classifier.bucketDepth s.depth i) :=
  if_neg (by simp [hdone])

theorem bucket_done {s : SampleBuckets} {i : ℕ} (hdone : s.classifier.done i = true) :
    (s.shape false).call i = none :=
  if_pos (by simp [hdone])

/-- A bucket of a step that is freed. -/
theorem freeBucket_runs {st : SeqSampleSortStep} (hidx : st.idx < sampleBktnum)
    (hs : FreeRuns run fs out working created st.frame s)
    (h : freeBucket cls cl st st.idx s = some s') :
    FreeRuns run fs out working created st.next.frame s' := by
  rw [freeBucket] at h
  split at h
  next heven =>
    split at h
    next hsize =>
      obtain rfl := Option.some_inj.mp h
      exact hs.skip hsize
    next hsize =>
      obtain rfl := Option.some_inj.mp h
      have hdepth : st.classifier.bucketDepth st.depth st.idx = _ := if_pos heven
      have hdone : st.classifier.done st.idx = false := decide_eq_false fun hodd => by omega
      rw [← hdepth]
      exact hs.enqueue hidx hsize (bucket_call hdone)
  next hodd =>
    split at h
    next hsize =>
      obtain rfl := Option.some_inj.mp h
      exact hs.skip hsize
    next hsize =>
      split at h
      next hset =>
        obtain ⟨m, -, rfl⟩ := Option.map_eq_some_iff.mp h
        have hdone : st.classifier.done st.idx = true := decide_eq_true ⟨by omega, hset⟩
        exact hs.finish hidx hsize (bucket_done hdone) m
      next hset =>
        obtain rfl := Option.some_inj.mp h
        have hdepth : st.classifier.bucketDepth st.depth st.idx = _ := if_neg hodd
        have hdone : st.classifier.done st.idx = false := decide_eq_false fun hc => hset hc.2
        rw [← hdepth]
        exact hs.enqueue hidx hsize (bucket_call hdone)

/-- A part of a step of multikey quicksort is handed over, if there is anything in it. -/
theorem freeArea_runs {ms : MKQSStep} {i : ℕ} (hi : i < 3)
    (hcall : ms.shape.call i = some (strptr, depth))
    (hs : FreeRuns run fs out working created ⟨ms.level, ms.shape, i⟩ s) :
    FreeRuns run fs out working created ⟨ms.level, ms.shape, i + 1⟩
      (if ms.shape.size i ≠ 0 then s.enqueue ms.level i strptr depth else s) := by
  split
  · next hsize => exact hs.enqueue hi hsize hcall
  · next hsize => exact hs.skip (not_not.mp hsize)

/-- The parts of a step of multikey quicksort that is freed. -/
theorem freeAreas_runs {ms : MKQSStep} (hidx : ms.idx ≤ 3)
    (hs : FreeRuns run fs out working created ms.frame s) (h : freeAreas cls ms s = some s') :
    FreeRuns run fs out working created ms.freed.frame s' := by
  -- the parts that have been dealt with before are left out
  obtain ⟨s₁, hs₁, h₁⟩ : ∃ s₁, (if ms.idx = 0 ∧ ms.num_lt ≠ 0 then
      s.enqueue ms.level 0 (ms.strptr.sub 0 ms.num_lt) ms.depth else s) = s₁ ∧
      FreeRuns run fs out working created ⟨ms.level, ms.shape, max ms.idx 1⟩ s₁ := by
    refine ⟨_, rfl, ?_⟩
    by_cases h0 : ms.idx = 0
    · rw [MKQSStep.frame, h0] at hs
      simp only [h0, true_and]
      exact freeArea_runs (i := 0) (by decide) rfl hs
    · rw [if_neg fun hc => h0 hc.1, Nat.max_eq_left (Nat.one_le_iff_ne_zero.mpr h0)]
      exact hs
  rw [freeAreas, hs₁] at h
  obtain ⟨s₂, heq, rfl⟩ := Option.map_eq_some_iff.mp h
  have h₂ : FreeRuns run fs out working created ⟨ms.level, ms.shape, max ms.idx 2⟩ s₂ := by
    split at heq
    next h1 =>
      rw [Nat.max_eq_right h1] at h₁
      rw [Nat.max_eq_right (by omega)]
      obtain ⟨hpos, heq⟩ := Option.ite_none_right_eq_some.mp heq
      dsimp only at heq
      split at heq
      next hrec =>
        obtain rfl := Option.some_inj.mp heq
        exact h₁.enqueue (Nat.one_lt_succ_succ 1) hpos.ne' (if_pos hrec)
      next hrec =>
        obtain rfl := Option.some_inj.mp heq
        exact h₁.finish (Nat.one_lt_succ_succ 1) hpos.ne' (if_neg hrec) _
    next h1 =>
      obtain rfl := Option.some_inj.mp heq
      rw [Nat.max_eq_left (by omega)] at h₁ ⊢
      exact h₁
  show FreeRuns run fs out working created ⟨ms.level, ms.shape, 3⟩ _
  by_cases h2 : ms.idx ≤ 2
  · rw [Nat.max_eq_right h2] at h₂
    simp only [h2, true_and]
    exact freeArea_runs (i := 2) (by decide) rfl h₂
  · rw [if_neg fun hc => h2 hc.1]
    rwa [Nat.max_eq_left (by omega), show ms.idx = 3 by omega] at h₂

end Freed

end StringSampleSort
