import StringSampleSort.Parallel.JobStacks

/-!
# The invariant of a small sort

The steps on the two stacks of a `SmallsortJob` are levels of a plan: those that have been freed,
those that have not, and the one whose buckets are just being freed.  What remains to be shown of an
action is what it does to these levels.

## Main results

- `SortOutcome.Ok`: what an action of a sort step has to leave
- `SmallsortJob.Holds`: the condition of a job, wherever it stands
- `JobInv.loopRound_ok`, `JobInv.pollIdle_ok`: a round of a loop, and the question whether a thread
  is idle
-/

namespace StringSampleSort

open Library SortTask

/-! ## Outcomes -/

/-- What an action has to leave, for a sort step with these substeps: a state of which the condition
`holds` is true again, right calls, and less to do. -/
structure SortOutcome.Ok {S P : Type} (T : SortTask S)
    (holds : Ghost S → P → List WorkShare → Prop) (share : P → WorkShare) (rank : P → ℕ)
    (g : Ghost S) (p : P) (subs : List WorkShare) (g' : Ghost S) (o : SortOutcome S P) :
    Prop where
  mem : g'.mem = o.mem
  touches : Touches (share p).window subs g g'
  share_eq : share o.proc = share p
  holds : holds g' o.proc (subs ++ o.enqueued.map EnqueuedWork.share)
  enqueued : ∀ e ∈ o.enqueued, T.CallOk g' e.call
  calls : ∀ c ∈ o.calls, SharesDepth T.ss.chars (c.1.1.active.get c.2) c.1.1.size c.1.2
  rank : rank o.proc + (o.enqueued.map fun e => T.callRank e.call).sum < rank p

theorem enqueuedRank_eq {S : Type} (T : SortTask S) (es : List EnqueuedWork) :
    T.enqueuedRank es = es.length + (es.map fun e => T.callRank e.call).sum := by
  induction es with
  | nil => rfl
  | cons e es ih =>
    have hcons : T.enqueuedRank (e :: es) = 1 + T.callRank e.call + T.enqueuedRank es := rfl
    rw [hcons, ih, List.length_cons, List.map_cons, List.sum_cons]
    omega

/-! ## Levels -/

namespace SeqSampleSortStep

/-- A step as a level of its job. -/
def stepLevel (s : SeqSampleSortStep) : StepLevel := s.toLevel false s.level s.idx

end SeqSampleSortStep

namespace JobStacks

/-- What the steps leave to do. -/
def work {S : Type} (T : SortTask S) (k : JobStacks) : ℕ :=
  rankScale * (levelsRank T (k.ml.map MKQSStep.toLevel) +
    levelsRank T ((k.sl ++ k.cur).map SeqSampleSortStep.stepLevel)) + k.mf.length + k.sf.length

end JobStacks

/-! ## Conditions -/

section Conditions

variable {S : Type}

/-- What holds while a job runs or waits. -/
structure JobInv (T : SortTask S) (cl : ClassifierClass) (w : Window) (k : JobStacks)
    (subs : List WorkShare) (g : Ghost S) (j : SmallsortJob) : Prop where
  mkqs : MkqsInv T w k.base k.ml k.mf (k.sl.map SeqSampleSortStep.stepLevel)
    ((k.cur ++ k.sf).map SeqSampleSortStep.stepLevel) subs g (j.mkqsState g.mem)
  ss_stack : j.ss_stack = k.sl ++ (k.cur ++ k.sf)
  ss_pop_front : j.ss_pop_front = k.sf.length
  ssOk : ∀ s ∈ k.sl ++ (k.cur ++ k.sf), s.Ok T cl
  ssDone : ∀ s ∈ k.sf, sampleBktnum ≤ s.idx
  exclusive : k.mf ≠ [] → k.sl = [] ∧ k.cur = []

/-- What holds when all substeps are done: the steps `sf` and `mf` have still to write their
entries. -/
structure AllDoneInv (T : SortTask S) (cl : ClassifierClass) (w : Window)
    (sf : List SeqSampleSortStep) (mf : List MKQSStep) (g : Ghost S) (j : SmallsortJob) : Prop where
  ms_stack : ∃ done, j.ms_stack = done ++ mf
  ms_pop_front : j.ms_pop_front = mf.length
  msOk : ∀ ms ∈ mf, ∃ base, ms.Ok T base
  ss_stack : ∃ done, j.ss_stack = done ++ sf
  ss_pop_front : j.ss_pop_front = sf.length
  ssOk : ∀ s ∈ sf, s.Ok T cl
  ssDone : ∀ s ∈ sf, sampleBktnum ≤ s.idx
  plan : JobPlan T g w [] (mkqsLevels (mf.map .freed) (sf.map SeqSampleSortStep.stepLevel)) []
    j.created j.history

namespace SmallsortJob

/-- The window of a job. -/
def window (j : SmallsortJob) : Window := ⟨j.in_strptr.active.begin, j.in_strptr.size⟩

/-- The part that a job sorts. -/
def share (j : SmallsortJob) : WorkShare := ⟨j.part, j.window⟩

/-- The condition of a job with these substeps. -/
def Holds (T : SortTask S) (cl : ClassifierClass) (g : Ghost S) (j : SmallsortJob)
    (subs : List WorkShare) : Prop :=
  match j.phase with
  | .queued => subs = [] ∧ j = .new j.part j.in_strptr j.in_depth ∧
      (T.CallOk g (j.in_strptr, j.in_depth) ∨
        ∃ f lo, j.in_strptr = T.cls.pointer f lo 0)
  | .allDone => subs = [] ∧ ∃ sf mf, AllDoneInv T cl j.window sf mf g j
  | .finished => subs = [] ∧ (T.Covers g j.window [] fun _ => False) ∧ Valid j.history ∧
      ExactlyOnce j.history
  | phase => ∃ k, JobInv T cl j.window k subs g j ∧ k.At subs.length j.working phase

end SmallsortJob

/-! ## Ranks -/

/-- Less than what remains at the head of a loop. -/
def JobLoop.rank : JobLoop → ℕ
  | .sampleSort => 4
  | .mkqs _ => 15

/-- The actions that lead to the next round, or to the end of the job. -/
def JobPhase.rank : JobPhase → ℕ
  | .loop l => l.rank
  | .poll l => l.rank + 10
  | .freeSample l => l.rank + 1
  | .freeMkqs l fl => l.rank + 1 + (8 - fl)
  | .release => 3
  | .waiting => 2
  | _ => 1

namespace SmallsortJob

/-- What the steps on the stacks and the substeps leave to do. -/
def work (T : SortTask S) (j : SmallsortJob) : ℕ :=
  rankScale *
      (levelsRank T ((j.ms_stack.take (j.ms_stack.length - j.ms_pop_front)).map MKQSStep.toLevel) +
        levelsRank T ((j.ss_stack.take (j.ss_stack.length - j.ss_pop_front)).map
          SeqSampleSortStep.stepLevel)) +
    j.ms_pop_front + j.ss_pop_front + j.working

/-- A bound for the actions of a job, and of those that it will create. -/
def rank (T : SortTask S) (j : SmallsortJob) : ℕ :=
  match j.phase with
  | .queued => T.callRank (j.in_strptr, j.in_depth)
  | .allDone => j.ms_pop_front + j.ss_pop_front + 1
  | .finished => 0
  | phase => j.work T + phase.rank

end SmallsortJob

end Conditions

namespace JobInv

variable {S : Type} {T : SortTask S} {cl : ClassifierClass} {w : Window} {k : JobStacks}
  {subs : List WorkShare} {g : Ghost S} {j : SmallsortJob}

/-- What a job has still to do. -/
theorem work_eq (h : JobInv T cl w k subs g j) :
    j.work T = k.work T + j.working := by
  have hms : j.ms_stack = k.ml ++ k.mf := h.mkqs.stack
  have hmspop : j.ms_pop_front = k.mf.length := h.mkqs.pop_front
  have hss := h.ss_stack
  rw [← List.append_assoc] at hss
  rw [SmallsortJob.work, hms, hmspop, hss, h.ss_pop_front, take_stack, take_stack, JobStacks.work]

theorem plan (h : JobInv T cl w k subs g j) :
    JobPlan T g w (mkqsLevels k.ml (k.sl.map SeqSampleSortStep.stepLevel))
      (mkqsLevels (k.mf.map .freed) ((k.cur ++ k.sf).map SeqSampleSortStep.stepLevel)) subs
      j.created j.history := h.mkqs.plan

/-- A job whose stack of multikey quicksort is empty. -/
theorem of_plan {sl cur sf : List SeqSampleSortStep} (hms : j.ms_stack = [])
    (hmspop : j.ms_pop_front = 0) (hss : j.ss_stack = sl ++ (cur ++ sf))
    (hpop : j.ss_pop_front = sf.length) (hok : ∀ s ∈ sl ++ (cur ++ sf), s.Ok T cl)
    (hdone : ∀ s ∈ sf, sampleBktnum ≤ s.idx)
    (hplan : JobPlan T g w (sl.map SeqSampleSortStep.stepLevel)
      ((cur ++ sf).map SeqSampleSortStep.stepLevel) subs j.created j.history) :
    JobInv T cl w ⟨0, sl, cur, sf, [], []⟩ subs g j where
  mkqs :=
    { mem := rfl
      stack := hms
      pop_front := hmspop
      steps := by simp
      idx := by simp
      keys := by simp
      plan := hplan
      entries := by simp [SmallsortJob.mkqsState] }
  ss_stack := hss
  ss_pop_front := hpop
  ssOk := hok
  ssDone := hdone
  exclusive := by simp

/-- A job that `sort_mkqs_cache` has brought to a state. -/
theorem of_mkqs {s : MkqsState S} {phase : JobPhase}
    (h : MkqsInv T w k.base k.ml k.mf (k.sl.map SeqSampleSortStep.stepLevel)
      ((k.cur ++ k.sf).map SeqSampleSortStep.stepLevel) subs g s)
    (hss : j.ss_stack = k.sl ++ (k.cur ++ k.sf)) (hpop : j.ss_pop_front = k.sf.length)
    (hok : ∀ s ∈ k.sl ++ (k.cur ++ k.sf), s.Ok T cl) (hdone : ∀ s ∈ k.sf, sampleBktnum ≤ s.idx)
    (hexclusive : k.mf ≠ [] → k.sl = [] ∧ k.cur = []) :
    JobInv T cl w k subs g { j.withMkqs s with phase } where
  mkqs :=
    { mem := rfl
      stack := h.stack
      pop_front := h.pop_front
      steps := h.steps
      idx := h.idx
      keys := h.keys
      plan := h.plan
      entries := by simp [SmallsortJob.mkqsState] }
  ss_stack := hss
  ss_pop_front := hpop
  ssOk := hok
  ssDone := hdone
  exclusive := hexclusive

end JobInv

/-! ## Running jobs -/

section Running

variable {S : Type} {T : SortTask S} {cl : ClassifierClass} {k : JobStacks} {subs : List WorkShare}
  {g g' : Ghost S} {j : SmallsortJob}

theorem SmallsortJob.holds_of_at (hinv : JobInv T cl j.window k subs g j)
    (hat : k.At subs.length j.working j.phase) : j.Holds T cl g subs := by
  rw [SmallsortJob.Holds]
  cases hphase : j.phase <;> rw [hphase] at hat <;> first | exact ⟨k, hinv, hat⟩ | exact hat.elim

theorem SmallsortJob.rank_of_at {n : ℕ} (hat : k.At n j.working j.phase) :
    j.rank T = j.work T + j.phase.rank := by
  rw [SmallsortJob.rank]
  cases hphase : j.phase <;> rw [hphase] at hat <;> first | rfl | exact hat.elim

/-- An action after which the job goes on. -/
theorem SortOutcome.Ok.of_at {o : SortOutcome S SmallsortJob} {rank₀ : ℕ}
    (hrank₀ : j.rank T = rank₀) (hmem : g'.mem = o.mem) (htouch : Touches j.window subs g g')
    (hshare : o.proc.share = j.share)
    (hinv : JobInv T cl j.window k (subs ++ o.enqueued.map EnqueuedWork.share) g' o.proc)
    (hat : k.At (subs.length + o.enqueued.length) o.proc.working o.proc.phase)
    (hnew : ∀ e ∈ o.enqueued, T.CallOk g' e.call)
    (hcalls : ∀ c ∈ o.calls, SharesDepth T.ss.chars (c.1.1.active.get c.2) c.1.1.size c.1.2)
    (hrank : k.work T + o.proc.working + o.proc.phase.rank +
      (o.enqueued.map fun e => T.callRank e.call).sum < rank₀) :
    o.Ok T (SmallsortJob.Holds T cl) SmallsortJob.share (SmallsortJob.rank T) g j subs g' where
  mem := hmem
  touches := htouch
  share_eq := hshare
  holds := by
    have hwindow : o.proc.window = j.window := congrArg WorkShare.window hshare
    apply SmallsortJob.holds_of_at (k := k)
    · rwa [hwindow]
    · rwa [List.length_append, List.length_map]
  enqueued := hnew
  calls := hcalls
  rank := by rwa [SmallsortJob.rank_of_at hat, hinv.work_eq, hrank₀]

end Running

/-! ## Steps of sample sort -/

section SampleRound

variable {S : Type} {T : SortTask S} {cl : ClassifierClass} {w : Window} {k : JobStacks}
  {subs : List WorkShare} {g g' : Ghost S} {j : SmallsortJob} {P : Piece}

/-- A new step, as a level. -/
theorem newSampleStep_level (hcl : cl.Usable) (rng : ℕ → ℕ) (level : ℕ) (h : T.PieceOk g P) :
    ∃ st g', newSampleStep T.ss cl rng level (T.pointer P) P.depth g.mem = some (st, g'.mem) ∧
      st.stepLevel.frame = ⟨level, st.shape false, 0⟩ ∧ st.stepLevel.window = P.window ∧
      st.Ok T cl ∧ st.stepLevel.PiecesOk T g' ∧
      T.Covers g' st.stepLevel.window st.stepLevel.remaining st.stepLevel.Promises ∧
      st.stepLevel.rank T ≤ T.windowRank P.window P.depth ∧ Effect P.window g g' := by
  obtain ⟨st, g', heq, hlevel, hidx, hptr, hdepth, hok, hpieces, he⟩ :=
    newSampleStep_spec hcl rng level h
  -- the step begins at its first bucket, so nothing of the level is dealt with yet
  have hstep : st.stepLevel = st.toLevel false level 0 := by
    rw [SeqSampleSortStep.stepLevel, hlevel, hidx]
  have hwindow : st.window = P.window := by
    rw [SampleBuckets.window, hptr]
    rfl
  have hrank := hok.rank_le false level
  rw [hwindow, hdepth] at hrank
  refine ⟨st, g', heq, ?_⟩
  rw [hstep]
  exact ⟨rfl, hwindow, hok, hpieces, hok.covers g', by omega, he⟩

/-- The calls for a piece and for its parts. -/
theorem MkqsState.calls_ok {s : MkqsState S} (hP : T.PieceOk g P)
    (h : ∀ e ∈ s.entries, e.Exact T.ss ∧ e.Shares T.ss) :
    ∀ c ∈ ((T.pointer P, P.depth), g.mem) :: s.calls,
      SharesDepth T.ss.chars (c.1.1.active.get c.2) c.1.1.size c.1.2 := by
  refine List.forall_mem_cons.mpr ⟨hP.sharesDepth, fun c hc => ?_⟩
  obtain ⟨e, he, rfl⟩ := List.mem_map.mp hc
  exact (h e he).2

namespace JobInv

variable {base : ℕ} {top : SeqSampleSortStep} {rest sf : List SeqSampleSortStep}

/-- The steps that are left when the next bucket of the uppermost one has been dealt with. -/
theorem ssOk_next (h : JobInv T cl w ⟨base, top :: rest, [], sf, [], []⟩ subs g j) :
    ∀ s ∈ top.next :: rest ++ ([] ++ sf), s.Ok T cl := by
  rintro s (_ | ⟨_, hs⟩)
  · exact h.ssOk top (List.mem_cons_self ..)
  · exact h.ssOk s (List.mem_cons_of_mem _ hs)

/-- What the next bucket of the uppermost step leaves to do. -/
theorem work_next (T : SortTask S) (base base' : ℕ) (top : SeqSampleSortStep)
    (rest sf : List SeqSampleSortStep) (hidx : top.idx < sampleBktnum) :
    JobStacks.work T ⟨base, top :: rest, [], sf, [], []⟩ =
      rankScale * (1 + top.stepLevel.partRank T top.idx) +
        JobStacks.work T ⟨base', top.next :: rest, [], sf, [], []⟩ := by
  have hnext : top.stepLevel.rank T = 1 + top.stepLevel.partRank T top.idx +
      top.next.stepLevel.rank T := StepLevel.rank_next (l := top.stepLevel) hidx
  simp only [JobStacks.work, List.append_nil, List.map_cons, levelsRank_cons, hnext, rankScale]
  omega

/-- The next bucket of the uppermost step is a piece. -/
theorem bucket_piece (h : JobInv T cl w ⟨base, top :: rest, [], sf, [], []⟩ subs g j)
    (hidx : top.idx < sampleBktnum) (hpos : 0 < top.bktsize top.idx) :
    T.PieceOk g (top.piece top.idx) := h.plan.piece (l := top.stepLevel) hidx hpos

theorem rank_loop (h : JobInv T cl w k subs g j) {l : JobLoop} (hphase : j.phase = .loop l) :
    j.rank T = k.work T + j.working + l.rank := by
  rw [SmallsortJob.rank, hphase, h.work_eq]
  rfl

/-- The next bucket of the uppermost step is sorted, or becomes a step. -/
theorem sortBucket_ok (hcl : cl.Usable)
    (h : JobInv T cl j.window ⟨base, top :: rest, [], sf, [], []⟩ subs g j)
    (hphase : j.phase = .loop .sampleSort) (hworking : j.working = subs.length + 1)
    (hidx : top.idx < sampleBktnum) (hpos : 0 < top.bktsize top.idx)
    (hdone : top.classifier.done top.idx = false) (inp : JobInput) :
    ∃ o g', SmallsortJob.sortBucket T.cls T.ss cl inp top.next top.idx
        (top.classifier.bucketDepth top.depth top.idx) g.mem
        { j with ss_stack := top.next :: (rest ++ sf), phase := .poll .sampleSort } = some o ∧
      o.Ok T (SmallsortJob.Holds T cl) SmallsortJob.share (SmallsortJob.rank T) g j subs g' := by
  have hP := h.bucket_piece hidx hpos
  have hok := h.ssOk top (List.mem_cons_self ..)
  -- a bucket that is not done is a call for its piece
  have hcall : (top.shape false).call top.idx =
      some (T.pointer (top.piece top.idx), (top.piece top.idx).depth) :=
    hok.call_eq hdone (by simp)
  have hptr : top.next.bucketPtr top.idx = T.pointer (top.piece top.idx) := hok.bucketPtr_eq _
  have hdepth : top.classifier.bucketDepth top.depth top.idx = (top.piece top.idx).depth :=
    (if_neg (by simp [hdone])).symm
  -- its share of the rank pays for whatever it becomes
  have hpart : top.stepLevel.partRank T top.idx = jobOverhead +
      T.windowRank (top.piece top.idx).window (top.piece top.idx).depth := by
    rw [StepLevel.partRank, if_neg]
    · rfl
    · rintro (hzero | hnone)
      · exact hpos.ne' hzero
      · exact absurd (hcall.symm.trans hnone) (by simp)
  have hwork := work_next T base 0 top rest sf hidx
  have hrank₀ := h.rank_loop hphase
  have hstack : ∀ s ∈ top.next :: rest ++ ([] ++ sf), s.Ok T cl := h.ssOk_next
  rw [SmallsortJob.sortBucket, hptr, hdepth]
  dsimp only
  split
  · -- multikey quicksort: a small bucket is sorted at once, a large one becomes its first step
    rcases Nat.lt_or_ge (top.piece top.idx).window.size 32 with hn | hn
    · obtain ⟨g', heq, he, hc⟩ := callMkqsCache_small (s := SmallsortJob.mkqsState
        { j with ss_stack := top.next :: (rest ++ sf), phase := .poll .sampleSort } g.mem)
        inp.fresh (some (top.next.level, top.idx)) hP hn rfl
      simp only [SmallsortJob.callMkqs, heq, Option.map_some]
      refine ⟨_, g', rfl, .of_at (k := ⟨0, top.next :: rest, [], sf, [], []⟩) hrank₀ rfl ?_
        rfl ?_ ?_ (by simp) ?_ ?_⟩
      · exact (h.plan.plan.take (l := top.stepLevel) hidx).hand_touches he
      · rw [List.map_nil, List.append_nil]
        exact .of_plan h.mkqs.stack h.mkqs.pop_front rfl h.ss_pop_front hstack h.ssDone
          (h.plan.deal (l := top.stepLevel) hidx hpos he hc (d := .sorted _) hcall.symm trivial)
      · exact ⟨rfl, rfl, hworking⟩
      · exact MkqsState.calls_ok hP h.mkqs.entries
      · simp only [JobStacks.work, List.append_nil, List.map_nil, List.sum_nil, JobPhase.rank,
          JobLoop.rank, rankScale] at hwork ⊢
        show _ + j.working + (4 + 10) + 0 < _
        omega
    · obtain ⟨ms, g', s', heq, hmem, hms, hmspop, hcreated, hhistory, hentries, hlevel, hmsidx,
        hwindow, hmsOk, hpieces, hkeys, hrank, he⟩ := callMkqsCache_large (s :=
          SmallsortJob.mkqsState { j with
            ss_stack := top.next :: (rest ++ sf), phase := .poll .sampleSort } g.mem)
          inp.fresh (some (top.next.level, top.idx)) hP hn rfl h.mkqs.stack h.mkqs.pop_front
          h.mkqs.entries
      simp only [SmallsortJob.callMkqs, heq, Option.map_some]
      refine ⟨_, g', rfl, .of_at (k := ⟨(top.piece top.idx).window.lo, top.next :: rest, [], sf,
        [ms], []⟩) hrank₀ hmem ?_ rfl ?_ ?_ (by simp) ?_ ?_⟩
      · exact (h.plan.plan.take (l := top.stepLevel) hidx).hand_touches he
      · rw [List.map_nil, List.append_nil]
        refine .of_mkqs ⟨hmem, hms, hmspop, by simpa using hmsOk, by simp [hmsidx],
          by simpa using hkeys, ?_, hentries⟩ rfl h.ss_pop_front hstack h.ssDone (by simp)
        have hplan := h.plan.push (l := top.stepLevel) (k := ms.toLevel) hidx hpos hcall hwindow
          (by show Frame.mk ms.level ms.shape ms.idx = _; rw [hlevel, hmsidx]; rfl)
          (by rw [show ms.toLevel.window = _ from hwindow]; exact he) (hmsOk.covers g' hmsidx)
          hpieces
        rw [hcreated, hhistory]
        exact hplan
      · exact ⟨rfl, by simp [JobStacks.InLoop], hworking⟩
      · exact MkqsState.calls_ok hP hentries
      · simp only [JobStacks.work, List.append_nil, List.map_cons, List.map_nil, List.sum_nil,
          levelsRank_cons, levelsRank_nil, JobPhase.rank, JobLoop.rank, rankScale, hpart,
          jobOverhead] at hwork ⊢
        show _ + j.working + 15 + 0 < _
        omega
  · -- sample sort: the bucket becomes the new uppermost step
    obtain ⟨st, g', heq, hframe, hwindow, hstOk, hpieces, hcovers, hrank, he⟩ :=
      newSampleStep_level hcl inp.rng j.created hP
    simp only [SmallsortJob.emplaceSample, SmallsortJob.note, heq, Option.map_some]
    refine ⟨_, g', rfl, .of_at (k := ⟨0, st :: top.next :: rest, [], sf, [], []⟩) hrank₀ rfl ?_
      rfl ?_ ?_ (by simp) ?_ ?_⟩
    · exact (h.plan.plan.take (l := top.stepLevel) hidx).hand_touches he
    · rw [List.map_nil, List.append_nil]
      refine .of_plan h.mkqs.stack h.mkqs.pop_front rfl h.ss_pop_front
        (List.forall_mem_cons.mpr ⟨hstOk, hstack⟩) h.ssDone ?_
      have hplan := h.plan.push (l := top.stepLevel) (k := st.stepLevel) hidx hpos hcall hwindow
        (by rw [hframe]) (by rw [hwindow]; exact he) hcovers hpieces
      rw [hframe] at hplan
      exact hplan
    · exact ⟨rfl, rfl, hworking⟩
    · exact List.forall_mem_singleton.mpr hP.sharesDepth
    · simp only [JobStacks.work, List.append_nil, List.map_cons, List.map_nil, levelsRank_cons,
        levelsRank_nil, List.sum_nil, JobPhase.rank, JobLoop.rank, rankScale, hpart, jobOverhead]
        at hwork ⊢
      omega

/-- The next bucket of the uppermost step is empty. -/
theorem skipBucket_ok (h : JobInv T cl j.window ⟨base, top :: rest, [], sf, [], []⟩ subs g j)
    (hphase : j.phase = .loop .sampleSort) (hworking : j.working = subs.length + 1)
    (hidx : top.idx < sampleBktnum) (hsize : top.bktsize top.idx = 0) :
    SortOutcome.Ok T (SmallsortJob.Holds T cl) SmallsortJob.share (SmallsortJob.rank T) g j subs g
      (SmallsortJob.outcome
        { j with ss_stack := top.next :: (rest ++ sf), phase := .poll .sampleSort } g.mem) := by
  have hwork := work_next T base 0 top rest sf hidx
  refine .of_at (k := ⟨0, top.next :: rest, [], sf, [], []⟩) (h.rank_loop hphase) rfl
    (Touches.refl _ _ _) rfl ?_ ⟨rfl, rfl, hworking⟩ (by simp [SmallsortJob.outcome])
    (by simp [SmallsortJob.outcome]) ?_
  · rw [SmallsortJob.outcome, List.map_nil, List.append_nil]
    exact .of_plan h.mkqs.stack h.mkqs.pop_front rfl h.ss_pop_front h.ssOk_next h.ssDone
      (h.plan.skip (l := top.stepLevel) hidx hsize)
  · show _ + j.working + (4 + 10) + 0 < _ + _ + 4
    simp only [rankScale] at hwork
    omega

/-- The next bucket of the uppermost step has a key that contains the terminator. -/
theorem fillBucket_ok (h : JobInv T cl j.window ⟨base, top :: rest, [], sf, [], []⟩ subs g j)
    (hphase : j.phase = .loop .sampleSort) (hworking : j.working = subs.length + 1)
    (hidx : top.idx < sampleBktnum) (hpos : 0 < top.bktsize top.idx)
    (hdone : top.classifier.done top.idx = true) :
    ∃ m g', top.fillDone T.cls cl T.cls.withLcp top.idx g.mem = some m ∧
      SortOutcome.Ok T (SmallsortJob.Holds T cl) SmallsortJob.share (SmallsortJob.rank T) g j subs
        g' (({ j with ss_stack := top.next :: (rest ++ sf), phase := .poll .sampleSort } :
          SmallsortJob).note (.deal top.level top.idx .filled) |>.outcome m) := by
  have hwork := work_next T base 0 top rest sf hidx
  have hok := h.ssOk top (List.mem_cons_self ..)
  -- all strings of the bucket are the same and have ended
  have hcall : (top.shape false).call top.idx = none := if_pos (by simp [hdone])
  obtain ⟨g', heq, he, hc⟩ := hok.fillDone_spec id hidx (h.bucket_piece hidx hpos) hdone
  refine ⟨g'.mem, g', heq, .of_at (k := ⟨0, top.next :: rest, [], sf, [], []⟩)
    (h.rank_loop hphase) rfl ((h.plan.plan.take (l := top.stepLevel) hidx).hand_touches he) rfl ?_
    ⟨rfl, rfl, hworking⟩ (by simp [SmallsortJob.outcome]) (by simp [SmallsortJob.outcome]) ?_⟩
  · rw [SmallsortJob.outcome, List.map_nil, List.append_nil]
    exact .of_plan h.mkqs.stack h.mkqs.pop_front rfl h.ss_pop_front h.ssOk_next h.ssDone
      (h.plan.deal (l := top.stepLevel) hidx hpos he hc (d := .filled) hcall.symm trivial)
  · show _ + j.working + (4 + 10) + 0 < _ + _ + 4
    simp only [rankScale] at hwork
    omega

/-- The uppermost step writes its entries, and leaves the stack. -/
theorem closeSample_ok (h : JobInv T cl j.window ⟨base, top :: rest, [], sf, [], []⟩ subs g j)
    (hphase : j.phase = .loop .sampleSort) (hworking : j.working = subs.length + 1)
    (hidx : sampleBktnum ≤ top.idx) :
    ∃ m g', top.calculateLcp T.cls T.ss cl g.mem = some m ∧
      SortOutcome.Ok T (SmallsortJob.Holds T cl) SmallsortJob.share (SmallsortJob.rank T) g j subs
        g' (({ j with ss_stack := rest ++ sf, phase := .poll .sampleSort } :
          SmallsortJob).note (.calculate top.level) |>.outcome m) := by
  have hok := h.ssOk top (List.mem_cons_self ..)
  -- behind its last bucket the step has all strings at their places
  obtain ⟨m, heq, hcalc⟩ := hok.calculateLcp_spec false top.level top.idx
    fun p hp => h.plan.plan.finished (l := top.stepLevel) hidx hp
  refine ⟨m, _, heq, .of_at (k := ⟨0, rest, [], sf, [], []⟩) (h.rank_loop hphase) rfl
    (h.plan.plan.close_touches (l := top.stepLevel) hcalc) rfl ?_ ⟨rfl, rfl, hworking⟩
    (by simp [SmallsortJob.outcome]) (by simp [SmallsortJob.outcome]) ?_⟩
  · rw [SmallsortJob.outcome, List.map_nil, List.append_nil]
    exact .of_plan h.mkqs.stack h.mkqs.pop_front rfl h.ss_pop_front
      (fun s hs => h.ssOk s (List.mem_cons_of_mem _ hs)) h.ssDone
      (h.plan.close (l := top.stepLevel) hidx hcalc)
  · show _ + j.working + (4 + 10) + 0 < _ + _ + 4
    simp only [JobStacks.work, List.append_nil, List.map_nil, List.map_cons, levelsRank_cons,
      rankScale, StepLevel.rank]
    omega

/-- A round of the loop of `sort_sample_sort`. -/
theorem sampleRound_ok (hcl : cl.Usable)
    (h : JobInv T cl j.window ⟨base, top :: rest, [], sf, [], []⟩ subs g j)
    (hphase : j.phase = .loop .sampleSort) (hworking : j.working = subs.length + 1)
    (inp : JobInput) :
    ∃ o g', SmallsortJob.sampleRound T.cls T.ss cl inp g.mem j = some o ∧
      o.Ok T (SmallsortJob.Holds T cl) SmallsortJob.share (SmallsortJob.rank T) g j subs g' := by
  have hss : j.ss_stack = top :: (rest ++ sf) := h.ss_stack
  rw [SmallsortJob.sampleRound, hss]
  dsimp only
  by_cases hidx : top.idx < sampleBktnum
  · rw [if_pos hidx]
    -- the depth as the two branches of the source compute it
    have hbucket : top.classifier.bucketDepth top.depth top.idx = if top.idx % 2 = 0 then
        top.depth + (top.classifier.lcp (top.idx / 2) &&& 0x7F).toNat else top.depth + 8 := rfl
    by_cases hsize : top.bktsize top.idx = 0
    · rw [if_pos hsize, if_pos hsize, ite_self]
      exact ⟨_, g, rfl, h.skipBucket_ok hphase hworking hidx hsize⟩
    · have hpos := Nat.pos_of_ne_zero hsize
      rw [if_neg hsize, if_neg hsize]
      split
      · -- an even bucket: between two splitters
        next heven =>
        have hhalf : top.idx / 2 ≤ numsplitters defaultTreebits := by
          simp only [sampleBktnum] at hidx
          omega
        rw [if_pos heven] at hbucket
        rw [if_neg fun hc => hc.2 hhalf, ← hbucket]
        exact h.sortBucket_ok hcl hphase hworking hidx hpos
          (decide_eq_false fun hodd => by omega) inp
      · -- an odd bucket: equal to a splitter, and done where the splitter holds a terminator
        next hodd =>
        rw [if_neg hodd] at hbucket
        split
        · next hset =>
          obtain ⟨m, g', heq, hfill⟩ := h.fillBucket_ok hphase hworking hidx hpos
            (decide_eq_true ⟨by omega, hset⟩)
          rw [heq]
          exact ⟨_, g', rfl, hfill⟩
        · next hset =>
          rw [← hbucket]
          exact h.sortBucket_ok hcl hphase hworking hidx hpos
            (decide_eq_false fun hc => hset hc.2) inp
  · rw [if_neg hidx]
    -- the last bucket has been dealt with
    obtain ⟨m, g', heq, hclose⟩ := h.closeSample_ok hphase hworking (not_lt.mp hidx)
    rw [heq]
    exact ⟨_, g', rfl, hclose⟩

end JobInv

end SampleRound

/-! ## Loops -/

section Loops

variable {S : Type} {T : SortTask S} {cl : ClassifierClass} {w : Window} {k k' : JobStacks}
  {subs : List WorkShare} {g g' : Ghost S} {j : SmallsortJob} {l : JobLoop} {phase : JobPhase}

namespace JobInv

theorem with_phase (h : JobInv T cl w k subs g j) : JobInv T cl w k subs g { j with phase } :=
  ⟨h.mkqs, h.ss_stack, h.ss_pop_front, h.ssOk, h.ssDone, h.exclusive⟩

/-- The job only goes to another place. -/
theorem goto_ok (phase : JobPhase) (h : JobInv T cl j.window k subs g j)
    (hat : k.At subs.length j.working j.phase) (h' : JobInv T cl j.window k' subs g j)
    (hwork : k'.work T = k.work T) (hat' : k'.At subs.length j.working phase)
    (hlt : phase.rank < j.phase.rank) :
    SortOutcome.Ok T (SmallsortJob.Holds T cl) SmallsortJob.share (SmallsortJob.rank T) g j subs g
      (SmallsortJob.outcome { j with phase } g.mem) := by
  refine .of_at (k := k') ((SmallsortJob.rank_of_at hat).trans (by rw [h.work_eq])) rfl
    (Touches.refl _ _ _) rfl ?_ hat' (by simp [SmallsortJob.outcome])
    (by simp [SmallsortJob.outcome]) ?_
  · rw [SmallsortJob.outcome, List.map_nil, List.append_nil]
    exact h'.with_phase
  · show _ + j.working + phase.rank + 0 < _
    omega

/-- A stack is empty when it has as many steps as have been freed. -/
theorem ss_length (h : JobInv T cl w k subs g j) :
    j.ss_stack.length = k.sl.length + k.cur.length + j.ss_pop_front := by
  rw [h.ss_stack, h.ss_pop_front, List.length_append, List.length_append, Nat.add_assoc]

theorem ms_length (h : JobInv T cl w k subs g j) :
    j.ms_stack.length = k.ml.length + j.ms_pop_front := by
  rw [show j.ms_stack = _ from h.mkqs.stack, show j.ms_pop_front = _ from h.mkqs.pop_front,
    List.length_append]

/-- A round of a loop, or its end. -/
theorem loopRound_ok (hcl : cl.Usable) (h : JobInv T cl j.window k subs g j)
    (hat : k.At subs.length j.working j.phase) (hphase : j.phase = .loop l) (inp : JobInput) :
    ∃ o g', SmallsortJob.loopRound T.cls T.ss cl inp g.mem j l = some o ∧
      o.Ok T (SmallsortJob.Holds T cl) SmallsortJob.share (SmallsortJob.rank T) g j subs g' := by
  have hat₀ := hat
  have hss := h.ss_length
  have hms := h.ms_length
  rw [hphase] at hat
  obtain ⟨hcur, hloop, hworking⟩ := hat
  obtain ⟨base, sl, cur, sf, ml, mf⟩ := k
  simp only at hcur hss hms
  subst hcur
  cases l with
  | sampleSort =>
    obtain rfl : ml = [] := hloop
    rw [SmallsortJob.loopRound]
    cases sl with
    | nil =>
      -- all steps that are left have been freed, so the loop ends
      rw [if_neg (by simp at hss; omega)]
      refine ⟨_, g, rfl, h.goto_ok .release hat₀ h rfl ⟨rfl, rfl, rfl, hworking⟩ ?_⟩
      rw [hphase]
      decide
    | cons top rest =>
      -- no step of multikey quicksort has been freed while there are steps of sample sort
      obtain rfl : mf = [] := by
        by_contra hne
        exact absurd (h.exclusive hne).1 (by simp)
      rw [if_pos (by simp at hss; omega)]
      exact h.sampleRound_ok hcl hphase hworking inp
  | mkqs nested =>
    rw [SmallsortJob.loopRound]
    cases ml with
    | nil =>
      rw [if_neg (by simp at hms; omega)]
      cases nested with
      | true =>
        refine ⟨_, g, rfl, h.goto_ok (.poll .sampleSort) hat₀ h rfl ⟨rfl, rfl, hworking⟩ ?_⟩
        rw [hphase]
        decide
      | false =>
        refine ⟨_, g, rfl, h.goto_ok .release hat₀ h rfl
          ⟨rfl, (hloop rfl).1, rfl, hworking⟩ ?_⟩
        rw [hphase]
        decide
    | cons top rest =>
      rw [if_pos (by simp at hms; omega)]
      obtain ⟨g', live', s', heq, hinv, htouch, hrank⟩ := mkqsRound_spec h.mkqs
      rw [heq]
      refine ⟨_, g', rfl, .of_at (k := ⟨base, sl, [], sf, live', mf⟩) (h.rank_loop hphase) hinv.mem
        htouch rfl ?_ ⟨rfl, hloop, hworking⟩ (by simp) (fun c hc => ?_) ?_⟩
      · rw [List.map_nil, List.append_nil]
        exact .of_mkqs hinv h.ss_stack h.ss_pop_front h.ssOk h.ssDone h.exclusive
      · obtain ⟨e, he, rfl⟩ := List.mem_map.mp hc
        exact (hinv.entries e he).2
      · show _ + j.working + (15 + 10) + 0 < _ + _ + 15
        simp only [JobStacks.work, rankScale]
        omega

/-- The buckets of the lowest step of sample sort are going to be freed. -/
theorem free_sample {base : ℕ} {sl sf : List SeqSampleSortStep} {ml : List MKQSStep}
    {s : SeqSampleSortStep} (h : JobInv T cl w ⟨base, sl ++ [s], [], sf, ml, []⟩ subs g j) :
    JobInv T cl w ⟨base, sl, [s], sf, ml, []⟩ subs g j where
  mkqs :=
    { h.mkqs with
      plan := by
        have hplan := h.plan
        rw [mkqsLevels, List.map_append, ← List.append_assoc] at hplan
        exact hplan.free }
  ss_stack := by
    have hss := h.ss_stack
    simpa using hss
  ss_pop_front := h.ss_pop_front
  ssOk := by
    have hok := h.ssOk
    simpa using hok
  ssDone := h.ssDone
  exclusive := by simp

/-- The question whether a thread is idle. -/
theorem pollIdle_ok (h : JobInv T cl j.window k subs g j)
    (hat : k.At subs.length j.working j.phase) (hphase : j.phase = .poll l) (inp : JobInput) :
    ∃ o g', SmallsortJob.pollIdle inp g.mem j l = some o ∧
      o.Ok T (SmallsortJob.Holds T cl) SmallsortJob.share (SmallsortJob.rank T) g j subs g' := by
  have hat₀ := hat
  have hss := h.ss_length
  have hms := h.ms_length
  rw [hphase] at hat
  obtain ⟨hcur, hloop, hworking⟩ := hat
  obtain ⟨base, sl, cur, sf, ml, mf⟩ := k
  simp only at hcur hss hms
  subst hcur
  rw [SmallsortJob.pollIdle]
  split
  · rw [if_pos (by omega)]
    -- a thread is idle: the bottom step of sample sort is freed, if there is one
    split
    · next hempty =>
      have hsl : sl = [] := List.eq_nil_of_length_eq_zero (by simp at hss; omega)
      rw [if_pos (by omega)]
      refine ⟨_, g, rfl, h.goto_ok (.freeMkqs l 0) hat₀ h rfl ⟨rfl, hsl, hloop, hworking⟩ ?_⟩
      simp only [hphase, JobPhase.rank]
      omega
    · next hsome =>
      have hne : sl ≠ [] := by
        rintro rfl
        simp at hss
        omega
      obtain rfl : mf = [] := by
        by_contra hmf
        exact hne (h.exclusive hmf).1
      -- only the step at the bottom of the stack is freed
      obtain ⟨rest, s, rfl⟩ := (List.eq_nil_or_concat' sl).resolve_left hne
      refine ⟨_, g, rfl, h.goto_ok (.freeSample l) hat₀ h.free_sample ?_
        ⟨⟨s, rfl⟩, ?_, hworking⟩ ?_⟩
      · simp [JobStacks.work]
      · cases l with
        | sampleSort => exact hloop
        | mkqs nested => exact fun hnested => absurd (hloop hnested).1 hne
      · simp only [hphase, JobPhase.rank]
        omega
  · refine ⟨_, g, rfl, h.goto_ok (.loop l) hat₀ h rfl ⟨rfl, hloop, hworking⟩ ?_⟩
    simp only [hphase, JobPhase.rank]
    omega

end JobInv

end Loops

end StringSampleSort
