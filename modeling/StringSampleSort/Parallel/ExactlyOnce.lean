import StringSampleSort.Parallel.WorkSharingSteps
import StringSampleSort.Parallel.ParallelSort

/-!
# Work sharing repeats nothing

What holds for every state of a `SmallsortJob`, at whatever moments other threads are idle, whatever
they do to the memory, and in whatever order they report the substeps: no part of a step is dealt
with twice, every substep is counted, and LCPs are calculated once all parts are finished.  When the
job has finished, nothing has been left out.

When the strings can be sorted the job comes to its end.

## Main results

- `JobRun.Ok.accounted`: the conditions of a job, in terms of its history
- `smallsort_runsJob`: they apply to a job within a parallel sort
- `workSharing_exactlyOnce`: they hold in all runs, and the runs of a sort end
-/

namespace StringSampleSort

open Library SortTask

/-! ## All runs -/

/-- The wrapper job is a substep of its own until it has been released. -/
def JobPhase.handle : JobPhase → ℕ
  | .loop _ => 1
  | .poll _ => 1
  | .freeSample _ => 1
  | .freeMkqs _ _ => 1
  | .release => 1
  | _ => 0

/-- What a job has done so far.  The history is that of a job which deals with no part twice and
calculates the LCPs of a step when all of its parts are finished; the substeps are those that it has
enqueued; and `sort_sample_sort` and `sort_mkqs_cache` find their stacks empty whenever they may be
called. -/
structure JobRun.Accounted (r : JobRun) : Prop where
  valid : Valid r.job.history
  handedOver : WorkStack.HandedOver (r.outstanding.map EnqueuedWork.entry) r.job.history
  counted : r.job.working = r.outstanding.length + r.job.phase.handle
  sampleEntry : r.job.phase = .queued → r.job.ss_pop_front = 0 ∧ r.job.ss_stack.length = 0
  mkqsEntry : r.job.phase = .queued ∨
      r.job.phase = .loop .sampleSort ∧ r.job.ss_stack.length > r.job.ss_pop_front →
    r.job.ms_pop_front = 0 ∧ r.job.ms_stack.length = 0
  waiting : r.job.phase = .waiting → r.outstanding ≠ []
  finished : r.job.phase = .finished → r.outstanding = [] ∧ ExactlyOnce r.job.history

section Runs

variable {S : Type} {cls : StringPtrClass} {ss : StringSet S} {cl : ClassifierClass} {r : JobRun}
  {k : JobStacks} {part : ℕ × ℕ} {strptr : StringPtr} {depth : ℕ}

namespace JobRun

/-- A job that runs or waits. -/
theorem Inv.accounted (h : r.Inv k)
    (hat : k.At r.outstanding.length r.job.working r.job.phase) : r.Accounted := by
  obtain ⟨haccounts, hhanded⟩ := WorkStack.reachable_ok h.runs
  refine ⟨haccounts.ledger.valid, hhanded, ?_, fun hq => ?_, ?_, fun hw => ?_, fun hf => ?_⟩
  · cases hphase : r.job.phase with
    | loop l => exact (hphase ▸ hat).2.2
    | poll l => exact (hphase ▸ hat).2.2
    | freeSample l => exact (hphase ▸ hat).2.2
    | freeMkqs l fl => exact (hphase ▸ hat).2.2.2
    | release => exact (hphase ▸ hat).2.2.2
    | waiting => exact (hphase ▸ hat).2.2.2.1
    | _ => rw [hphase] at hat; exact hat.elim
  · rw [hq] at hat
    exact hat.elim
  · rintro (hq | ⟨hloop, hmore⟩)
    · rw [hq] at hat
      exact hat.elim
    · -- a step of sample sort has not been freed, so none of multikey quicksort has
      rw [hloop] at hat
      obtain ⟨hcur, hml, -⟩ := hat
      have hsl : k.sl ≠ [] := fun hsl => by
        rw [h.ss_stack, h.ss_pop_front, hsl, hcur] at hmore
        exact absurd hmore (lt_irrefl _)
      have hmf : k.mf = [] := by
        by_contra hmf
        exact hsl (h.exclusive hmf).1
      rw [h.ms_pop_front, h.ms_stack, hmf, show k.ml = [] from hml]
      exact ⟨rfl, rfl⟩
  · rw [hw] at hat
    exact fun hnil => hat.2.2.2.2 (by rw [hnil]; rfl)
  · rw [hf] at hat
    exact hat.elim

/-- What the conditions of a job mean. -/
theorem Ok.accounted (h : r.Ok) : r.Accounted := by
  have h₀ := h
  rw [Ok] at h
  cases hphase : r.job.phase with
  | queued =>
    obtain ⟨j, outstanding⟩ := r
    rw [hphase] at h
    obtain ⟨rfl, part, strptr, depth, rfl⟩ := h
    exact ⟨trivial, ⟨by simp, by simp [SmallsortJob.new]⟩, rfl, fun _ => ⟨rfl, rfl⟩,
      fun _ => ⟨rfl, rfl⟩, fun hw => by simp [SmallsortJob.new] at hw,
      fun hf => by simp [SmallsortJob.new] at hf⟩
  | allDone =>
    rw [hphase] at h
    obtain ⟨hout, hworking, sf, mf, hdone⟩ := h
    obtain ⟨haccounts, hhanded⟩ := WorkStack.reachable_ok hdone.runs
    refine ⟨haccounts.ledger.valid, ?_, ?_, ?_, ?_, ?_, ?_⟩
    · rw [hout]
      exact hhanded
    · rw [hout, hphase, hworking]
      rfl
    all_goals simp [hphase]
  | finished =>
    rw [hphase] at h
    obtain ⟨hout, hworking, hruns⟩ := h
    obtain ⟨haccounts, hhanded⟩ := WorkStack.reachable_ok hruns
    refine ⟨haccounts.ledger.valid, ?_, ?_, ?_, ?_, ?_, fun _ => ⟨hout, haccounts.exactlyOnce⟩⟩
    · rw [hout]
      exact hhanded
    · rw [hout, hphase, hworking]
      rfl
    all_goals simp [hphase]
  | _ =>
    rw [hphase] at h
    obtain ⟨k, hinv, hat⟩ := h
    exact hinv.accounted (hphase ▸ hat)

/-- In all runs the stacks of a job are a worker. -/
theorem reachable_ok (hr : (smallsortRuns cls ss cl part strptr depth).Reachable r) : r.Ok := by
  refine hr.invariant (P := Ok) ?_ ?_
  · rintro _ rfl
    exact ⟨rfl, part, strptr, depth, rfl⟩
  · rintro r a r' - hok hstep
    cases a with
    | action inp m =>
      obtain ⟨o, hstep, rfl⟩ := hstep
      exact hok.action hstep
    | notify e =>
      obtain ⟨pre, post, hout, rfl⟩ := hstep
      exact hok.notify hout

end JobRun

end Runs

/-! ## The end of a job -/

section Sorts

variable {S : Type} {cls : StringPtrClass} {ss : StringSet S} {cl : ClassifierClass} {n : ℕ}

/-- A job within a parallel sort is a job with these substeps. -/
structure SortContext.RunsJob (ctx : SortContext S) (part : ℕ × ℕ) (strptr : StringPtr) (depth : ℕ)
    (t : ProcessTree SortProcess) (j : SmallsortJob) (ts : List (ProcessTree SortProcess))
    (es : List EnqueuedWork) : Prop where
  tree : t = .node (.smallsort j) ts
  run : (smallsortRuns ctx.cls ctx.ss ctx.cl part strptr depth).Reachable ⟨j, es⟩
  parts : es.map EnqueuedWork.part = ts.map fun t => t.root.share.part

/-- A job for strings that share its depth, with all jobs that it enqueues. -/
theorem smallsort_runsJob {T : SortTask S} {hcl : cl.Usable} {totalsize threadnum : ℕ}
    {part : ℕ × ℕ} {strptr : StringPtr} {depth : ℕ} {g : Ghost S}
    (hroot : (sortLogic T hcl totalsize threadnum).holds g (.smallsort (.new part strptr depth)) [])
    {s : Memory S × ProcessTree SortProcess}
    (hs : ((T.context cl totalsize threadnum).jobs.system g.mem
      (.smallsort (.new part strptr depth))).Reachable s) :
    ∃ j ts es, (T.context cl totalsize threadnum).RunsJob part strptr depth s.2 j ts es := by
  refine hs.invariant (P := fun s => ∃ j ts es,
    (T.context cl totalsize threadnum).RunsJob part strptr depth s.2 j ts es) ?_ ?_
  · rintro _ rfl
    exact ⟨_, [], [], rfl, Transition.Reachable.start rfl, rfl⟩
  · rintro ⟨m, t⟩ a ⟨m', t'⟩ hreach ⟨j, ts, es, htree, hrun, hparts⟩ hstep
    change (T.context cl totalsize threadnum).jobs.Step m t a m' t' at hstep
    simp only at htree
    subst htree
    cases hstep with
    | act ts hact =>
      cases hact with
      | action inp p henabled hact =>
        obtain ⟨o, heq, rfl⟩ := Option.map_eq_some_iff.mp hact
        refine ⟨o.proc, _, es ++ o.enqueued, rfl,
          hrun.step (l := JobMove.action inp m) ⟨o, heq, rfl⟩, ?_⟩
        rw [List.map_append, List.map_append, hparts, List.map_map, List.map_map]
        refine congrArg _ (List.map_congr_left fun e _ => ?_)
        exact (congrArg WorkShare.part (SortContext.enqueue_share _ e.part e.call)).symm
      | fails inp p henabled hact => exact ⟨j, _, es, by simp, hrun, hparts⟩
    | sub l us vs hsub =>
      -- no sort step changes the part that it sorts
      obtain ⟨g', hm, -, -, hholds⟩ :=
        (sortLogic T hcl totalsize threadnum).reachable_holds hroot hreach
      have hshare := (ForkJoin.Logic.step_holds hm (hholds.subs _ (by simp)) hsub).2
      obtain ⟨-, -, -, hshare, -⟩ := hshare
      refine ⟨j, _, es, rfl, hrun, hparts.trans ?_⟩
      simp only [List.map_append, List.map_cons]
      rw [show SortProcess.share _ = _ from hshare]
      rfl
    | join us vs hfin hjoin =>
      obtain ⟨rfl, hjoin⟩ := hjoin
      obtain ⟨-, hjoin⟩ := Option.ite_none_right_eq_some.mp hjoin
      obtain rfl := Option.some_inj.mp hjoin
      rw [List.map_append, List.map_cons] at hparts
      obtain ⟨pre, rest, rfl, hpre, hrest⟩ := List.map_eq_append_iff.mp hparts
      obtain ⟨e, post, rfl, he, hpost⟩ := List.map_eq_cons_iff.mp hrest
      refine ⟨j.joined e.part, us ++ vs, pre ++ post, ?_,
        hrun.step (l := JobMove.notify e) ⟨pre, post, rfl, rfl⟩, ?_⟩
      · rw [he]
        rfl
      · rw [List.map_append, List.map_append, hpre, hpost]

/-- The condition of a job at its beginning. -/
theorem exists_holds_new (cl : ClassifierClass) (hss : ss.Sortable)
    (hread : cls.hasCache = true → ss.ReadsEnd) (part : ℕ × ℕ) (f : Bool) (lo depth : ℕ)
    (m : Memory S)
    (hdepth : SharesDepth ss.chars ((cls.pointer f lo n).active.get m) n depth) :
    ∃ (T : SortTask S) (g : Ghost S), T.ss = ss ∧ T.cls = cls ∧ g.mem = m ∧
      (SmallsortJob.new part (cls.pointer f lo n) depth).Holds T cl g [] := by
  rcases Nat.eq_zero_or_pos n with rfl | hn
  · -- there is nothing to sort, by the task of other strings
    obtain ⟨T, g, hT, rfl, hm, -⟩ := exists_sortTask hss hread m f lo 0 Nat.one_pos
      fun _ _ (_ : InWindow lo 1 _) _ => SharePrefix.zero _ _
    exact ⟨T, g, hT, rfl, hm, rfl, rfl, Or.inr ⟨f, lo, rfl⟩⟩
  · obtain ⟨T, g, rfl, rfl, rfl, hP⟩ := exists_sortTask hss hread m f lo depth hn
      fun p q hp hq => by
        obtain ⟨i, rfl⟩ := Nat.exists_eq_add_of_le hp.1
        obtain ⟨k, rfl⟩ := Nat.exists_eq_add_of_le hq.1
        exact hdepth i (Nat.add_lt_add_iff_left.mp hp.2) k (Nat.add_lt_add_iff_left.mp hq.2)
    exact ⟨T, g, rfl, rfl, rfl, rfl, rfl, Or.inl ⟨_, hP, rfl⟩⟩

/-- A job does not repeat or forget anything, whenever threads are idle.  And when it is run for
strings that share its depth, together with all that it enqueues, it comes to its end. -/
theorem workSharing_exactlyOnce (cls : StringPtrClass) (ss : StringSet S) (cl : ClassifierClass)
    (part : ℕ × ℕ) (strptr : StringPtr) (depth : ℕ) :
    (∀ r, (smallsortRuns cls ss cl part strptr depth).Reachable r → r.Accounted) ∧
    ∀ f lo n, strptr = cls.pointer f lo n → ss.Sortable → (cls.hasCache = true → ss.ReadsEnd) →
      cl.Usable → ∀ m, SharesDepth ss.chars (strptr.active.get m) n depth →
      ∀ totalsize threadnum,
        let ctx : SortContext S := ⟨cls, ss, cl, totalsize, threadnum⟩
        let sort := ctx.jobs.system m (.smallsort (.new part strptr depth))
        SortRuns ss sort ∧ ∀ s, sort.Reachable s →
          ∃ j ts es, ctx.RunsJob part strptr depth s.2 j ts es := by
  refine ⟨fun r hr => (JobRun.reachable_ok hr).accounted, ?_⟩
  rintro f lo n rfl hss hread hcl m hdepth totalsize threadnum ctx sort
  obtain ⟨T, g, rfl, rfl, rfl, hholds⟩ :=
    exists_holds_new cl hss hread part f lo depth m hdepth
  have hroot : (sortLogic T hcl totalsize threadnum).holds g
    (.smallsort (.new part (T.cls.pointer f lo n) depth)) [] := hholds
  exact ⟨sortRuns_of_holds hroot, fun s hs => smallsort_runsJob hroot hs⟩

/-- The sort of forty words ends, and the job that was enqueued for them has then done all of its
work. -/
theorem workSharing_exactlyOnce_words :
    let ss := UCharStringSet wordMem
    let cls := StringPtrClass.StringShadowOutPtr
    let m : Memory (CString wordMem) := ⟨fun _ => word, fun _ => 7, fun _ => 0⟩
    SortRuns ss ((SortContext.jobs ⟨cls, ss, .treeUnrollInterleave 4, 40, 16⟩).system m
      (.smallsort (.new (0, 0) (cls.pointer true 3 40) 0))) ∧
    ∃ r, (smallsortRuns cls ss (.treeUnrollInterleave 4) (0, 0) (cls.pointer true 3 40) 0).Reachable
      r ∧ r.job.phase = .finished ∧ r.Accounted := by
  intro ss cls m
  obtain ⟨haccounted, hsort⟩ :=
    workSharing_exactlyOnce cls ss (.treeUnrollInterleave 4) (0, 0) (cls.pointer true 3 40) 0
  obtain ⟨hruns, hjob⟩ := hsort true 3 40 rfl (UCharStringSet.sortable _)
    (fun _ => UCharStringSet.readsEnd _) (ClassifierClass.IsInterleaveX.usable (Or.inl rfl)) m
    (fun p _ q _ => .zero _ _) 40 16
  -- a run that has come to its end is one of the job
  obtain ⟨s, hs, hfin⟩ := Transition.exists_reachable_of_bounded ⟨_, rfl⟩ hruns.ends
    fun s hs hne => hruns.goesOn s hs hne
  obtain ⟨j, ts, es, hrun⟩ := hjob s hs
  have hphase : j.phase = .finished := by
    rw [hrun.tree] at hfin
    exact hfin
  exact ⟨hruns, _, hrun.run, hphase, haccounted _ hrun.run⟩

end Sorts

end StringSampleSort
