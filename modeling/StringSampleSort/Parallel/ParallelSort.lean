import StringSampleSort.Parallel.JobSteps
import StringSampleSort.Parallel.SampleSortSteps
import StringSampleSort.Library.ForkJoin

/-!
# The whole parallel sort

`Enqueue` and `parallel_sample_sort` of `src/parallel/bingmann-parallel_sample_sort.hpp`: large
ranges are sorted by a `SampleSortStep`, small ones by a `SmallsortJob`, and the jobs of all of them
take their actions in any order.

Each sort step is a process of its own, which owns the window of its strings and forks its substeps
for parts of it.  What one action does has been shown for both kinds of steps; the rule for
processes that fork and join makes a statement about whole runs of it.

## Main results

- `SortProcess.step_ok`: an action of a sort step
- `sortLogic`: the conditions of the sort steps are kept in all interleavings
- `parallelSampleSort_complete`: a parallel sort that has finished has sorted its window
-/

namespace StringSampleSort

open Library SortTask

/-! ## Model -/

/-- `enable_parallel_sample_sort`. -/
def enableParallelSampleSort : Bool := true

/-- What all jobs of a sort share: the classes that it is instantiated with, and `Context`. -/
structure SortContext (S : Type) where
  cls : StringPtrClass
  ss : StringSet S
  cl : ClassifierClass
  totalsize : ℕ
  threadnum : ℕ

/-- A sort step with its jobs. -/
inductive SortProcess
  | smallsort (j : SmallsortJob)
  | sampleSort (s : SampleSortJobs)

/-- What is seen of an action: the calls that it has made, with the memory at that time, or that an
assertion fails. -/
inductive SortLabel (S : Type)
  | calls (cs : List (RangeCall × Memory S))
  | fails

/-- The outcome of an action, with another view of the sort step. -/
def SortOutcome.map {S P Q : Type} (f : P → Q) (o : SortOutcome S P) : SortOutcome S Q where
  mem := o.mem
  proc := f o.proc
  enqueued := o.enqueued
  calls := o.calls

namespace SortContext

variable {S : Type} (ctx : SortContext S)

/-- `sequential_threshold()`. -/
def threshold : ℕ := sequentialThreshold ctx.totalsize ctx.threadnum

theorem threshold_pos : 1 ≤ ctx.threshold :=
  (by decide : 1 ≤ smallsortThreshold).trans (le_max_left _ _)

/-- `Enqueue<Classify>(ctx, pstep, strptr, depth)`. -/
def enqueue (part : ℕ × ℕ) (c : RangeCall) : SortProcess :=
  if h : enableParallelSampleSort = true ∧ c.1.size > ctx.threshold then
    .sampleSort (.new part c.1 c.2 ctx.threshold (Nat.one_le_of_lt h.2) ctx.threshold_pos)
  else .smallsort (.new part c.1 c.2)

/-- The next action of the jobs of a sort step, that of part `p` where there are several. -/
def step (inp : JobInput) (p : ℕ) (m : Memory S) : SortProcess → Option (SortOutcome S SortProcess)
  | .smallsort j => (j.step ctx.cls ctx.ss ctx.cl inp m).map (SortOutcome.map .smallsort)
  | .sampleSort s => (s.step ctx.cls ctx.ss ctx.cl inp p m).map (SortOutcome.map .sampleSort)

end SortContext

namespace SortProcess

/-- A job of the sort step has something to do itself, that of part `p` where there are several. -/
def Enabled (p : ℕ) : SortProcess → Prop
  | smallsort j => j.phase ≠ .waiting ∧ j.phase ≠ .finished
  | sampleSort s => s.Enabled p

/-- The sort step has been deleted. -/
def Finished : SortProcess → Prop
  | smallsort j => j.phase = .finished
  | sampleSort s => s.stage = .finished

/-- The part that a sort step sorts. -/
def share : SortProcess → WorkShare
  | smallsort j => j.share
  | sampleSort s => s.share

/-- `m_substep_working`. -/
def working : SortProcess → ℕ
  | smallsort j => j.working
  | sampleSort s => s.working

/-- The sort step after the substep for a part has finished. -/
def joined (part : ℕ × ℕ) : SortProcess → SortProcess
  | smallsort j => smallsort (j.joined part)
  | sampleSort s => sampleSort (s.joined part)

/-- `pstep->substep_notify_done()` by the substep for a part.  No result means that an assertion
fails. -/
def notify (part : ℕ × ℕ) (l : SortProcess) : Option SortProcess :=
  if l.working > 0 then some (l.joined part) else none

end SortProcess

section Model

variable {S : Type} (ctx : SortContext S)

/-- The actions of the jobs of a sort step. -/
inductive SortContext.Acts :
    Memory S → SortProcess → SortLabel S → Memory S → SortProcess → List SortProcess → Prop
  | action {m : Memory S} {l : SortProcess} {o : SortOutcome S SortProcess} (inp : JobInput)
      (p : ℕ) :
      l.Enabled p → ctx.step inp p m l = some o →
      Acts m l (.calls (o.calls ++ o.enqueued.map fun e => (e.call, o.mem))) o.mem o.proc
        (o.enqueued.map fun e => ctx.enqueue e.part e.call)
  | fails {m : Memory S} {l : SortProcess} (inp : JobInput) (p : ℕ) :
      l.Enabled p → ctx.step inp p m l = none → Acts m l .fails m l []

/-- All jobs of a parallel sort.  A finished substep notifies its superstep. -/
def SortContext.jobs : ForkJoin (Memory S) SortProcess (SortLabel S) where
  act := ctx.Acts
  finished := SortProcess.Finished
  join m l c m' l' := m' = m ∧ l.notify c.share.part = some l'

/-- `parallel_sample_sort(strptr, depth)`, its jobs taking their actions in all orders. -/
def parallelSampleSort (cls : StringPtrClass) (ss : StringSet S) (cl : ClassifierClass)
    (threadnum : ℕ) (strptr : StringPtr) (depth : ℕ) (m : Memory S) :
    Transition (Memory S × ProcessTree SortProcess) (Option (SortLabel S)) :=
  let ctx : SortContext S := ⟨cls, ss, cl, strptr.size, threadnum⟩
  ctx.jobs.system m (ctx.enqueue (0, 0) (strptr, depth))

end Model

/-- The string sets that are sorted: `UCharStringSet`, and `UCharSuffixSet` over a text without zero
characters. -/
inductive UCharSetOf : {S : Type} → StringSet S → Prop
  | ucharStringSet (mem : ℕ → CharType) : UCharSetOf (UCharStringSet mem)
  | ucharSuffixSet (mem : ℕ → CharType) (text textSize : ℕ) :
      (∀ i < textSize, mem (text + i) ≠ 0) → UCharSetOf (UCharSuffixSet mem text textSize)

/-- The classifiers `ClassifyTreeUnrollInterleaveX` and `ClassifyTreeCalcUnrollInterleaveX`. -/
def ClassifierClass.IsInterleaveX (cl : ClassifierClass) : Prop :=
  cl = .treeUnrollInterleave 4 ∨ cl = .treeCalcUnrollInterleave 4

/-! ## A single sort step -/

section Step

variable {S : Type} {T : SortTask S} {cl : ClassifierClass} {g g' : Ghost S} {l l' : SortProcess}
  {subs pre post : List WorkShare} {c : WorkShare} {m : Memory S}

/-- The parallel sort of a task. -/
def SortTask.context (T : SortTask S) (cl : ClassifierClass) (totalsize threadnum : ℕ) :
    SortContext S := ⟨T.cls, T.ss, cl, totalsize, threadnum⟩

namespace SortProcess

/-- The condition of a sort step with these substeps. -/
def Holds (T : SortTask S) (cl : ClassifierClass) (g : Ghost S) :
    SortProcess → List WorkShare → Prop
  | smallsort j, subs => j.Holds T cl g subs
  | sampleSort s, subs => s.Holds T cl g subs

/-- A bound for the actions of a sort step, and of those that it will create. -/
def rank (T : SortTask S) : SortProcess → ℕ
  | smallsort j => j.rank T
  | sampleSort s => s.rank T

theorem Holds.agree (h : l.Holds T cl g subs) (ha : Agree l.share.window g g') :
    l.Holds T cl g' subs := by
  cases l with
  | smallsort j => exact SmallsortJob.Holds.agree h ha
  | sampleSort s => exact SampleSortJobs.Holds.agree h ha

theorem Holds.share_inside (h : l.Holds T cl g subs) (hc : c ∈ subs) :
    c.window.Inside l.share.window := by
  cases l with
  | smallsort j => exact SmallsortJob.Holds.share_inside h hc
  | sampleSort s => exact SampleSortJobs.Holds.share_inside h hc

theorem Holds.share_apart (h : l.Holds T cl g (pre ++ c :: post)) :
    ∀ d ∈ pre ++ post, c.window.Apart d.window := by
  cases l with
  | smallsort j => exact SmallsortJob.Holds.share_apart h
  | sampleSort s => exact SampleSortJobs.Holds.share_apart h

theorem Holds.subEffect (h : l.Holds T cl g (pre ++ c :: post)) (he : Effect c.window g g') :
    l.Holds T cl g' (pre ++ c :: post) := by
  cases l with
  | smallsort j => exact SmallsortJob.Holds.subEffect h he
  | sampleSort s => exact SampleSortJobs.Holds.subEffect h he

end SortProcess

/-- A substep that has just been created. -/
theorem SortContext.enqueue_holds (ctx : SortContext S) (part : ℕ × ℕ) {call : RangeCall}
    (hcall : T.CallOk g call) : (ctx.enqueue part call).Holds T cl g [] := by
  rw [SortContext.enqueue]
  split
  · -- a `SampleSortStep`
    exact ⟨rfl, rfl, hcall⟩
  · -- a `SmallsortJob`
    exact ⟨rfl, rfl, Or.inl hcall⟩

theorem SortContext.enqueue_share (ctx : SortContext S) (part : ℕ × ℕ) (call : RangeCall) :
    (ctx.enqueue part call).share = ⟨part, call.window⟩ := by
  rw [SortContext.enqueue]
  split <;> rfl

theorem SortContext.enqueue_rank (ctx : SortContext S) (part : ℕ × ℕ) (call : RangeCall) :
    (ctx.enqueue part call).rank T = T.callRank call := by
  rw [SortContext.enqueue]
  split <;> rfl

/-- What an action leaves does not depend on the view of the sort step. -/
theorem SortOutcome.Ok.map {P Q : Type} {f : P → Q} {holds : Ghost S → P → List WorkShare → Prop}
    {holds' : Ghost S → Q → List WorkShare → Prop} {share : P → WorkShare} {share' : Q → WorkShare}
    {rank : P → ℕ} {rank' : Q → ℕ} {p : P} {o : SortOutcome S P}
    (h : o.Ok T holds share rank g p subs g')
    (hholds : ∀ q subs, holds g' q subs → holds' g' (f q) subs)
    (hshare : ∀ q, share' (f q) = share q) (hrank : ∀ q, rank' (f q) = rank q) :
    (o.map f).Ok T holds' share' rank' g (f p) subs g' where
  mem := h.mem
  touches := by
    rw [hshare]
    exact h.touches
  share_eq := by
    rw [hshare, ← h.share_eq]
    exact hshare _
  holds := hholds _ _ h.holds
  enqueued := h.enqueued
  calls := h.calls
  rank := by
    rw [hrank]
    show rank' (f o.proc) + _ < _
    rw [hrank]
    exact h.rank

namespace SortProcess

/-- While the jobs of a sort step have something to do themselves, they do not fail. -/
theorem Holds.step_ok (hcl : cl.Usable) (h : l.Holds T cl g subs) {p : ℕ} (henabled : l.Enabled p)
    (totalsize threadnum : ℕ) (inp : JobInput) :
    ∃ o g', (T.context cl totalsize threadnum).step inp p g.mem l = some o ∧
      o.Ok T (Holds T cl) share (rank T) g l subs g' := by
  cases l with
  | smallsort j =>
    obtain ⟨o, g', heq, hok⟩ := SmallsortJob.step_ok hcl h henabled.1 henabled.2 inp
    refine ⟨o.map smallsort, g', ?_, hok.map (fun _ _ h => h) (fun _ => rfl) fun _ => rfl⟩
    exact congrArg (Option.map (SortOutcome.map smallsort)) heq
  | sampleSort s =>
    obtain ⟨o, g', heq, hok⟩ := SampleSortJobs.step_ok hcl h henabled inp
    refine ⟨o.map sampleSort, g', ?_, hok.map (fun _ _ h => h) (fun _ => rfl) fun _ => rfl⟩
    exact congrArg (Option.map (SortOutcome.map sampleSort)) heq

/-- A sort step has something to do itself until it is finished, or waits for its substeps. -/
theorem Holds.enabled_or_waits (h : l.Holds T cl g subs) (hfin : ¬ l.Finished) :
    (∃ p, l.Enabled p) ∨ subs ≠ [] := by
  cases l with
  | smallsort j =>
    by_cases hwaiting : j.phase = .waiting
    · rw [Holds, SmallsortJob.Holds, hwaiting] at h
      -- `run` returns only when something has been freed and is not finished
      obtain ⟨k, -, -, -, -, -, hne⟩ := h
      exact Or.inr fun hnil => hne (by rw [hnil]; rfl)
    · exact Or.inl ⟨0, hwaiting, hfin⟩
  | sampleSort s =>
    by_cases hwaiting : s.stage = .waiting
    · rw [Holds, SampleSortJobs.Holds, hwaiting] at h
      exact Or.inr h.2.2
    · -- in all other stages one of the parts can go on
      exact Or.inl (SampleSortJobs.Holds.exists_enabled h hwaiting hfin)

/-- Every substep that has not finished is counted. -/
theorem Holds.working_pos (h : l.Holds T cl g subs) (hne : subs ≠ []) : l.working > 0 := by
  have hpos := List.length_pos_iff.mpr hne
  -- both counters are at least the number of substeps
  cases l with
  | smallsort j =>
    obtain ⟨k, -, hat⟩ := SmallsortJob.Holds.jobInv h hne
    exact hpos.trans_le hat.working_ge
  | sampleSort s =>
    obtain ⟨i, -, hat⟩ := SampleSortJobs.Holds.dealInv h hne
    exact hpos.trans_le hat.working_ge

/-- The superstep goes on when a substep has finished. -/
theorem Holds.notify_ok (h : l.Holds T cl g (pre ++ c :: post))
    (hc : T.Covers g c.window [] fun _ => False) :
    ∃ l', l.notify c.part = some l' ∧ l'.Holds T cl g (pre ++ post) ∧ l'.share = l.share ∧
      l'.rank T < l.rank T := by
  rw [notify, if_pos (h.working_pos (by simp))]
  refine ⟨_, rfl, ?_⟩
  cases l with
  | smallsort j => exact SmallsortJob.join_ok h hc
  | sampleSort s => exact SampleSortJobs.join_ok h hc

/-- A sort step that has finished has sorted its window. -/
theorem Holds.finished (h : l.Holds T cl g subs) (hfin : l.Finished) :
    subs = [] ∧ T.Covers g l.share.window [] fun _ => False := by
  cases l with
  | smallsort j =>
    rw [Holds, SmallsortJob.Holds, show j.phase = .finished from hfin] at h
    exact ⟨h.1, h.2.1⟩
  | sampleSort s =>
    rw [Holds, SampleSortJobs.Holds, show s.stage = .finished from hfin] at h
    exact ⟨h.1, h.2.1⟩

end SortProcess

end Step

/-! ## All interleavings -/

section Logic

variable {S : Type}

/-- No assertion fails, and all strings of a call share its depth. -/
def SortLabel.Safe (ss : StringSet S) : SortLabel S → Prop
  | calls cs => ∀ c ∈ cs, SharesDepth ss.chars (c.1.1.active.get c.2) c.1.1.size c.1.2
  | fails => False

/-- The sort steps of a task keep apart. -/
def sortLogic (T : SortTask S) {cl : ClassifierClass} (hcl : cl.Usable) (totalsize threadnum : ℕ) :
    (T.context cl totalsize threadnum).jobs.Logic (Ghost S) WorkShare where
  mem := Ghost.mem
  foot := SortProcess.share
  holds g l ls := l.Holds T cl g (ls.map SortProcess.share)
  effect w := Effect w.window
  agree w := Agree w.window
  safe := SortLabel.Safe T.ss
  rank := SortProcess.rank T
  effect_refl w g := Effect.refl w.window g
  effect_trans h h' := h.trans h'
  agree_holds h ha := h.agree ha
  agree_sub h ha c hc := ha.sub (h.share_inside (List.mem_map_of_mem hc))
  effect_sub h c hc he := he.widen (h.share_inside (List.mem_map_of_mem hc))
  effect_agree h he o ho := by
    rw [List.map_append, List.map_cons] at h
    refine he.agree (h.share_apart _ ?_)
    rw [← List.map_append]
    exact List.mem_map_of_mem ho
  sub_step h he hfoot := by
    rw [List.map_append, List.map_cons] at h ⊢
    rw [hfoot]
    exact h.subEffect he
  act_step h hact := by
    cases hact with
    | action inp p henabled hstep =>
      -- the job has a result by its invariant, and the action can have no other one
      obtain ⟨o, g', heq, hok⟩ := h.step_ok hcl henabled totalsize threadnum inp
      obtain rfl := Option.some_inj.mp (heq.symm.trans hstep)
      have hnew : (List.map (fun e => (T.context cl totalsize threadnum).enqueue e.part e.call)
          o.enqueued).map SortProcess.share = o.enqueued.map EnqueuedWork.share := by
        rw [List.map_map]
        exact List.map_congr_left fun e _ => SortContext.enqueue_share _ e.part e.call
      -- the fields of `hok`, read for the processes that the enqueued calls become
      refine ⟨fun c hc => ?_, g', hok.mem, hok.touches.effect, hok.share_eq, ?_, fun l' hl' => ?_,
        fun l' hl' => hok.touches.agree _ (List.mem_map_of_mem hl'), ?_⟩
      · rcases List.mem_append.mp hc with hc | hc
        · exact hok.calls c hc
        · obtain ⟨e, he, rfl⟩ := List.mem_map.mp hc
          -- what is enqueued is a call of the memory behind the action
          rw [← hok.mem]
          exact (hok.enqueued e he).sharesDepth
      · rw [List.map_append, hnew]
        exact hok.holds
      · obtain ⟨e, he, rfl⟩ := List.mem_map.mp hl'
        exact SortContext.enqueue_holds _ e.part (hok.enqueued e he)
      · rw [List.map_map]
        have hrank := hok.rank
        rwa [List.map_congr_left fun e _ =>
          (SortContext.enqueue_rank (T := T) (T.context cl totalsize threadnum) e.part e.call).symm]
          at hrank
    | fails inp p henabled hstep =>
      obtain ⟨o, g', heq, hok⟩ := h.step_ok hcl henabled totalsize threadnum inp
      -- an enabled job has a result
      exact absurd (heq.symm.trans hstep) (Option.some_ne_none o)
  join_step h hfin hsub hjoin := by
    rw [List.map_append, List.map_cons] at h
    -- a finished substep has covered its window, which is what its superstep waits for
    obtain ⟨l', hnotify, hholds, hshare, hrank⟩ := h.notify_ok (hsub.finished hfin).2
    obtain ⟨rfl, hjoin⟩ := hjoin
    obtain rfl := Option.some_inj.mp (hnotify.symm.trans hjoin)
    refine ⟨_, rfl, Effect.refl _ _, hshare, ?_, fun o _ => Agree.refl _ _, hrank⟩
    rwa [List.map_append]
  progress h hfin := by
    rcases h.enabled_or_waits hfin with ⟨p, henabled⟩ | hwaits
    · -- no random number and no answer of `has_idle` can stop it, so take any
      obtain ⟨o, g', heq, -⟩ :=
        h.step_ok hcl henabled totalsize threadnum ⟨false, id, fun _ => 0, fun _ => 0⟩
      exact Or.inl ⟨_, _, _, _, .action _ p henabled heq⟩
    · refine Or.inr ⟨fun hnil => hwaits (by rw [hnil]; rfl), fun c hc hcfin => ?_⟩
      exact ⟨_, _, rfl, if_pos (h.working_pos hwaits)⟩

end Logic

/-! ## Whole sorts -/

section Sorts

variable {S : Type} {ss : StringSet S} {cls : StringPtrClass} {cl : ClassifierClass}
  {n : ℕ}

theorem UCharSetOf.sortable (h : UCharSetOf ss) : ss.Sortable := by
  cases h with
  | ucharStringSet mem => exact UCharStringSet.sortable mem
  | ucharSuffixSet mem text textSize hnul => exact UCharSuffixSet.sortable hnul

theorem ClassifierClass.IsInterleaveX.usable (h : cl.IsInterleaveX) : cl.Usable := by
  rcases h with rfl | rfl
  · exact usable_treeUnrollInterleave
  · exact usable_treeCalcUnrollInterleave

/-- A sort does not fail, makes right calls only, goes on until it is finished, and ends. -/
structure SortRuns (ss : StringSet S)
    (sort : Transition (Memory S × ProcessTree SortProcess) (Option (SortLabel S))) : Prop where
  calls : ∀ s cs s', sort.Reachable s → sort.step s (some (.calls cs)) s' → ∀ c ∈ cs,
    SharesDepth ss.chars (c.1.1.active.get c.2) c.1.1.size c.1.2
  noFailure : ∀ s s', sort.Reachable s → ¬ sort.step s (some .fails) s'
  goesOn : ∀ s, sort.Reachable s → ¬ s.2.root.Finished → ∃ a s', sort.step s a s'
  ends : ∃ bound, ∀ tr s, sort.Run tr s → tr.length ≤ bound

/-- From a sort step whose condition holds on. -/
theorem sortRuns_of_holds {T : SortTask S} {hcl : cl.Usable} {totalsize threadnum : ℕ} {g : Ghost S}
    {l : SortProcess} (hroot : (sortLogic T hcl totalsize threadnum).holds g l []) :
    SortRuns T.ss ((T.context cl totalsize threadnum).jobs.system g.mem l) where
  calls _ _ _ hs hstep := (sortLogic T hcl totalsize threadnum).run_safe hroot hs hstep
  noFailure _ _ hs hstep := (sortLogic T hcl totalsize threadnum).run_safe hroot hs hstep
  goesOn s hs hfin := by
    obtain ⟨g', hm, -, -, hholds⟩ :=
      (sortLogic T hcl totalsize threadnum).reachable_holds hroot hs
    -- the condition of the whole tree gives an action at one of its nodes
    obtain ⟨a, m', t', hstep⟩ := (sortLogic T hcl totalsize threadnum).exists_step hholds hfin
    rw [hm] at hstep
    exact ⟨a, (m', t'), hstep⟩
  ends := ⟨_, fun _ _ hrun => (sortLogic T hcl totalsize threadnum).run_length_le hroot hrun⟩

/-- A parallel sort of strings without zero characters has sorted its window when it has finished,
and it comes to that. -/
theorem parallelSampleSort_complete (hss : ss.Sortable) (cls : StringPtrClass)
    (hread : cls.hasCache = true → ss.ReadsEnd) (hcl : cl.Usable) (threadnum lo : ℕ) (hn : 0 < n)
    (m : Memory S) :
    let sort := parallelSampleSort cls ss cl threadnum (cls.pointer false lo n) 0 m
    SortRuns ss sort ∧ ∀ s, sort.Reachable s → s.2.root.Finished →
      SortsWindow cls ss false lo n m s.1 := by
  intro sort
  -- the whole array is one piece of a task, with the sorted strings as its target
  obtain ⟨T, g, rfl, rfl, rfl, hP⟩ := exists_sortTask hss hread m false lo 0 hn
    fun _ _ (_ : InWindow lo n _) _ => SharePrefix.zero _ _
  let P := sortLogic T hcl n threadnum
  have hroot : P.holds g ((T.context cl n threadnum).enqueue (0, 0)
      (T.cls.pointer false lo n, 0)) [] :=
    SortContext.enqueue_holds _ _ ⟨_, hP, rfl⟩
  refine ⟨sortRuns_of_holds hroot, fun s hs hfin => ?_⟩
  obtain ⟨g', hm, he, hshare, hholds⟩ := P.reachable_holds hroot hs
  obtain ⟨m', l, ts⟩ := s
  -- the root never changes its share, which is everything
  have hwindow : l.share.window = ⟨lo, n⟩ := by
    rw [show l.share = _ from hshare]
    exact congrArg WorkShare.window (SortContext.enqueue_share _ _ _)
  have hc := (SortProcess.Holds.finished hholds.root hfin).2
  have he' : Effect l.share.window g g' := by
    rw [show l.share = _ from hshare]
    exact he
  rw [hwindow] at hc he'
  -- a finished root has covered all places, so each holds the string of the target
  have hsorts := Covers.sortsWindow hP he' hc
  rwa [show g'.mem = m' from hm] at hsorts

/-- When a parallel sort without LCPs has finished, the output array holds the strings in sorted
order; and all strings of every call share the depth of the call. -/
theorem parallelSampleSort_sorts (hset : UCharSetOf ss)
    (hcls : cls = .StringShadowPtr ∨ cls = .StringShadowOutPtr) (hcl : cl.IsInterleaveX)
    (threadnum lo : ℕ) (hn : 1 ≤ n) (m : Memory S) :
    let sort := parallelSampleSort cls ss cl threadnum (cls.pointer false lo n) 0 m
    SortRuns ss sort ∧ ∀ s, sort.Reachable s → s.2.root.Finished →
      (slice (s.1.strings cls.outputArray) lo n).Perm (slice (m.strings .original) lo n) ∧
      ∀ p q, lo ≤ p → p ≤ q → q < lo + n →
        ss.chars (s.1.strings cls.outputArray p) ≤ ss.chars (s.1.strings cls.outputArray q) := by
  -- neither class has a cache, so the ends of the strings need not be read
  have hcache : cls.hasCache = true → ss.ReadsEnd := fun hc => by
    rcases hcls with rfl | rfl <;> exact absurd hc Bool.false_ne_true
  obtain ⟨hruns, hcomplete⟩ :=
    parallelSampleSort_complete hset.sortable cls hcache hcl.usable threadnum lo hn m
  exact ⟨hruns, fun s hs hfin => ⟨(hcomplete s hs hfin).perm, (hcomplete s hs hfin).sorted⟩⟩

/-- Forty words are sorted with sixteen threads. -/
theorem parallelSampleSort_sorts_words :
    let ss := UCharStringSet wordMem
    let m : Memory (CString wordMem) := ⟨fun _ => word, fun _ => 7, fun _ => 0⟩
    let sort := parallelSampleSort .StringShadowOutPtr ss (.treeUnrollInterleave 4) 16
      (StringPtrClass.StringShadowOutPtr.pointer false 3 40) 0 m
    SortRuns ss sort ∧ ∀ s, sort.Reachable s → s.2.root.Finished →
      (slice (s.1.strings .output) 3 40).Perm (slice (m.strings .original) 3 40) ∧
      ∀ p q, 3 ≤ p → p ≤ q → q < 3 + 40 →
        ss.chars (s.1.strings .output p) ≤ ss.chars (s.1.strings .output q) :=
  parallelSampleSort_sorts (.ucharStringSet _) (Or.inr rfl) (Or.inl rfl) 16 3 (by norm_num) _

/-- When a parallel sort with LCPs has finished, its entries are the common prefixes of neighbouring
output strings and, where there is a cache, the characters behind them; the first entries are as
before. -/
theorem parallelSampleSort_lcps {mem : ℕ → CharType} (hlcp : cls.withLcp = true)
    (hcl : cl.IsInterleaveX) (threadnum lo : ℕ) (hn : 1 ≤ n) (m : Memory (CString mem)) :
    let ss := UCharStringSet mem
    let sort := parallelSampleSort cls ss cl threadnum (cls.pointer false lo n) 0 m
    SortRuns ss sort ∧ ∀ s, sort.Reachable s → s.2.root.Finished →
      (∀ i, 1 ≤ i → i < n →
        s.1.lcps (lo + i) = lcpOf ss (s.1.strings cls.outputArray (lo + (i - 1)))
          (s.1.strings cls.outputArray (lo + i)) ∧
        (cls.hasCache = true → s.1.cache (lo + i) =
          charOf ss (s.1.strings cls.outputArray (lo + i)) (s.1.lcps (lo + i)))) ∧
      s.1.lcps lo = m.lcps lo ∧ s.1.cache lo = m.cache lo := by
  intro ss sort
  obtain ⟨hruns, hcomplete⟩ := parallelSampleSort_complete (UCharStringSet.sortable mem) cls
    (fun _ => UCharStringSet.readsEnd mem) hcl.usable threadnum lo hn m
  refine ⟨hruns, fun s hs hfin => ?_⟩
  have hsorts := hcomplete s hs hfin
  refine ⟨fun i hpos hi => ⟨?_, fun hcache => hsorts.cache hcache _ (by omega) (by omega)⟩,
    hsorts.lcps_outside lo (by omega), hsorts.cache_outside lo (by omega)⟩
  rw [show lo + (i - 1) = lo + i - 1 by omega]
  exact hsorts.lcps hlcp _ (by omega) (by omega)

/-- Forty words are sorted with LCPs and distinguishing characters. -/
theorem parallelSampleSort_lcps_words :
    let ss := UCharStringSet wordMem
    let m : Memory (CString wordMem) := ⟨fun _ => word, fun _ => 7, fun _ => 0⟩
    let sort := parallelSampleSort .StringShadowLcpCacheOutPtr ss (.treeCalcUnrollInterleave 4) 16
      (StringPtrClass.StringShadowLcpCacheOutPtr.pointer false 3 40) 0 m
    SortRuns ss sort ∧ ∀ s, sort.Reachable s → s.2.root.Finished →
      (∀ i, 1 ≤ i → i < 40 →
        s.1.lcps (3 + i) = lcpOf ss (s.1.strings .output (3 + (i - 1)))
          (s.1.strings .output (3 + i)) ∧
        (StringPtrClass.StringShadowLcpCacheOutPtr.hasCache = true → s.1.cache (3 + i) =
          charOf ss (s.1.strings .output (3 + i)) (s.1.lcps (3 + i)))) ∧
      s.1.lcps 3 = m.lcps 3 ∧ s.1.cache 3 = m.cache 3 :=
  parallelSampleSort_lcps rfl (Or.inr rfl) 16 3 (by norm_num) _

end Sorts

end StringSampleSort
