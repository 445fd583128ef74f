import StringSampleSort.Parallel.JobFreeWork

/-!
# The actions of a small sort

Every action of a `SmallsortJob` keeps its condition and leaves less to do, from `run` up to the end
of `substep_all_done`; so does the notification that a substep has finished.  A job never fails, and
while it has something to do itself there is an action.

## Main results

- `SmallsortJob.step_ok`: the actions of a job
- `SmallsortJob.join_ok`: a substep has finished
- `SmallsortJob.Holds.agree`, `SmallsortJob.Holds.subEffect`: what other jobs do
-/

namespace StringSampleSort

open Library Slice SortTask

variable {S : Type} {T : SortTask S} {cl : ClassifierClass} {w : Window} {k : JobStacks}
  {subs : List WorkShare} {g g' : Ghost S} {j : SmallsortJob} {P : Piece}

/-! ## The end of a job -/

section Finish

variable {base : ℕ} {sf : List SeqSampleSortStep} {mf : List MKQSStep}

/-- Nothing is outstanding: the freed steps have still to write their entries. -/
theorem JobInv.allDone (h : JobInv T cl w ⟨base, [], [], sf, [], mf⟩ [] g j) (working : ℕ)
    (phase : JobPhase) : AllDoneInv T cl w sf mf g { j with working, phase } where
  ms_stack := ⟨[], h.mkqs.stack⟩
  ms_pop_front := h.mkqs.pop_front
  msOk ms hms := ⟨base, h.mkqs.steps ms hms⟩
  ss_stack := ⟨[], h.ss_stack⟩
  ss_pop_front := h.ss_pop_front
  ssOk := h.ssOk
  ssDone := h.ssDone
  plan := h.plan

/-- The wrapper job is finished. -/
theorem JobInv.release_ok (h : JobInv T cl j.window k subs g j)
    (hat : k.At subs.length j.working j.phase) (hphase : j.phase = .release) :
    SortOutcome.Ok T (SmallsortJob.Holds T cl) SmallsortJob.share (SmallsortJob.rank T) g j subs g
      ({ j with phase := .waiting }.notifyDone.outcome g.mem) := by
  have hat₀ := hat
  rw [hphase] at hat
  obtain ⟨hcur, hsl, hml, hworking⟩ := hat
  obtain ⟨base, sl, cur, sf, ml, mf⟩ := k
  simp only at hcur hsl hml
  subst hcur hsl hml
  -- the stacks are empty by now, so what is left is what has been handed over
  have hrank := SmallsortJob.rank_of_at (T := T) hat₀
  rw [h.work_eq, hphase] at hrank
  -- with no substep outstanding this was the last handle
  cases subs with
  | nil =>
    have hzero : j.working - 1 = 0 := by simp [hworking]
    rw [SmallsortJob.notifyDone_last (j := { j with phase := .waiting }) hzero]
    refine ⟨rfl, Touches.refl _ _ _, rfl, ⟨rfl, sf, mf, h.allDone _ _⟩, by
      simp [SmallsortJob.outcome], by simp [SmallsortJob.outcome], ?_⟩
    have hms : j.ms_pop_front = mf.length := h.mkqs.pop_front
    have hss : j.ss_pop_front = sf.length := h.ss_pop_front
    simp only [SmallsortJob.outcome, SmallsortJob.rank, JobPhase.rank, JobStacks.work, hms, hss,
      List.map_nil, List.sum_nil] at hrank ⊢
    omega
  | cons c subs =>
    -- a substep still holds a handle, and the job waits
    have hmore : ¬ j.working - 1 = 0 := by simp [hworking]
    rw [SmallsortJob.notifyDone_more (j := { j with phase := .waiting }) hmore]
    refine .of_at (k := ⟨base, [], [], sf, [], mf⟩) hrank rfl (Touches.refl _ _ _) rfl ?_
      ⟨rfl, rfl, rfl, ?_, ?_⟩ (by simp [SmallsortJob.outcome]) (by simp [SmallsortJob.outcome]) ?_
    · simp only [SmallsortJob.outcome, List.map_nil, List.append_nil]
      exact { h with }
    · simp [SmallsortJob.outcome, hworking]
    · simp
    · simp only [SmallsortJob.outcome, JobPhase.rank, List.map_nil, List.sum_nil]
      omega

/-- The freed levels, the uppermost one first. -/
theorem AllDoneInv.drop_stack {α : Type} {stack freed : List α} {pop : ℕ}
    (hstack : ∃ done, stack = done ++ freed) (hpop : pop = freed.length) :
    stack.drop (stack.length - pop) = freed := by
  obtain ⟨done, rfl⟩ := hstack
  rw [hpop, StringSampleSort.drop_stack]

theorem AllDoneInv.holds (h : AllDoneInv T cl j.window sf mf g j) (hphase : j.phase = .allDone) :
    j.Holds T cl g [] := by
  rw [SmallsortJob.Holds, hphase]
  exact ⟨rfl, sf, mf, h⟩

theorem SmallsortJob.rank_allDone (hphase : j.phase = .allDone) :
    j.rank T = j.ms_pop_front + j.ss_pop_front + 1 := by
  rw [SmallsortJob.rank, hphase]

/-- An action after which LCPs have still to be calculated. -/
theorem AllDoneInv.outcome_ok {j' : SmallsortJob} (hphase : j.phase = .allDone)
    (hphase' : j'.phase = .allDone) (hshare : j'.share = j.share)
    (h : AllDoneInv T cl j'.window sf mf g' j') (he : Effect j.window g g')
    (hlt : j'.ms_pop_front + j'.ss_pop_front < j.ms_pop_front + j.ss_pop_front) :
    SortOutcome.Ok T (SmallsortJob.Holds T cl) SmallsortJob.share (SmallsortJob.rank T) g j [] g'
      (j'.outcome g'.mem) where
  mem := rfl
  touches := ⟨he, by simp⟩
  share_eq := hshare
  holds := h.holds hphase'
  enqueued := by simp [SmallsortJob.outcome]
  calls := by simp [SmallsortJob.outcome]
  rank := by
    rw [SmallsortJob.rank_allDone hphase, SmallsortJob.outcome, SmallsortJob.rank_allDone hphase']
    simpa using hlt

/-- A round of the loops of `substep_all_done()`, or their end. -/
theorem AllDoneInv.substepAllDone_ok (h : AllDoneInv T cl j.window sf mf g j)
    (hphase : j.phase = .allDone) :
    ∃ o g', SmallsortJob.substepAllDone T.cls T.ss cl g.mem j = some o ∧
      o.Ok T (SmallsortJob.Holds T cl) SmallsortJob.share (SmallsortJob.rank T) g j [] g' := by
  have hmspop := h.ms_pop_front
  have hsspop := h.ss_pop_front
  rw [SmallsortJob.substepAllDone]
  -- the freed steps of multikey quicksort come first, then those of sample sort
  cases mf with
  | cons ms mf =>
    rw [if_pos (by simp [hmspop]), AllDoneInv.drop_stack h.ms_stack hmspop]
    dsimp only
    obtain ⟨base, hok⟩ := h.msOk ms (List.mem_cons_self ..)
    have hplan : JobPlan T g j.window [] (ms.freed.toLevel :: mkqsLevels (mf.map .freed)
        (sf.map SeqSampleSortStep.stepLevel)) [] j.created j.history := h.plan
    -- all three parts of the step are finished, so its entries are what they should be
    have hcalc := hok.freed.calculated g
    have hinside := hplan.plan.inside ms.freed.toLevel (by simp)
    refine ⟨_, ⟨ms.calculateLcp T.cls g.mem, g.value⟩, rfl, AllDoneInv.outcome_ok
      hphase hphase rfl (?_ : AllDoneInv T cl j.window sf mf _ _) (hcalc.effect.widen hinside) ?_⟩
    · exact {
        ms_stack := by
          obtain ⟨done, hdone⟩ := h.ms_stack
          exact ⟨done ++ [ms], by simp [SmallsortJob.note, hdone]⟩
        ms_pop_front := by simp [SmallsortJob.note, hmspop]
        msOk := fun a ha => h.msOk a (List.mem_cons_of_mem _ ha)
        ss_stack := h.ss_stack
        ss_pop_front := hsspop
        ssOk := h.ssOk
        ssDone := h.ssDone
        plan := hplan.closeFreed (le_refl 3) hcalc }
    · simp [SmallsortJob.note, hmspop]
  | nil =>
    rw [if_neg (by simp [hmspop])]
    cases sf with
    | cons s sf =>
      rw [if_pos (by simp [hsspop]), AllDoneInv.drop_stack h.ss_stack hsspop]
      dsimp only
      have hok := h.ssOk s (List.mem_cons_self ..)
      have hdone := h.ssDone s (List.mem_cons_self ..)
      have hplan : JobPlan T g j.window [] (s.stepLevel :: sf.map SeqSampleSortStep.stepLevel) []
          j.created j.history := h.plan
      -- its buckets are finished, since nothing is outstanding
      obtain ⟨m, heq, hcalc⟩ := hok.calculateLcp_spec false s.level s.idx
        fun p hp => hplan.plan.finishedFreed hdone hp
      have hinside := hplan.plan.inside s.stepLevel (by simp)
      rw [heq]
      refine ⟨_, ⟨m, g.value⟩, rfl, AllDoneInv.outcome_ok hphase hphase rfl
        (?_ : AllDoneInv T cl j.window sf [] _ _) (hcalc.effect.widen hinside) ?_⟩
      · exact {
          ms_stack := h.ms_stack
          ms_pop_front := hmspop
          msOk := h.msOk
          ss_stack := by
            obtain ⟨done, hdone⟩ := h.ss_stack
            exact ⟨done ++ [s], by simp [SmallsortJob.note, hdone]⟩
          ss_pop_front := by simp [SmallsortJob.note, hsspop]
          ssOk := fun a ha => h.ssOk a (List.mem_cons_of_mem _ ha)
          ssDone := fun a ha => h.ssDone a (List.mem_cons_of_mem _ ha)
          plan := hplan.closeFreed hdone hcalc }
      · simp [SmallsortJob.note, hsspop]
    | nil =>
      rw [if_neg (by simp [hsspop])]
      have hplan : JobPlan T g j.window [] [] [] j.created j.history := h.plan
      -- no step is left, and the plan is done
      refine ⟨_, g, rfl, rfl, Touches.refl _ _ _, rfl,
        ⟨rfl, hplan.done.1, hplan.accounts.ledger.valid, hplan.done.2⟩,
        by simp [SmallsortJob.outcome], by simp [SmallsortJob.outcome], ?_⟩
      rw [SmallsortJob.rank_allDone hphase]
      simp [SmallsortJob.outcome, SmallsortJob.rank]

end Finish

/-! ## The beginning of a job -/

section Start

theorem Memory.write_empty (m : Memory S) {r : StringRange} (A : ℕ → S) (hr : r.size = 0) :
    m.write r A = m := by
  rw [Memory.write, hr, splice_zero, Function.update_eq_self]

theorem Memory.move_empty (m : Memory S) {src : StringRange} (dst : StringRange)
    (hsrc : src.size = 0) : m.move src dst = m := m.write_empty _ hsrc

/-- Nothing is sorted where there are no strings. -/
theorem insertionSort_empty (cls : StringPtrClass) (ss : StringSet S) (f : Bool) (lo depth : ℕ)
    (m : Memory S) : cls.insertionSort ss (cls.pointer f lo 0) depth m = m := by
  have houtput : (cls.output (cls.pointer f lo 0)).size = 0 := by
    rw [StringPtrClass.output]
    split <;> rfl
  rw [StringPtrClass.insertionSort]
  split
  · simp only [StringPtrClass.size_pointer, splice_zero, Memory.write_empty _ _ houtput]
  · exact Memory.write_empty _ _ houtput

/-- Nothing is moved where there are no strings. -/
theorem copyBack_empty (cls : StringPtrClass) (f : Bool) (lo : ℕ) (m : Memory S) :
    ∃ f', cls.copyBack (cls.pointer f lo 0) m = (cls.pointer f' lo 0, m) := by
  rw [StringPtrClass.copyBack]
  -- with an output array the pointer turns back, without one it may stay flipped
  split
  · refine ⟨false, ?_⟩
    rw [StringPtrClass.original_pointer]
    split
    · rw [Memory.move_empty _ _ rfl]
    · rfl
  · split
    · exact ⟨f, rfl⟩
    · refine ⟨!f, ?_⟩
      rw [StringPtrClass.flip_pointer, Memory.move_empty _ _ rfl]

/-- A job without strings. -/
theorem callMkqs_empty (cls : StringPtrClass) (ss : StringSet S) (inp : JobInput) (f : Bool)
    (lo depth : ℕ) (m : Memory S) (j : SmallsortJob) :
    SmallsortJob.callMkqs cls ss inp none (cls.pointer f lo 0) depth m j =
      some ⟨m, { j with phase := .release }, [], [((cls.pointer f lo 0, depth), m)]⟩ := by
  obtain ⟨f', hback⟩ := copyBack_empty cls f lo m
  -- so few strings go to insertion sort, which finds none
  have hcall : callMkqsCache cls ss inp.fresh none (cls.pointer f lo 0) depth (j.mkqsState m) =
      some (false, j.mkqsState m) := by
    have hsmall : (!enableSequentialMkqs ||
        decide ((cls.pointer f lo 0).size < parallelInssortThreshold)) = true := rfl
    rw [callMkqsCache, if_pos hsmall]
    simp only [SmallsortJob.mkqsState, hback, insertionSort_empty]
    rfl
  rw [SmallsortJob.callMkqs, hcall]
  rfl

/-- The first step of a job is one of sample sort. -/
theorem SmallsortJob.emplaceSample_ok (hcl : cl.Usable) (part : ℕ × ℕ) (hP : T.PieceOk g P)
    (inp : JobInput) {j : SmallsortJob}
    (hj : j = { SmallsortJob.new part (T.pointer P) P.depth with
      working := 1, keys := inp.fresh, bktcache_size := P.window.size * 2 }) :
    ∃ o g', SmallsortJob.emplaceSample T.ss cl inp (.loop .sampleSort) (T.pointer P) P.depth g.mem j
        = some o ∧
      o.Ok T (SmallsortJob.Holds T cl) SmallsortJob.share (SmallsortJob.rank T) g
        (.new part (T.pointer P) P.depth) [] g' := by
  obtain ⟨st, g', heq, hframe, hwindow, hok, hpieces, hcovers, hrank, he⟩ :=
    newSampleStep_level hcl inp.rng j.created hP
  rw [SmallsortJob.emplaceSample, heq]
  subst hj
  -- the piece in hand becomes the first level of the plan
  have hplan : JobPlan T g' P.window [st.stepLevel] [] [] 1 [.create 0 (st.shape false)] := by
    have hfirst := JobPlan.first (k := st.stepLevel) (g := g) (T := T) (by rwa [hwindow])
      (by rw [hframe]; rfl) hcovers hpieces
    rw [hframe, hwindow] at hfirst
    exact hfirst
  refine ⟨_, g', rfl, .of_at (k := ⟨0, [st], [], [], [], []⟩) rfl rfl ⟨he, by simp⟩ rfl ?_
    ⟨rfl, rfl, rfl⟩ (by simp) (List.forall_mem_singleton.mpr hP.sharesDepth) ?_⟩
  · exact .of_plan rfl rfl rfl rfl (by simpa using hok) (by simp) hplan
  · -- the rank of the call has been set aside for the steps of the job
    have hcall : T.callRank (T.pointer P, P.depth) =
        rankScale * (T.windowRank P.window P.depth + 7) := rfl
    simp only [SmallsortJob.rank, SmallsortJob.new, hcall, JobStacks.work, SmallsortJob.note,
      JobPhase.rank, JobLoop.rank, List.map_nil, List.map_cons, List.append_nil, levelsRank_nil,
      levelsRank_cons, List.length_nil, List.sum_nil, rankScale]
    omega

/-- The first step of a job is one of multikey quicksort, or the strings are sorted at once. -/
theorem SmallsortJob.callMkqs_ok (part : ℕ × ℕ) (hP : T.PieceOk g P) (inp : JobInput)
    {j : SmallsortJob}
    (hj : j = { SmallsortJob.new part (T.pointer P) P.depth with working := 1 }) :
    ∃ o g', SmallsortJob.callMkqs T.cls T.ss inp none (T.pointer P) P.depth g.mem j = some o ∧
      o.Ok T (SmallsortJob.Holds T cl) SmallsortJob.share (SmallsortJob.rank T) g
        (.new part (T.pointer P) P.depth) [] g' := by
  subst hj
  -- the call may sort at once, or leave a step for the loop
  obtain ⟨loop, live, g', s', heq, hinv, he, hloop, hrank⟩ := callMkqsCache_first
    (s := SmallsortJob.mkqsState
      { SmallsortJob.new part (T.pointer P) P.depth with working := 1 } g.mem)
    inp.fresh hP rfl rfl rfl rfl rfl (by simp [SmallsortJob.mkqsState])
  rw [SmallsortJob.callMkqs, heq]
  refine ⟨_, g', rfl, .of_at (k := ⟨P.window.lo, [], [], [], live, []⟩) rfl hinv.mem ⟨he, by simp⟩
    rfl ?_ ?_ (by simp) (MkqsState.calls_ok hP hinv.entries) ?_⟩
  · exact .of_mkqs hinv rfl rfl (by simp) (by simp) (by simp)
  · cases loop with
    | true => exact ⟨rfl, fun _ => ⟨rfl, rfl⟩, rfl⟩
    | false => exact ⟨rfl, rfl, hloop rfl, rfl⟩
  · have hcall : T.callRank (T.pointer P, P.depth) =
        rankScale * (T.windowRank P.window P.depth + 7) := rfl
    -- both phases fit into the rest of the rank
    have hphase : (if loop = true then JobPhase.loop (.mkqs false) else .release).rank ≤ 15 := by
      cases loop <;> decide
    change JobStacks.work T ⟨P.window.lo, [], [], [], live, []⟩ + 1 +
      (if loop = true then JobPhase.loop (.mkqs false) else .release).rank + 0 <
        T.callRank (T.pointer P, P.depth)
    simp only [hcall, JobStacks.work, List.map_nil, List.append_nil, levelsRank_nil,
      List.length_nil, rankScale]
    omega

/-- A job is run from the queue. -/
theorem SmallsortJob.run_ok (hcl : cl.Usable) (h : j.Holds T cl g subs) (hphase : j.phase = .queued)
    (inp : JobInput) :
    ∃ o g', SmallsortJob.run T.cls T.ss cl inp g.mem j = some o ∧
      o.Ok T (SmallsortJob.Holds T cl) SmallsortJob.share (SmallsortJob.rank T) g j subs g' := by
  rw [SmallsortJob.Holds, hphase] at h
  obtain ⟨rfl, hnew, hcall⟩ := h
  obtain ⟨part, strptr, depth, rfl⟩ : ∃ part strptr depth, j = .new part strptr depth :=
    ⟨_, _, _, hnew⟩
  clear hnew
  rw [SmallsortJob.run]
  dsimp only
  -- a job is created for a piece, or for a range without strings
  rcases hcall with ⟨P, hP, hcall⟩ | ⟨f, lo, hempty⟩
  · obtain ⟨rfl, rfl⟩ := Prod.mk.inj hcall
    split
    · exact emplaceSample_ok hcl part hP inp rfl
    · exact callMkqs_ok part hP inp rfl
  · obtain rfl : strptr = T.cls.pointer f lo 0 := hempty
    have hplan : JobPlan T g ⟨lo, 0⟩ [] [] [] 0 [] :=
      .sorted (Effect.refl _ g) (.empty rfl)
    -- an empty range is small, and goes to multikey quicksort
    have hsmall : ¬ (enableSequentialSampleSort && decide (0 ≥ smallsortThreshold)) = true := by
      decide
    rw [show (SmallsortJob.new part (T.cls.pointer f lo 0) depth).in_strptr.size = 0 from rfl,
      if_neg hsmall]
    refine ⟨_, g, callMkqs_empty T.cls T.ss inp f lo depth g.mem _,
      .of_at (k := ⟨0, [], [], [], [], []⟩) rfl rfl (Touches.refl _ _ _) rfl ?_
        ⟨rfl, rfl, rfl, rfl⟩ (by simp) (List.forall_mem_singleton.mpr ?_) ?_⟩
    · exact .of_plan rfl rfl rfl rfl (by simp) (by simp) hplan
    · exact fun i hi => absurd hi (Nat.not_lt_zero i)
    · have hrank : (SmallsortJob.new part (T.cls.pointer f lo 0) depth).rank T =
          rankScale * (T.windowRank ⟨lo, 0⟩ depth + 7) := rfl
      rw [hrank]
      simp only [JobStacks.work, List.map_nil, List.append_nil, levelsRank_nil, List.length_nil,
        List.sum_nil, SmallsortJob.new, JobPhase.rank, rankScale]
      omega

end Start

/-! ## All actions -/

/-- While a job has something to do itself, it does not fail. -/
theorem SmallsortJob.step_ok (hcl : cl.Usable) (h : j.Holds T cl g subs)
    (hwaiting : j.phase ≠ .waiting) (hfinished : j.phase ≠ .finished) (inp : JobInput) :
    ∃ o g', SmallsortJob.step T.cls T.ss cl inp g.mem j = some o ∧
      o.Ok T (SmallsortJob.Holds T cl) SmallsortJob.share (SmallsortJob.rank T) g j subs g' := by
  have h₀ := h
  rw [SmallsortJob.step]
  rw [SmallsortJob.Holds] at h
  -- one lemma for each phase, which speaks about the condition in it
  cases hphase : j.phase with
  | queued => exact run_ok hcl h₀ hphase inp
  | loop l =>
    rw [hphase] at h
    obtain ⟨k, hinv, hat⟩ := h
    exact hinv.loopRound_ok hcl (hphase ▸ hat) hphase inp
  | poll l =>
    rw [hphase] at h
    obtain ⟨k, hinv, hat⟩ := h
    exact hinv.pollIdle_ok (hphase ▸ hat) hphase inp
  | freeSample l =>
    rw [hphase] at h
    obtain ⟨k, hinv, hat⟩ := h
    exact hinv.sampleFreeWork_ok (hphase ▸ hat) hphase
  | freeMkqs l fl =>
    rw [hphase] at h
    obtain ⟨k, hinv, hat⟩ := h
    exact hinv.mkqsFreeWork_ok (hphase ▸ hat) hphase
  | release =>
    rw [hphase] at h
    obtain ⟨k, hinv, hat⟩ := h
    -- the job's own handle keeps the counter positive until now
    have hpos : j.working > 0 := by
      have hworking := hat.2.2.2
      omega
    dsimp only
    rw [if_pos hpos]
    exact ⟨_, g, rfl, hinv.release_ok (hphase ▸ hat) hphase⟩
  | waiting => exact absurd hphase hwaiting
  | allDone =>
    rw [hphase] at h
    obtain ⟨rfl, sf, mf, hinv⟩ := h
    exact hinv.substepAllDone_ok hphase
  | finished => exact absurd hphase hfinished

/-! ## What other jobs do -/

section Others

variable {pre post subs' : List WorkShare} {c : WorkShare}

/-- The plan goes on, and the strings of which keys are kept stay. -/
theorem JobInv.frame (h : JobInv T cl w k subs g j)
    (hkeys : ∀ ms ∈ k.ml, ∀ u ∈ ms.toLevel.remaining, Agree u g g')
    {history : List (Event RangeCall)} (working : ℕ) (phase : JobPhase)
    (hplan : JobPlan T g' w (mkqsLevels k.ml (k.sl.map SeqSampleSortStep.stepLevel))
      (mkqsLevels (k.mf.map .freed) ((k.cur ++ k.sf).map SeqSampleSortStep.stepLevel)) subs'
      j.created history) :
    JobInv T cl w k subs' g' { j with history, working, phase } where
  mkqs :=
    { mem := rfl
      stack := h.mkqs.stack
      pop_front := h.mkqs.pop_front
      steps := h.mkqs.steps
      idx := h.mkqs.idx
      keys := fun ms hms => (h.mkqs.keys ms hms).agree (hkeys ms hms)
      plan := hplan
      entries := h.mkqs.entries }
  ss_stack := h.ss_stack
  ss_pop_front := h.ss_pop_front
  ssOk := h.ssOk
  ssDone := h.ssDone
  exclusive := h.exclusive

theorem JobInv.mem_levels {ms : MKQSStep} (hms : ms ∈ k.ml) :
    ms.toLevel ∈ mkqsLevels k.ml (k.sl.map SeqSampleSortStep.stepLevel) ++
      mkqsLevels (k.mf.map .freed) ((k.cur ++ k.sf).map SeqSampleSortStep.stepLevel) :=
  List.mem_append_left _ (List.mem_append_left _ (List.mem_map_of_mem hms))

theorem JobInv.agree (h : JobInv T cl w k subs g j) (ha : Agree w g g') :
    JobInv T cl w k subs g' j := by
  refine h.frame (fun ms hms u hu => ha.sub ?_) j.working j.phase (h.plan.agree ha)
  -- the remaining windows lie in that of the job
  exact (h.plan.plan.covers.inside u (List.mem_append_right _ (mem_windowsLeft.mpr
    (Or.inl ⟨_, JobInv.mem_levels hms, hu⟩))))

/-- Work that has been handed over goes on. -/
theorem JobInv.subEffect (h : JobInv T cl w k (pre ++ c :: post) g j)
    (he : Effect c.window g g') : JobInv T cl w k (pre ++ c :: post) g' j :=
  h.frame (fun _ hms u hu => he.agree (h.plan.plan.share_apart.1 _ (JobInv.mem_levels hms) u hu))
    j.working j.phase (h.plan.subEffect he)

namespace SmallsortJob

/-- A job with substeps runs or waits. -/
theorem Holds.jobInv (h : j.Holds T cl g subs) (hne : subs ≠ []) :
    ∃ k, JobInv T cl j.window k subs g j ∧ k.At subs.length j.working j.phase := by
  rw [SmallsortJob.Holds] at h
  -- a job that has not begun, or has ended, has no substeps
  cases hphase : j.phase <;> rw [hphase] at h <;>
    first | exact h | exact absurd h.1 hne

/-- What happens elsewhere does not touch a job. -/
theorem Holds.agree (h : j.Holds T cl g subs) (ha : Agree j.window g g') :
    j.Holds T cl g' subs := by
  rw [SmallsortJob.Holds] at h ⊢
  -- before, while and after the job runs
  cases hphase : j.phase <;> rw [hphase] at h
  case queued => exact ⟨h.1, h.2.1, h.2.2.imp_left fun hcall => hcall.agree ha⟩
  case allDone =>
    obtain ⟨rfl, sf, mf, hinv⟩ := h
    exact ⟨rfl, sf, mf, { hinv with plan := hinv.plan.agree ha }⟩
  case finished => exact ⟨h.1, h.2.1.agree ha, h.2.2⟩
  all_goals
    obtain ⟨k, hinv, hat⟩ := h
    exact ⟨k, hinv.agree ha, hat⟩

/-- The windows of the substeps lie within that of the job, apart from each other. -/
theorem Holds.share_inside (h : j.Holds T cl g subs) (hc : c ∈ subs) :
    c.window.Inside j.window := by
  obtain ⟨k, hinv, -⟩ := h.jobInv (List.ne_nil_of_mem hc)
  exact hinv.plan.plan.share_inside hc

theorem Holds.share_apart (h : j.Holds T cl g (pre ++ c :: post)) :
    ∀ d ∈ pre ++ post, c.window.Apart d.window := by
  obtain ⟨k, hinv, -⟩ := h.jobInv (by simp)
  exact hinv.plan.plan.share_apart.2

/-- A substep goes on. -/
theorem Holds.subEffect (h : j.Holds T cl g (pre ++ c :: post)) (he : Effect c.window g g') :
    j.Holds T cl g' (pre ++ c :: post) := by
  obtain ⟨k, hinv, hat⟩ := h.jobInv (by simp)
  exact holds_of_at (hinv.subEffect he) hat

/-- A substep has finished. -/
theorem join_ok (h : j.Holds T cl g (pre ++ c :: post))
    (hc : T.Covers g c.window [] fun _ => False) :
    (j.joined c.part).Holds T cl g (pre ++ post) ∧ (j.joined c.part).share = j.share ∧
      (j.joined c.part).rank T < j.rank T := by
  obtain ⟨k, hinv, hat⟩ := h.jobInv (by simp)
  have hrank := rank_of_at (T := T) hat
  rw [hinv.work_eq] at hrank
  -- one share less is outstanding
  have hlength : (pre ++ c :: post).length = (pre ++ post).length + 1 := by
    rw [List.length_append, List.length_append, List.length_cons, Nat.add_assoc]
  rw [hlength] at hat
  have hplan := hinv.plan.join hc
  have hinv' (working : ℕ) (phase : JobPhase) := hinv.frame (fun _ _ u _ => Agree.refl u g)
    working phase hplan
  by_cases hzero : j.working - 1 = 0
  · -- the job has waited for this substep only
    rw [joined_of_last c.part hzero]
    obtain ⟨hphase, hnone⟩ := hat.last hzero
    rw [hphase] at hat hrank
    rw [List.eq_nil_of_length_eq_zero hnone] at hinv' ⊢
    obtain ⟨hcur, hsl, hml, -⟩ := hat
    obtain ⟨base, sl, cur, sf, ml, mf⟩ := k
    simp only at hcur hsl hml
    subst hcur hsl hml
    refine ⟨((hinv' 0 .waiting).allDone _ _).holds rfl, rfl, ?_⟩
    have hms : j.ms_pop_front = mf.length := hinv.mkqs.pop_front
    have hss : j.ss_pop_front = sf.length := hinv.ss_pop_front
    rw [rank_allDone rfl, hrank, JobStacks.work, hms, hss, JobPhase.rank]
    simp only
    omega
  · rw [joined_of_more c.part hzero]
    have hat' := hat.pred hzero
    refine ⟨holds_of_at (hinv' _ _) hat', rfl, ?_⟩
    rw [rank_of_at hat', (hinv' _ _).work_eq, hrank]
    simp only
    omega

end SmallsortJob

end Others

end StringSampleSort
