import StringSampleSort.Parallel.SortStep

/-!
# Completion of the sort steps

What the counters of `SortStep` are for: every step executes `substep_all_done` once, behind
its substeps.  That it comes to this is forced.  While the jobs of some step are not finished,
some action is possible, and every action uses up work that was due when the step was created.

## Main results

- `SortSteps.Invariant.exists_act`: an unfinished sort can go on
- `SortSteps.Run.length_add_rank_le`: the steps created so far pay for all actions of a run
- `completionCounting`: every step completes once, after its substeps, and none is forgotten
-/

namespace StringSampleSort

open Library

namespace SortSteps

open SortStep (outstanding)

variable {s s' : SortSteps}

/-! ## Finished steps -/

/-- A step that has executed `substep_all_done` waits, and all its substeps have executed
theirs. -/
theorem Invariant.substeps_done (h : Invariant s) {i : ℕ} (hi : i < s.size)
    (hruns : 0 < (s.step i).allDoneRuns) :
    (s.step i).phase = .waiting ∧
      ∀ c < s.size, (s.step c).pstep = some i → (s.step c).allDoneRuns = 1 := by
  have hcalls := (h.ok i hi).calls_eq
  have hz : (s.step i).reachedZero = true := by
    by_contra hne
    rw [if_neg hne] at hcalls
    omega
  obtain ⟨hphase, hwork⟩ := (h.ok i hi).zero_iff.mp hz
  refine ⟨hphase, fun c hc hp => ?_⟩
  -- a substep that had not notified would still be counted
  have hnot : (s.step c).notified ≠ 0 := fun hn => by
    have := h.share_lt_working hc hp hn
    omega
  have hnotify := (h.ok c hc).notify_eq
  have hcalls' := (h.ok c hc).calls_eq
  rw [hp, Option.isSome_some, if_pos rfl] at hnotify
  split at hcalls' <;> omega

/-- When the jobs of all steps are finished, every step has completed.  The induction goes from
the latest step down: substeps are created after their `pstep`. -/
theorem Invariant.allDoneRuns_of_jobsFinished (h : Invariant s) (hfin : s.JobsFinished)
    (k i : ℕ) (hk : s.size - i ≤ k) (hi : i < s.size) :
    (s.step i).allDoneRuns = 1 ∧ ((s.step i).pstep.isSome → (s.step i).notified = 1) := by
  induction k generalizing i with
  | zero => omega
  | succ k ih =>
    obtain ⟨hphase, hcall, hassert, hdec⟩ := hfin i hi
    -- all substeps have notified, so nothing is left in the counter
    have hsum : ∑ c ∈ Finset.range s.size, outstanding i (s.step c) = 0 := by
      refine Finset.sum_eq_zero fun c hc => if_neg fun hcond => ?_
      have hc := Finset.mem_range.mp hc
      have hlt := (h.pstep_lt c hc i hcond.1).1
      have hnot := (ih c (by omega) hc).2 (by rw [hcond.1]; rfl)
      omega
    have hwork := h.working_eq i hi
    rw [hphase, hsum] at hwork
    have hcalls := (h.ok i hi).calls_eq
    rw [if_pos ((h.ok i hi).zero_iff.mpr ⟨hphase, hwork⟩)] at hcalls
    refine ⟨by omega, fun hsome => ?_⟩
    have hnotify := (h.ok i hi).notify_eq
    rw [if_pos hsome] at hnotify
    omega

/-! ## Progress -/

/-- The code of a step that does not wait has a next action. -/
theorem Invariant.exists_act_of_phase (h : Invariant s) {i : ℕ} (hi : i < s.size)
    (hphase : (s.step i).phase ≠ .waiting) : ∃ a s', s.act a = some s' := by
  have hparts := (h.ok i hi).parts_ok
  cases hp : (s.step i).phase with
  | waiting => exact absurd hp hphase
  | enqueue =>
    -- the substep that is registered may be created, for instance as a `SmallsortJob`
    exact ⟨.enqueue i none, by simp [SortSteps.act, hi, SortSteps.enqueue, hp]⟩
  | count toEnqueue jobs pwork =>
    rw [hp] at hparts
    obtain ⟨-, hpos, hpwork⟩ := hparts
    cases toEnqueue with
    | succ toEnqueue => exact ⟨.advance i, by simp [SortSteps.act, hi, SortSteps.advance, hp]⟩
    | zero =>
      -- a `CountJob` is still to execute `--pwork`
      obtain ⟨jobs, rfl⟩ := Nat.exists_eq_add_of_lt (show 0 < jobs by omega)
      refine ⟨.finishPart i, ?_⟩
      simp only [SortSteps.act, hi, if_true, SortSteps.finishPart, hp]
      split <;> exact ⟨_, rfl⟩
  | distribute toEnqueue jobs pwork =>
    rw [hp] at hparts
    obtain ⟨hpos, hpwork⟩ := hparts
    cases toEnqueue with
    | succ toEnqueue => exact ⟨.advance i, by simp [SortSteps.act, hi, SortSteps.advance, hp]⟩
    | zero =>
      obtain ⟨jobs, rfl⟩ := Nat.exists_eq_add_of_lt (show 0 < jobs by omega)
      refine ⟨.finishPart i, ?_⟩
      simp only [SortSteps.act, hi, if_true, SortSteps.finishPart, hp]
      split <;> exact ⟨_, rfl⟩
  | sample | smallsort | addHandle | spawn | releaseAssert | releaseDec =>
    exact ⟨.advance i, by simp [SortSteps.act, hi, SortSteps.advance, hp]⟩

/-- While the jobs of some step are not finished, some action is possible. -/
theorem Invariant.exists_act (h : Invariant s) (hfin : ¬ s.JobsFinished) :
    ∃ a s', s.act a = some s' := by
  simp only [JobsFinished, not_forall] at hfin
  obtain ⟨i, hi, hne⟩ := hfin
  by_cases hphase : (s.step i).phase = .waiting
  swap
  · exact h.exists_act_of_phase hi hphase
  by_cases hcall : 0 < (s.step i).allDoneCalls
  · exact ⟨.allDone i, by simp [SortSteps.act, hi, SortSteps.allDone, hcall]⟩
  -- only a step with a `pstep` can be about to notify
  have hnotify := (h.ok i hi).notify_eq
  cases hp : (s.step i).pstep with
  | none =>
    rw [hp] at hnotify
    simp only [Option.isSome_none, Bool.false_eq_true, if_false] at hnotify
    exact absurd ⟨hphase, by omega, by omega, by omega⟩ hne
  | some p =>
    by_cases hassert : 0 < (s.step i).atAssert
    · exact ⟨.notifyAssert i, by simp [SortSteps.act, hi, SortSteps.notifyAssert, hp, hassert]⟩
    · by_cases hdec : 0 < (s.step i).atDec
      · exact ⟨.notifyDec i, by simp [SortSteps.act, hi, SortSteps.notifyDec, hp, hdec]⟩
      · exact absurd ⟨hphase, by omega, by omega, by omega⟩ hne

end SortSteps

/-! ## The work that is due -/

/-- The actions that the code of a step with `parts` parts still takes on its own.  The creation
of a substep is paid for by the substep. -/
def StepPhase.rank (parts : ℕ) : StepPhase → ℕ
  | .sample => 4 * parts + 5
  | .count toEnqueue _ pwork => toEnqueue + pwork + 2 * parts + 4
  | .distribute toEnqueue _ pwork => toEnqueue + pwork + 4
  | .smallsort => 5
  | .addHandle => 4
  | .spawn => 3
  | .enqueue => 2
  | .releaseAssert => 2
  | .releaseDec => 1
  | .waiting => 0

namespace SortStep

/-- The actions of the activation that starts when the counter comes to zero. -/
def activationDue : (reachedZero : Bool) → ℕ
  | true => 0
  | false => 3

/-- The actions that a step still takes, with its notification. -/
def rank (r : SortStep) : ℕ :=
  r.phase.rank r.parts + activationDue r.reachedZero + 3 * r.allDoneCalls + 2 * r.atAssert +
    r.atDec

/-- All actions that a step ever takes, and the two that create it. -/
def budget (r : SortStep) : ℕ := 4 * r.parts + 10

theorem create_rank (pstep : Option ℕ) (parts : Option ℕ) :
    (create pstep parts).rank + 2 = (create pstep parts).budget := by
  cases parts <;> simp [create, rank, budget, StepPhase.rank, activationDue]

/-- Coming to zero exchanges the activation that was due for one that is on its way. -/
theorem Ok.substepNotifyDone_rank {r : SortStep} (h : r.Ok) (hw : 0 < r.working) :
    r.substepNotifyDone.rank = r.rank := by
  have hz := h.reachedZero_eq_false (Or.inr (by omega))
  unfold SortStep.substepNotifyDone
  split
  · simp only [rank, hz, activationDue]
    omega
  · rfl

theorem substepNotifyDone_parts (r : SortStep) : r.substepNotifyDone.parts = r.parts := by
  unfold substepNotifyDone
  split <;> rfl

end SortStep

namespace SortSteps

variable {s s' : SortSteps}

/-- The actions that are due in all steps. -/
def rank (s : SortSteps) : ℕ := ∑ i ∈ Finset.range s.size, (s.step i).rank

/-- What the steps created so far pay for. -/
def budget (s : SortSteps) : ℕ := ∑ i ∈ Finset.range s.size, (s.step i).budget

/-- An action that changes one step. -/
theorem rank_set (s : SortSteps) {i : ℕ} (hi : i < s.size) (r : SortStep) :
    (s.set i r).rank + (s.step i).rank = s.rank + r.rank :=
  sum_update_add _ SortStep.rank s.step (Finset.mem_range.mpr hi) r

theorem budget_set (s : SortSteps) {i : ℕ} (hi : i < s.size) {r : SortStep}
    (hparts : r.parts = (s.step i).parts) : (s.set i r).budget = s.budget := by
  have h := sum_update_add _ SortStep.budget s.step (Finset.mem_range.mpr hi) r
  have hr : r.budget = (s.step i).budget := by rw [SortStep.budget, hparts]; rfl
  rw [hr] at h
  exact Nat.add_right_cancel h

/-- The work due falls, and no step is created. -/
def Spends (s s' : SortSteps) : Prop := s'.rank < s.rank ∧ s'.budget = s.budget

theorem spends_set {i : ℕ} (hi : i < s.size) {r : SortStep}
    (hparts : r.parts = (s.step i).parts) (hrank : r.rank < (s.step i).rank) :
    s.Spends (s.set i r) := by
  have h := rank_set s hi r
  exact ⟨by omega, budget_set s hi hparts⟩

/-- The code of a step moves on. -/
theorem spends_move {i : ℕ} (hi : i < s.size) {p : StepPhase}
    (hrank : p.rank (s.step i).parts < (s.step i).phase.rank (s.step i).parts) :
    s.Spends (s.set i { s.step i with phase := p }) := by
  refine spends_set hi rfl ?_
  simp only [SortStep.rank]
  omega

/-- `substep_add()` changes no more than the phase counts for. -/
theorem spends_add {i : ℕ} (hi : i < s.size) {p : StepPhase}
    (hrank : p.rank (s.step i).parts < (s.step i).phase.rank (s.step i).parts) :
    s.Spends (s.add i p) := by
  have h : (s.add i p).rank < s.rank ∧ (s.add i p).budget = s.budget := by
    refine spends_set (s := { s with lateAdd := s.lateAdd || (s.step i).reachedZero }) hi rfl ?_
    simp only [SortStep.rank, SortStep.substepAdd]
    omega
  exact h

theorem Invariant.spends_advance (h : Invariant s) {i : ℕ} (hi : i < s.size)
    (hs : s.advance i = some s') : s.Spends s' := by
  have hparts := (h.ok i hi).parts_ok
  rw [SortSteps.advance] at hs
  cases hp : (s.step i).phase with
  | sample | smallsort | spawn =>
    simp only [hp, Option.some_inj] at hs
    subst hs
    refine spends_move hi ?_
    simp only [hp, StepPhase.rank]
    omega
  | count toEnqueue jobs pwork =>
    cases toEnqueue with
    | zero => simp [hp] at hs
    | succ toEnqueue =>
      simp only [hp, Option.some_inj] at hs
      subst hs
      refine spends_move hi ?_
      simp only [hp, StepPhase.rank]
      omega
  | distribute toEnqueue jobs pwork =>
    cases toEnqueue with
    | zero => simp [hp] at hs
    | succ toEnqueue =>
      simp only [hp, Option.some_inj] at hs
      subst hs
      refine spends_move hi ?_
      simp only [hp, StepPhase.rank]
      omega
  | addHandle =>
    simp only [hp, Option.some_inj] at hs
    subst hs
    refine spends_add hi ?_
    simp only [hp, StepPhase.rank]
    omega
  | releaseAssert =>
    simp only [hp, Option.some_inj] at hs
    subst hs
    rw [Invariant.assertWorking_eq (by rw [h.working_eq i hi, hp, StepPhase.share]; omega)]
    refine spends_move hi ?_
    simp only [hp, StepPhase.rank]
    omega
  | releaseDec =>
    simp only [hp, Option.some_inj] at hs
    subst hs
    -- the handle is released, and the counter may come to zero
    have hpos : 0 < (s.step i).working := by rw [h.working_eq i hi, hp, StepPhase.share]; omega
    refine spends_set hi (SortStep.substepNotifyDone_parts _) ?_
    have hz := (h.ok i hi).reachedZero_eq_false (Or.inl (by simp [hp]))
    unfold SortStep.substepNotifyDone
    split
    all_goals
      simp only [SortStep.rank, hp, hz, StepPhase.rank, SortStep.activationDue]
      omega
  | enqueue => simp [hp] at hs
  | waiting => simp [hp] at hs

theorem spends_finishPart {i : ℕ} (hi : i < s.size)
    (hpos : (s.step i).phase.PartsOk (s.step i).parts) (hs : s.finishPart i = some s') : s.Spends s' := by
  rw [SortSteps.finishPart] at hs
  cases hp : (s.step i).phase with
  | count toEnqueue jobs pwork =>
    rw [hp] at hpos
    cases jobs with
    | zero => simp [hp] at hs
    | succ jobs =>
      simp only [hp] at hs
      obtain ⟨-, hpwork, -⟩ := hpos
      split at hs <;> rw [Option.some_inj] at hs <;> subst hs
      all_goals
        refine spends_move hi ?_
        simp only [hp, StepPhase.rank]
        omega
  | distribute toEnqueue jobs pwork =>
    rw [hp] at hpos
    cases jobs with
    | zero => simp [hp] at hs
    | succ jobs =>
      simp only [hp] at hs
      obtain ⟨hpwork, -⟩ := hpos
      split at hs <;> rw [Option.some_inj] at hs <;> subst hs
      all_goals
        refine spends_move hi ?_
        simp only [hp, StepPhase.rank]
        omega
  | _ => simp [hp] at hs

theorem spends_allDone {i : ℕ} (hi : i < s.size) (hs : s.allDone i = some s') : s.Spends s' := by
  obtain ⟨hpos, hs⟩ := Option.ite_none_right_eq_some.mp hs
  obtain rfl := Option.some_inj.mp hs
  refine spends_set hi rfl ?_
  simp only [SortStep.rank, SortStep.allDone]
  split <;> omega

theorem Invariant.spends_notifyAssert (h : Invariant s) {i : ℕ} (hi : i < s.size)
    (hs : s.notifyAssert i = some s') : s.Spends s' := by
  rw [SortSteps.notifyAssert] at hs
  cases hp : (s.step i).pstep with
  | none => simp [hp] at hs
  | some p =>
    simp only [hp] at hs
    obtain ⟨hpos, hs⟩ := Option.ite_none_right_eq_some.mp hs
    obtain rfl := Option.some_inj.mp hs
    have hlt := h.share_lt_working hi hp (h.outstanding_of_notifying hi hp (by omega))
    rw [Invariant.assertWorking_eq (by omega)]
    refine spends_set hi rfl ?_
    simp only [SortStep.rank, SortStep.passAssert]
    omega

/-- The decrement uses up the notification; the counter of `pstep` owes what it owed before. -/
theorem Invariant.spends_notifyDec (h : Invariant s) {i : ℕ} (hi : i < s.size)
    (hs : s.notifyDec i = some s') : s.Spends s' := by
  rw [SortSteps.notifyDec] at hs
  cases hp : (s.step i).pstep with
  | none => simp [hp] at hs
  | some p =>
    simp only [hp] at hs
    obtain ⟨hpos, hs⟩ := Option.ite_none_right_eq_some.mp hs
    obtain rfl := Option.some_inj.mp hs
    have hlt := h.share_lt_working hi hp (h.outstanding_of_notifying hi hp (by omega))
    have hpi := (h.pstep_lt i hi p hp).1
    have hpsize : p < s.size := by omega
    have hmid : (s.set p (s.step p).substepNotifyDone).step i = s.step i :=
      Function.update_of_ne (by omega) _ _
    have hfst := rank_set s hpsize (s.step p).substepNotifyDone
    rw [(h.ok p hpsize).substepNotifyDone_rank (by omega)] at hfst
    have hsnd := spends_set (s := s.set p (s.step p).substepNotifyDone) (r := (s.step i).passDec)
      hi (by rw [hmid]; rfl) (by
        rw [hmid]
        simp only [SortStep.rank, SortStep.passDec]
        omega)
    have hbudget := budget_set s hpsize (SortStep.substepNotifyDone_parts (s.step p))
    exact ⟨by have := hsnd.1; omega, hsnd.2.trans hbudget⟩

/-- A step that is created brings the work that it does and what its creation took. -/
theorem rank_enqueue {i : ℕ} (hi : i < s.size) {parts : Option ℕ}
    (hs : s.enqueue i parts = some s') : s'.rank + 1 + s.budget = s.rank + s'.budget := by
  obtain ⟨⟨hphase, -⟩, hs⟩ := Option.ite_none_right_eq_some.mp hs
  obtain rfl := Option.some_inj.mp hs
  set r : SortStep := { s.step i with phase := .spawn } with hr
  set c := SortStep.create (some i) parts with hc
  have hrank := rank_set s hi r
  have hbudget := budget_set s hi (r := r) rfl
  have hri : r.rank = (s.step i).rank + 1 := by
    simp only [hr, SortStep.rank, hphase, StepPhase.rank]
    omega
  -- the sums over the old steps do not see the new one
  have hold : ∀ f : SortStep → ℕ, ∑ j ∈ Finset.range (s.size + 1),
      f (Function.update (s.set i r).step s.size c j) =
        (∑ j ∈ Finset.range s.size, f ((s.set i r).step j)) + f c := by
    intro f
    rw [Finset.sum_range_succ, Function.update_self]
    congr 1
    refine Finset.sum_congr rfl fun j hj => ?_
    rw [Function.update_of_ne (Finset.mem_range.mp hj).ne]
  have hcreate : c.rank + 2 = c.budget := SortStep.create_rank (some i) parts
  change (∑ j ∈ Finset.range (s.size + 1), _) + 1 + s.budget =
    s.rank + ∑ j ∈ Finset.range (s.size + 1), _
  rw [hold, hold]
  change (s.set i r).rank + c.rank + 1 + s.budget = s.rank + ((s.set i r).budget + c.budget)
  omega

/-- Every action is paid for. -/
theorem Invariant.rank_act (h : Invariant s) {a : StepAction} (hs : s.act a = some s') :
    s'.rank + 1 + s.budget ≤ s.rank + s'.budget := by
  have hspends : s.Spends s' → s'.rank + 1 + s.budget ≤ s.rank + s'.budget := by
    rintro ⟨hrank, hbudget⟩
    omega
  cases a with
  | advance i =>
    obtain ⟨hi, hs⟩ := Option.ite_none_right_eq_some.mp hs
    exact hspends (h.spends_advance hi hs)
  | finishPart i =>
    obtain ⟨hi, hs⟩ := Option.ite_none_right_eq_some.mp hs
    exact hspends (spends_finishPart hi (h.ok i hi).parts_ok hs)
  | substepAdd i =>
    obtain ⟨⟨hi, hphase⟩, hs⟩ := Option.ite_none_right_eq_some.mp hs
    obtain rfl := Option.some_inj.mp hs
    exact hspends (spends_add hi (by rw [hphase]; exact Nat.lt_succ_self 2))
  | enqueue i parts =>
    obtain ⟨hi, hs⟩ := Option.ite_none_right_eq_some.mp hs
    exact (rank_enqueue hi hs).le
  | allDone i =>
    obtain ⟨hi, hs⟩ := Option.ite_none_right_eq_some.mp hs
    exact hspends (spends_allDone hi hs)
  | notifyAssert i =>
    obtain ⟨hi, hs⟩ := Option.ite_none_right_eq_some.mp hs
    exact hspends (h.spends_notifyAssert hi hs)
  | notifyDec i =>
    obtain ⟨hi, hs⟩ := Option.ite_none_right_eq_some.mp hs
    exact hspends (h.spends_notifyDec hi hs)

/-- The steps created in a run pay for its actions and for the work that is left. -/
theorem Run.length_add_rank_le {tr : List (SortSteps × StepAction)} (h : system.Run tr s) :
    tr.length + s.rank ≤ s.budget := by
  induction h with
  | start hi =>
    obtain ⟨parts, -, rfl⟩ := hi
    have := SortStep.create_rank none parts
    change 0 + ∑ i ∈ Finset.range 1, (SortStep.create none parts).rank ≤
      ∑ i ∈ Finset.range 1, (SortStep.create none parts).budget
    rw [Finset.sum_range_one, Finset.sum_range_one]
    omega
  | step hrun hs ih =>
    have := (reachable_invariant ⟨_, hrun⟩).rank_act hs
    rw [List.length_cons]
    omega

end SortSteps

/-- Every step executes `substep_all_done` at most once, and only when its own code has
finished and all its substeps have executed theirs; nothing is added to a counter that a
notification has brought to zero; the assertion never fails; and when the jobs of all steps are
finished, every step has completed.  It has to come to that: else some action is possible, and
a run has at most `4 * parts + 10` actions for each step created in it. -/
theorem completionCounting {s : SortSteps} (h : SortSteps.system.Reachable s) :
    (∀ i < s.size, (s.step i).allDoneRuns ≤ 1) ∧
      (∀ i < s.size, 0 < (s.step i).allDoneRuns → (s.step i).phase = .waiting ∧
        ∀ c < s.size, (s.step c).pstep = some i → (s.step c).allDoneRuns = 1) ∧
      s.lateAdd = false ∧ s.assertFailed = false ∧
      (s.JobsFinished → ∀ i < s.size, (s.step i).allDoneRuns = 1) ∧
      (¬ s.JobsFinished → ∃ a s', s.act a = some s') ∧
      ∀ tr, SortSteps.system.Run tr s →
        tr.length ≤ ∑ i ∈ Finset.range s.size, (4 * (s.step i).parts + 10) := by
  have hinv := SortSteps.reachable_invariant h
  refine ⟨fun i hi => ?_, fun i hi => hinv.substeps_done hi, hinv.add_ok, hinv.assert_ok,
    fun hfin i hi => (hinv.allDoneRuns_of_jobsFinished hfin _ i (le_refl _) hi).1,
    hinv.exists_act, fun tr hrun => ?_⟩
  · have hcalls := (hinv.ok i hi).calls_eq
    split at hcalls <;> omega
  · exact (Nat.le_add_right _ _).trans (SortSteps.Run.length_add_rank_le hrun)

/-- A `SmallsortJob` that frees one part of its work as a `SampleSortStep`, which finishes after
it. -/
def freeOnePart : List StepAction :=
  [.advance 0, .advance 0, .substepAdd 0, .enqueue 0 (some 1), .advance 0, .advance 0, .advance 0,
    .advance 1, .advance 1, .finishPart 1, .advance 1, .finishPart 1, .advance 1, .advance 1,
    .advance 1, .advance 1, .allDone 1, .notifyAssert 1, .notifyDec 1, .allDone 0]

/-- Both steps have completed. -/
theorem completionCounting_freeOnePart :
    ((SortSteps.start none).runActions freeOnePart).JobsFinished ∧
      (((SortSteps.start none).runActions freeOnePart).step 0).allDoneRuns = 1 ∧
      (((SortSteps.start none).runActions freeOnePart).step 1).allDoneRuns = 1 := by
  have hdone : ((SortSteps.start none).runActions freeOnePart).JobsFinished := by decide
  have honce := (completionCounting (SortSteps.reachable_runActions
    (.start ⟨none, by simp, rfl⟩) freeOnePart)).2.2.2.2.1 hdone
  exact ⟨hdone, honce 0 (by decide), honce 1 (by decide)⟩

end StringSampleSort
