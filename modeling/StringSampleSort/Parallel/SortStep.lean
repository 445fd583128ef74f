import StringSampleSort.Library.Transition
import Mathlib.Algebra.Order.BigOperators.Group.Finset

/-!
# Completion counting of sort steps

Model of `SortStep` of `src/parallel/bingmann-parallel_sample_sort.hpp` and of what its two
subclasses do to the tree of steps: `SampleSortStep` with its sample, count and distribute
jobs, and `SmallsortJob`, which frees work at arbitrary moments of its run.  All interleavings
of the atomic accesses to `m_substep_working` and `pwork` are covered.

Steps are numbered in the order of their creation; the root is step 0.

## Main results

- `SortSteps.reachable_invariant`: the counter of a step is its handle plus its unfinished
  substeps
-/

namespace StringSampleSort

open Library

/-! ## Model -/

/-- Where the code that belongs to a step itself stands. -/
inductive StepPhase where
  /-- the `SampleJob` has not yet set `pwork` -/
  | sample
  /-- `CountJob`s to be enqueued, those enqueued and not yet at `--pwork`, and `pwork` -/
  | count (toEnqueue jobs pwork : ℕ)
  /-- the same for the `DistributeJob`s -/
  | distribute (toEnqueue jobs pwork : ℕ)
  /-- the `SmallsortJob` is enqueued -/
  | smallsort
  /-- at the `substep_add()` of the anonymous handle, in `distribute_finished` or `run` -/
  | addHandle
  /-- sorting, where `substep_add()` or the release of the handle comes next -/
  | spawn
  /-- behind a `substep_add()`, at the `Enqueue` of that substep -/
  | enqueue
  /-- at the assertion of the `substep_notify_done()` that releases the handle -/
  | releaseAssert
  /-- at the decrement of that `substep_notify_done()` -/
  | releaseDec
  /-- the step's own code has finished -/
  | waiting
  deriving DecidableEq, Repr

/-- One `SortStep`.  The fields from `allDoneCalls` on count activations of
`substep_all_done` by program point. -/
structure SortStep where
  /-- `pstep` -/
  pstep : Option ℕ
  /-- `parts`, of a `SampleSortStep` -/
  parts : ℕ
  /-- `m_substep_working` -/
  working : ℕ
  phase : StepPhase
  /-- a notification has brought the counter to zero -/
  reachedZero : Bool
  /-- calls of `substep_all_done` that have not calculated the LCPs yet -/
  allDoneCalls : ℕ
  /-- calls that have done so: how often `substep_all_done` was executed -/
  allDoneRuns : ℕ
  /-- executions at the assertion of `pstep->substep_notify_done()` -/
  atAssert : ℕ
  /-- executions at the decrement of `pstep->substep_notify_done()` -/
  atDec : ℕ
  /-- executions that have notified `pstep` -/
  notified : ℕ
  deriving DecidableEq, Repr

namespace SortStep

/-- A step as its constructor leaves it.  `parts` is set for a `SampleSortStep`. -/
def create (pstep : Option ℕ) : Option ℕ → SortStep
  | some parts => ⟨pstep, parts, 0, .sample, false, 0, 0, 0, 0, 0⟩
  | none => ⟨pstep, 0, 0, .smallsort, false, 0, 0, 0, 0, 0⟩

/-- `++m_substep_working`. -/
def substepAdd (s : SortStep) : SortStep := { s with working := s.working + 1 }

/-- `if (--m_substep_working == 0) substep_all_done();` up to the call. -/
def substepNotifyDone (s : SortStep) : SortStep :=
  if s.working - 1 = 0 then
    { s with working := s.working - 1, reachedZero := true, allDoneCalls := s.allDoneCalls + 1 }
  else { s with working := s.working - 1 }

/-- An activation of `substep_all_done` calculates the LCPs and goes on to `pstep`, if there
is one. -/
def allDone (s : SortStep) : SortStep :=
  { s with
    allDoneCalls := s.allDoneCalls - 1
    allDoneRuns := s.allDoneRuns + 1
    atAssert := if s.pstep.isSome then s.atAssert + 1 else s.atAssert }

/-- An activation has passed the assertion of `pstep->substep_notify_done()`. -/
def passAssert (s : SortStep) : SortStep :=
  { s with atAssert := s.atAssert - 1, atDec := s.atDec + 1 }

/-- An activation has decremented the counter of `pstep`. -/
def passDec (s : SortStep) : SortStep :=
  { s with atDec := s.atDec - 1, notified := s.notified + 1 }

/-- The code of the step has finished, and no activation of `substep_all_done` is on its way. -/
def JobsFinished (s : SortStep) : Prop :=
  s.phase = .waiting ∧ s.allDoneCalls = 0 ∧ s.atAssert = 0 ∧ s.atDec = 0

instance (s : SortStep) : Decidable s.JobsFinished := inferInstanceAs (Decidable (_ ∧ _))

end SortStep

/-- All steps of a parallel sort. -/
structure SortSteps where
  step : ℕ → SortStep
  /-- number of steps created so far -/
  size : ℕ
  /-- an assertion `m_substep_working > 0` has failed -/
  assertFailed : Bool
  /-- a `substep_add()` came after a notification had brought the counter to zero -/
  lateAdd : Bool

/-- The atomic actions that jobs take on step `i`. -/
inductive StepAction where
  /-- `sample` sets `pwork`; a loop enqueues one more `CountJob` or `DistributeJob`; the
  `SmallsortJob` is run; the handle is added or released -/
  | advance (i : ℕ)
  /-- a `CountJob` or `DistributeJob` executes `--pwork` -/
  | finishPart (i : ℕ)
  /-- `substep_add()` for a new substep -/
  | substepAdd (i : ℕ)
  /-- `Enqueue` of that substep, as a `SampleSortStep` with so many parts or a `SmallsortJob` -/
  | enqueue (i : ℕ) (parts : Option ℕ)
  /-- an activation of `substep_all_done` runs `calculate_lcp` and the like -/
  | allDone (i : ℕ)
  /-- an activation checks the assertion in `pstep->substep_notify_done()` -/
  | notifyAssert (i : ℕ)
  /-- an activation executes the decrement in `pstep->substep_notify_done()` -/
  | notifyDec (i : ℕ)
  deriving DecidableEq, Repr

namespace SortSteps

/-- Step `i` becomes `r`. -/
def set (s : SortSteps) (i : ℕ) (r : SortStep) : SortSteps :=
  { s with step := Function.update s.step i r }

/-- `assert(m_substep_working > 0)` of step `i`. -/
def assertWorking (s : SortSteps) (i : ℕ) : SortSteps :=
  { s with assertFailed := s.assertFailed || decide ((s.step i).working = 0) }

/-- `substep_add()` on step `i`, whose code goes on at `phase`. -/
def add (s : SortSteps) (i : ℕ) (phase : StepPhase) : SortSteps :=
  { s with lateAdd := s.lateAdd || (s.step i).reachedZero }.set i
    { (s.step i).substepAdd with phase := phase }

/-- The next action of the code of step `i` itself that needs no choice. -/
def advance (s : SortSteps) (i : ℕ) : Option SortSteps :=
  let r := s.step i
  match r.phase with
  | .sample => some (s.set i { r with phase := .count r.parts 0 r.parts })
  | .count (toEnqueue + 1) jobs pwork =>
    some (s.set i { r with phase := .count toEnqueue (jobs + 1) pwork })
  | .distribute (toEnqueue + 1) jobs pwork =>
    some (s.set i { r with phase := .distribute toEnqueue (jobs + 1) pwork })
  | .smallsort => some (s.set i { r with phase := .addHandle })
  | .addHandle => some (s.add i .spawn)
  | .spawn => some (s.set i { r with phase := .releaseAssert })
  | .releaseAssert => some ((s.assertWorking i).set i { r with phase := .releaseDec })
  | .releaseDec => some (s.set i { r with phase := .waiting }.substepNotifyDone)
  | _ => none

/-- `if (--pwork == 0)` of a `CountJob` or `DistributeJob`, with `count_finished` and the
start of `distribute_finished`. -/
def finishPart (s : SortSteps) (i : ℕ) : Option SortSteps :=
  let r := s.step i
  match r.phase with
  | .count toEnqueue (jobs + 1) pwork =>
    if pwork - 1 = 0 then some (s.set i { r with phase := .distribute r.parts 0 r.parts })
    else some (s.set i { r with phase := .count toEnqueue jobs (pwork - 1) })
  | .distribute toEnqueue (jobs + 1) pwork =>
    if pwork - 1 = 0 then some (s.set i { r with phase := .addHandle })
    else some (s.set i { r with phase := .distribute toEnqueue jobs (pwork - 1) })
  | _ => none

/-- `Enqueue(ctx, this, ...)` by step `i`. -/
def enqueue (s : SortSteps) (i : ℕ) (parts : Option ℕ) : Option SortSteps :=
  if (s.step i).phase = .enqueue ∧ parts ≠ some 0 then
    some { s.set i { s.step i with phase := .spawn } with
      step := Function.update (s.set i { s.step i with phase := .spawn }).step s.size
        (.create (some i) parts)
      size := s.size + 1 }
  else none

/-- The part of `substep_all_done` of step `i` that does not touch another step. -/
def allDone (s : SortSteps) (i : ℕ) : Option SortSteps :=
  if 0 < (s.step i).allDoneCalls then some (s.set i (s.step i).allDone) else none

/-- The assertion in `pstep->substep_notify_done()`. -/
def notifyAssert (s : SortSteps) (i : ℕ) : Option SortSteps :=
  match (s.step i).pstep with
  | some p =>
    if 0 < (s.step i).atAssert then some ((s.assertWorking p).set i (s.step i).passAssert)
    else none
  | none => none

/-- The decrement in `pstep->substep_notify_done()`. -/
def notifyDec (s : SortSteps) (i : ℕ) : Option SortSteps :=
  match (s.step i).pstep with
  | some p =>
    if 0 < (s.step i).atDec then
      some ((s.set p (s.step p).substepNotifyDone).set i (s.step i).passDec)
    else none
  | none => none

/-- One atomic action; none if it is not possible. -/
def act (s : SortSteps) : StepAction → Option SortSteps
  | .advance i => if i < s.size then s.advance i else none
  | .finishPart i => if i < s.size then s.finishPart i else none
  | .substepAdd i =>
    if i < s.size ∧ (s.step i).phase = .spawn then some (s.add i .enqueue) else none
  | .enqueue i parts => if i < s.size then s.enqueue i parts else none
  | .allDone i => if i < s.size then s.allDone i else none
  | .notifyAssert i => if i < s.size then s.notifyAssert i else none
  | .notifyDec i => if i < s.size then s.notifyDec i else none

/-- `Enqueue(ctx, NULL, strptr, depth)` of `parallel_sample_sort`. -/
def start (parts : Option ℕ) : SortSteps where
  step _ := .create none parts
  size := 1
  assertFailed := false
  lateAdd := false

/-- All interleavings of the actions of all jobs. -/
def system : Transition SortSteps StepAction where
  init s := ∃ parts, parts ≠ some 0 ∧ s = start parts
  step s a s' := s.act a = some s'

/-- One interleaving, given by its actions. -/
def runActions (s : SortSteps) : List StepAction → SortSteps
  | [] => s
  | a :: rest => ((s.act a).getD s).runActions rest

/-- The jobs of all steps are finished. -/
def JobsFinished (s : SortSteps) : Prop := ∀ i < s.size, (s.step i).JobsFinished

instance (s : SortSteps) : Decidable s.JobsFinished := inferInstanceAs (Decidable (∀ _, _ → _))

end SortSteps

/-! ## The invariant -/

namespace StepPhase

/-- The anonymous handle has been added at some time. -/
def started : StepPhase → Bool
  | spawn | enqueue | releaseAssert | releaseDec | waiting => true
  | _ => false

/-- What the step itself contributes to its counter: the handle, and a substep that is
registered and not yet created. -/
def share : StepPhase → ℕ
  | spawn | releaseAssert | releaseDec => 1
  | enqueue => 2
  | _ => 0

/-- `pwork` counts the jobs that have not yet executed `--pwork`. -/
def PartsOk (parts : ℕ) : StepPhase → Prop
  | sample => 0 < parts
  | count toEnqueue jobs pwork => 0 < parts ∧ 0 < pwork ∧ pwork = toEnqueue + jobs
  | distribute toEnqueue jobs pwork => 0 < pwork ∧ pwork = toEnqueue + jobs
  | _ => True

end StepPhase

namespace SortStep

/-- A substep of step `i` that has not notified it. -/
def outstanding (i : ℕ) (c : SortStep) : ℕ :=
  if c.pstep = some i ∧ c.notified = 0 then 1 else 0

/-- What holds of every single step: only a step that waits reaches zero, it then executes
`substep_all_done` once, and every execution notifies `pstep` once. -/
structure Ok (r : SortStep) : Prop where
  parts_ok : r.phase.PartsOk r.parts
  zero_iff : r.reachedZero = true ↔ r.phase = .waiting ∧ r.working = 0
  calls_eq : r.allDoneCalls + r.allDoneRuns = if r.reachedZero then 1 else 0
  notify_eq : r.atAssert + r.atDec + r.notified = if r.pstep.isSome then r.allDoneRuns else 0

theorem Ok.reachedZero_eq_false {r : SortStep} (h : r.Ok)
    (hr : r.phase ≠ .waiting ∨ r.working ≠ 0) : r.reachedZero = false := by
  rw [← Bool.not_eq_true, h.zero_iff]
  rintro ⟨h₁, h₂⟩
  rcases hr with hr | hr
  · exact hr h₁
  · exact hr h₂

/-- Notifying keeps a step in order when only a waiting step comes to zero. -/
theorem Ok.substepNotifyDone {r : SortStep} (h : r.Ok) (hw : 0 < r.working)
    (hzero : r.working = 1 → r.phase = .waiting) : r.substepNotifyDone.Ok := by
  have hz : r.reachedZero = false := h.reachedZero_eq_false (Or.inr (by omega))
  have hcalls := h.calls_eq
  rw [hz] at hcalls
  rw [SortStep.substepNotifyDone]
  split
  · next hone =>
    refine ⟨h.parts_ok, ?_, ?_, h.notify_eq⟩
    · simpa [hone] using hzero (by omega)
    · change r.allDoneCalls + 1 + r.allDoneRuns = 1
      simp at hcalls
      omega
  · next hne =>
    refine ⟨h.parts_ok, ?_, ?_, h.notify_eq⟩
    · simp [hz, hne]
    · simpa [hz] using hcalls

theorem substepNotifyDone_working (r : SortStep) :
    r.substepNotifyDone.working = r.working - 1 := by
  unfold substepNotifyDone
  split <;> rfl

theorem substepNotifyDone_pstep (r : SortStep) : r.substepNotifyDone.pstep = r.pstep := by
  unfold substepNotifyDone
  split <;> rfl

theorem substepNotifyDone_notified (r : SortStep) :
    r.substepNotifyDone.notified = r.notified := by
  unfold substepNotifyDone
  split <;> rfl

theorem substepNotifyDone_phase (r : SortStep) : r.substepNotifyDone.phase = r.phase := by
  unfold substepNotifyDone
  split <;> rfl

end SortStep

namespace SortSteps

open SortStep (outstanding)

/-- What holds in every reachable state. -/
structure Invariant (s : SortSteps) : Prop where
  ok : ∀ i < s.size, (s.step i).Ok
  /-- steps are created by started steps -/
  pstep_lt : ∀ c < s.size, ∀ p, (s.step c).pstep = some p →
    p < c ∧ (s.step p).phase.started = true
  /-- the counter is the share of the step itself and its unfinished substeps -/
  working_eq : ∀ i < s.size, (s.step i).working =
    (s.step i).phase.share + ∑ c ∈ Finset.range s.size, outstanding i (s.step c)
  assert_ok : s.assertFailed = false
  add_ok : s.lateAdd = false

/-- A change of step `i` that keeps its ties to `pstep` and accounts for its share. -/
theorem Invariant.set {s : SortSteps} (h : Invariant s) {i : ℕ} (hi : i < s.size)
    {r : SortStep} (hok : r.Ok) (hpstep : r.pstep = (s.step i).pstep)
    (hnot : r.notified = (s.step i).notified)
    (hstart : (s.step i).phase.started = true → r.phase.started = true)
    (hwork : r.working + (s.step i).phase.share = (s.step i).working + r.phase.share) :
    Invariant (s.set i r) := by
  -- to the other steps, step `i` counts as before
  have hout : ∀ j, outstanding j r = outstanding j (s.step i) := fun j => by
    rw [outstanding, outstanding, hpstep, hnot]
  have hsum : ∀ j, ∑ c ∈ Finset.range s.size, outstanding j ((s.set i r).step c) =
      ∑ c ∈ Finset.range s.size, outstanding j (s.step c) := fun j => by
    have := sum_update_add _ (outstanding j) s.step (Finset.mem_range.mpr hi) r
    rw [hout] at this
    exact add_right_cancel this
  have hstep : ∀ j, j ≠ i → (s.set i r).step j = s.step j :=
    fun j hj => Function.update_of_ne hj _ _
  have hself : (s.set i r).step i = r := Function.update_self ..
  refine ⟨fun j hj => ?_, fun c hc p hp => ?_, fun j hj => ?_, h.assert_ok, h.add_ok⟩
  · rcases eq_or_ne j i with rfl | hji
    · rwa [hself]
    · rw [hstep j hji]
      exact h.ok j hj
  · have hp' : (s.step c).pstep = some p := by
      rcases eq_or_ne c i with rfl | hci
      · rwa [hself, hpstep] at hp
      · rwa [hstep c hci] at hp
    obtain ⟨hlt, hst⟩ := h.pstep_lt c hc p hp'
    refine ⟨hlt, ?_⟩
    rcases eq_or_ne p i with rfl | hpi
    · rw [hself]
      exact hstart hst
    · rwa [hstep p hpi]
  · change _ = _ + ∑ c ∈ Finset.range s.size, outstanding j ((s.set i r).step c)
    rw [hsum]
    have := h.working_eq j hj
    -- only the counter of step `i` moves, and by as much as its share
    rcases eq_or_ne j i with rfl | hji
    · rw [hself]
      omega
    · rwa [hstep j hji]

theorem start_invariant {parts : Option ℕ} (hparts : parts ≠ some 0) :
    Invariant (start parts) := by
  have hpstep : (SortStep.create none parts).pstep = none := by cases parts <;> rfl
  refine ⟨fun i _ => ?_, fun c _ p hp => ?_, fun i _ => ?_, rfl, rfl⟩
  · change (SortStep.create none parts).Ok
    cases parts with
    | none => exact ⟨trivial, by simp [SortStep.create], rfl, rfl⟩
    | some parts =>
      have : parts ≠ 0 := fun h => hparts (congrArg some h)
      exact ⟨Nat.pos_of_ne_zero this, by simp [SortStep.create], rfl, rfl⟩
  · change (SortStep.create none parts).pstep = some p at hp
    rw [hpstep] at hp
    exact absurd hp (by simp)
  · change (SortStep.create none parts).working = (SortStep.create none parts).phase.share +
      ∑ c ∈ Finset.range 1, outstanding i (SortStep.create none parts)
    rw [Finset.sum_range_one, outstanding, hpstep]
    cases parts <;> rfl

/-- A step that has an unfinished substep or holds its handle has a positive counter. -/
theorem Invariant.assertWorking_eq {s : SortSteps} {i : ℕ}
    (hi : 0 < (s.step i).working) : s.assertWorking i = s := by
  have : decide ((s.step i).working = 0) = false := decide_eq_false (by omega)
  rw [assertWorking, this, Bool.or_false]

/-- `substep_add()` by the code of a step that still runs. -/
theorem Invariant.add {s : SortSteps} (h : Invariant s) {i : ℕ} (hi : i < s.size)
    {p : StepPhase} (hphase : (s.step i).phase ≠ .waiting) (hp : p ≠ .waiting)
    (hparts : p.PartsOk (s.step i).parts)
    (hstart : (s.step i).phase.started = true → p.started = true)
    (hshare : p.share = (s.step i).phase.share + 1) : Invariant (s.add i p) := by
  have hok := h.ok i hi
  -- code that still runs holds a share, so the counter has not reached zero
  have hz := hok.reachedZero_eq_false (Or.inl hphase)
  have hadd : s.add i p = s.set i { (s.step i).substepAdd with phase := p } := by
    rw [SortSteps.add, hz, Bool.or_false]
  rw [hadd]
  refine h.set hi ⟨hparts, ?_, hok.calls_eq, hok.notify_eq⟩ rfl rfl hstart ?_
  · change (s.step i).reachedZero = true ↔ p = .waiting ∧ _
    simp [hz, hp]
  · change (s.step i).working + 1 + (s.step i).phase.share = (s.step i).working + p.share
    omega

/-- The code of a running step moves on without touching the counter. -/
theorem Invariant.move {s : SortSteps} (h : Invariant s) {i : ℕ} (hi : i < s.size)
    {p : StepPhase} (hphase : (s.step i).phase ≠ .waiting) (hp : p ≠ .waiting)
    (hparts : p.PartsOk (s.step i).parts)
    (hstart : (s.step i).phase.started = true → p.started = true)
    (hshare : p.share = (s.step i).phase.share) :
    Invariant (s.set i { s.step i with phase := p }) := by
  have hok := h.ok i hi
  have hz := hok.reachedZero_eq_false (Or.inl hphase)
  refine h.set hi ⟨hparts, ?_, hok.calls_eq, hok.notify_eq⟩ rfl rfl hstart ?_
  · change (s.step i).reachedZero = true ↔ p = .waiting ∧ _
    simp [hz, hp]
  · change (s.step i).working + (s.step i).phase.share = (s.step i).working + p.share
    rw [hshare]

theorem Invariant.advance {s s' : SortSteps} (h : Invariant s) {i : ℕ} (hi : i < s.size)
    (hs : s.advance i = some s') : Invariant s' := by
  have hparts := (h.ok i hi).parts_ok
  have hwork := h.working_eq i hi
  rw [SortSteps.advance] at hs
  -- by the place of the code: only the phases around the anonymous handle touch the counter
  cases hp : (s.step i).phase with
  | sample =>
    simp only [hp, Option.some_inj] at hs
    rw [hp] at hparts
    subst hs
    exact h.move hi (by simp [hp]) (by simp) ⟨hparts, hparts, by simp⟩ (by simp [hp, StepPhase.started])
      (by rw [hp]; rfl)
  | count toEnqueue jobs pwork =>
    rw [hp] at hparts
    cases toEnqueue with
    | zero => simp [hp] at hs
    | succ toEnqueue =>
      simp only [hp, Option.some_inj] at hs
      subst hs
      obtain ⟨h₁, h₂, h₃⟩ := hparts
      exact h.move hi (by simp [hp]) (by simp) ⟨h₁, h₂, by omega⟩
        (by simp [hp, StepPhase.started]) (by rw [hp]; rfl)
  | distribute toEnqueue jobs pwork =>
    rw [hp] at hparts
    cases toEnqueue with
    | zero => simp [hp] at hs
    | succ toEnqueue =>
      simp only [hp, Option.some_inj] at hs
      subst hs
      obtain ⟨h₁, h₂⟩ := hparts
      exact h.move hi (by simp [hp]) (by simp) ⟨h₁, by omega⟩
        (by simp [hp, StepPhase.started]) (by rw [hp]; rfl)
  | smallsort =>
    simp only [hp, Option.some_inj] at hs
    subst hs
    exact h.move hi (by simp [hp]) (by simp) trivial (by simp [hp, StepPhase.started])
      (by rw [hp]; rfl)
  | addHandle =>
    simp only [hp, Option.some_inj] at hs
    subst hs
    exact h.add hi (by simp [hp]) (by simp) trivial (fun _ => rfl) (by rw [hp]; rfl)
  | spawn =>
    simp only [hp, Option.some_inj] at hs
    subst hs
    exact h.move hi (by simp [hp]) (by simp) trivial (fun _ => rfl) (by rw [hp]; rfl)
  | releaseAssert =>
    simp only [hp, Option.some_inj] at hs
    subst hs
    -- the handle itself keeps the counter above zero
    rw [Invariant.assertWorking_eq (by rw [hwork, hp, StepPhase.share]; omega)]
    exact h.move hi (by simp [hp]) (by simp) trivial (fun _ => rfl) (by rw [hp]; rfl)
  | releaseDec =>
    simp only [hp, Option.some_inj] at hs
    subst hs
    have hpos : 0 < (s.step i).working := by rw [hwork, hp, StepPhase.share]; omega
    obtain ⟨-, hzero, hcalls, hnotify⟩ := h.ok i hi
    -- giving back the handle is a notification by the step itself, which then waits
    have hok : ({ s.step i with phase := .waiting } : SortStep).Ok := by
      refine ⟨trivial, ?_, hcalls, hnotify⟩
      change (s.step i).reachedZero = true ↔ _ ∧ (s.step i).working = 0
      rw [hzero, hp]
      simp [hpos.ne']
    refine h.set hi (hok.substepNotifyDone hpos fun _ => rfl)
      (SortStep.substepNotifyDone_pstep _) (SortStep.substepNotifyDone_notified _)
      (fun _ => by rw [SortStep.substepNotifyDone_phase]; rfl) ?_
    rw [SortStep.substepNotifyDone_working, SortStep.substepNotifyDone_phase, hp]
    change (s.step i).working - 1 + 1 = (s.step i).working + 0
    omega
  | enqueue => simp [hp] at hs
  | waiting => simp [hp] at hs

/-- The last part to finish leaves no job of the round behind. -/
theorem Invariant.finishPart {s s' : SortSteps} (h : Invariant s) {i : ℕ} (hi : i < s.size)
    (hs : s.finishPart i = some s') : Invariant s' := by
  have hparts := (h.ok i hi).parts_ok
  rw [SortSteps.finishPart] at hs
  cases hp : (s.step i).phase with
  | count toEnqueue jobs pwork =>
    rw [hp] at hparts
    cases jobs with
    | zero => simp [hp] at hs
    | succ jobs =>
      simp only [hp] at hs
      obtain ⟨h₁, h₂, h₃⟩ := hparts
      -- the last `CountJob` goes on with the distribution, as no other job is left
      split at hs <;> rw [Option.some_inj] at hs <;> subst hs
      · exact h.move hi (by simp [hp]) (by simp) ⟨h₁, by simp⟩
          (by simp [hp, StepPhase.started]) (by rw [hp]; rfl)
      · exact h.move hi (by simp [hp]) (by simp) ⟨h₁, by omega, by omega⟩
          (by simp [hp, StepPhase.started]) (by rw [hp]; rfl)
  | distribute toEnqueue jobs pwork =>
    rw [hp] at hparts
    cases jobs with
    | zero => simp [hp] at hs
    | succ jobs =>
      simp only [hp] at hs
      obtain ⟨h₁, h₂⟩ := hparts
      -- the last `DistributeJob` goes on with `distribute_finished`
      split at hs <;> rw [Option.some_inj] at hs <;> subst hs
      · exact h.move hi (by simp [hp]) (by simp) trivial
          (by simp [hp, StepPhase.started]) (by rw [hp]; rfl)
      · exact h.move hi (by simp [hp]) (by simp) ⟨by omega, by omega⟩
          (by simp [hp, StepPhase.started]) (by rw [hp]; rfl)
  | _ => simp [hp] at hs

theorem Invariant.allDone {s s' : SortSteps} (h : Invariant s) {i : ℕ} (hi : i < s.size)
    (hs : s.allDone i = some s') : Invariant s' := by
  obtain ⟨hparts, hzero, hcalls, hnotify⟩ := h.ok i hi
  rw [SortSteps.allDone] at hs
  split at hs
  case isFalse => exact absurd hs (by simp)
  case isTrue hpos =>
  rw [Option.some_inj] at hs
  subst hs
  refine h.set hi ⟨hparts, hzero, ?_, ?_⟩ rfl rfl (fun hst => hst) rfl
  · -- the call becomes a run
    change (s.step i).allDoneCalls - 1 + ((s.step i).allDoneRuns + 1) =
      if (s.step i).reachedZero then 1 else 0
    omega
  · -- a step with a `pstep` goes on to notify it
    change (if (s.step i).pstep.isSome then (s.step i).atAssert + 1 else (s.step i).atAssert) +
      (s.step i).atDec + (s.step i).notified =
        if (s.step i).pstep.isSome then (s.step i).allDoneRuns + 1 else 0
    split at hnotify
    · next hsome =>
      rw [if_pos hsome, if_pos hsome]
      omega
    · next hnone =>
      rw [if_neg hnone, if_neg hnone]
      exact hnotify

/-- Behind `substep_all_done` a step is still outstanding until it has notified. -/
theorem Invariant.outstanding_of_notifying {s : SortSteps} (h : Invariant s) {i p : ℕ}
    (hi : i < s.size) (hp : (s.step i).pstep = some p)
    (hn : 0 < (s.step i).atAssert + (s.step i).atDec) : (s.step i).notified = 0 := by
  obtain ⟨-, -, hcalls, hnotify⟩ := h.ok i hi
  -- one run makes one notification, and this one is not through
  have hle : (s.step i).allDoneRuns ≤ 1 := by split at hcalls <;> omega
  rw [hp, Option.isSome_some, if_pos rfl] at hnotify
  omega

/-- While a step is outstanding, it is counted by its `pstep`. -/
theorem Invariant.share_lt_working {s : SortSteps} (h : Invariant s) {i p : ℕ}
    (hi : i < s.size) (hp : (s.step i).pstep = some p) (hn : (s.step i).notified = 0) :
    (s.step p).phase.share < (s.step p).working := by
  have hpi := (h.pstep_lt i hi p hp).1
  -- the step itself is one term of the sum in `working_eq`
  have hle : outstanding p (s.step i) ≤ ∑ c ∈ Finset.range s.size, outstanding p (s.step c) :=
    Finset.single_le_sum (f := fun c => outstanding p (s.step c)) (fun c _ => Nat.zero_le _)
      (Finset.mem_range.mpr hi)
  rw [outstanding, if_pos ⟨hp, hn⟩] at hle
  have := h.working_eq p (by omega)
  omega

theorem Invariant.notifyAssert {s s' : SortSteps} (h : Invariant s) {i : ℕ} (hi : i < s.size)
    (hs : s.notifyAssert i = some s') : Invariant s' := by
  obtain ⟨hparts, hzero, hcalls, hnotify⟩ := h.ok i hi
  rw [SortSteps.notifyAssert] at hs
  cases hp : (s.step i).pstep with
  | none => simp [hp] at hs
  | some p =>
    simp only [hp] at hs
    split at hs
    case isFalse => exact absurd hs (by simp)
    case isTrue hpos =>
    rw [Option.some_inj] at hs
    subst hs
    -- the assertion holds, since the notifying step is still counted
    have hlt := h.share_lt_working hi hp (h.outstanding_of_notifying hi hp (by omega))
    rw [Invariant.assertWorking_eq (by omega)]
    refine h.set hi ⟨hparts, hzero, hcalls, ?_⟩ rfl rfl (fun hst => hst) rfl
    change (s.step i).atAssert - 1 + ((s.step i).atDec + 1) + (s.step i).notified =
      if (s.step i).pstep.isSome then (s.step i).allDoneRuns else 0
    omega

private theorem eq_waiting_of_share {p : StepPhase} (hst : p.started = true)
    (hshare : p.share = 0) : p = .waiting := by
  cases p <;> simp_all [StepPhase.started, StepPhase.share]

/-- Notifying takes the substep from the unfinished ones and one from the counter. -/
theorem Invariant.notifyDec {s s' : SortSteps} (h : Invariant s) {i : ℕ} (hi : i < s.size)
    (hs : s.notifyDec i = some s') : Invariant s' := by
  rw [SortSteps.notifyDec] at hs
  cases hp : (s.step i).pstep with
  | none => simp [hp] at hs
  | some p =>
    simp only [hp] at hs
    split at hs
    case isFalse => exact absurd hs (by simp)
    case isTrue hpos =>
    rw [Option.some_inj] at hs
    subst hs
    have hnot := h.outstanding_of_notifying hi hp (by omega)
    have hlt := h.share_lt_working hi hp hnot
    obtain ⟨hpi, hstarted⟩ := h.pstep_lt i hi p hp
    have hpsize : p < s.size := by omega
    -- a counter that comes to zero has no share of `pstep` left in it, so `pstep` waits
    have hqok : (s.step p).substepNotifyDone.Ok :=
      (h.ok p hpsize).substepNotifyDone (by omega) fun hone =>
        eq_waiting_of_share hstarted (by omega)
    set u := (s.set p (s.step p).substepNotifyDone).set i (s.step i).passDec with hu
    have hstepi : u.step i = (s.step i).passDec := Function.update_self ..
    have hstepp : u.step p = (s.step p).substepNotifyDone :=
      (Function.update_of_ne (by omega) _ _).trans (Function.update_self ..)
    have hstep : ∀ j, j ≠ i → j ≠ p → u.step j = s.step j := fun j hji hjp =>
      (Function.update_of_ne hji _ _).trans (Function.update_of_ne hjp _ _)
    -- what each step keeps, and what its counter loses
    have hfields : ∀ j, (u.step j).pstep = (s.step j).pstep ∧
        (u.step j).phase = (s.step j).phase ∧
        (u.step j).working + outstanding j (s.step i) = (s.step j).working := by
      intro j
      rcases eq_or_ne j i with rfl | hji
      · have hzero : outstanding j (s.step j) = 0 := if_neg fun hc => by
          have := Option.some_inj.mp (hp.symm.trans hc.1)
          omega
        rw [hstepi, hzero]
        exact ⟨rfl, rfl, rfl⟩
      · rcases eq_or_ne j p with rfl | hjp
        · have hone : outstanding j (s.step i) = 1 := if_pos ⟨hp, hnot⟩
          rw [hstepp, hone, SortStep.substepNotifyDone_pstep, SortStep.substepNotifyDone_phase,
            SortStep.substepNotifyDone_working]
          exact ⟨rfl, rfl, by omega⟩
        · have hzero : outstanding j (s.step i) = 0 := if_neg fun hc =>
            hjp (Option.some_inj.mp (hc.1.symm.trans hp))
          rw [hstep j hji hjp, hzero]
          exact ⟨rfl, rfl, rfl⟩
    have hsum : ∀ j, (∑ c ∈ Finset.range s.size, outstanding j (u.step c)) +
        outstanding j (s.step i) = ∑ c ∈ Finset.range s.size, outstanding j (s.step c) := by
      intro j
      have hfst := sum_update_add _ (outstanding j) s.step (Finset.mem_range.mpr hpsize)
        (s.step p).substepNotifyDone
      have hsnd := sum_update_add _ (outstanding j) (s.set p (s.step p).substepNotifyDone).step
        (Finset.mem_range.mpr hi) (s.step i).passDec
      have hq : outstanding j (s.step p).substepNotifyDone = outstanding j (s.step p) := by
        rw [outstanding, outstanding, SortStep.substepNotifyDone_pstep,
          SortStep.substepNotifyDone_notified]
      have hr : outstanding j (s.step i).passDec = 0 := if_neg fun hc => by
        simpa [SortStep.passDec] using hc.2
      have hmid : (s.set p (s.step p).substepNotifyDone).step i = s.step i :=
        Function.update_of_ne (by omega) _ _
      rw [hr, hmid] at hsnd
      rw [hq] at hfst
      exact hsnd.trans (add_right_cancel hfst)
    refine ⟨fun j hj => ?_, fun c hc b hb => ?_, fun j hj => ?_, h.assert_ok, h.add_ok⟩
    · rcases eq_or_ne j i with rfl | hji
      · rw [hstepi]
        obtain ⟨hparts, hzero, hcalls, hnotify⟩ := h.ok j hi
        refine ⟨hparts, hzero, hcalls, ?_⟩
        change (s.step j).atAssert + ((s.step j).atDec - 1) + ((s.step j).notified + 1) =
          if (s.step j).pstep.isSome then (s.step j).allDoneRuns else 0
        omega
      · rcases eq_or_ne j p with rfl | hjp
        · rwa [hstepp]
        · rw [hstep j hji hjp]
          exact h.ok j hj
    · rw [(hfields c).1] at hb
      rw [(hfields b).2.1]
      exact h.pstep_lt c hc b hb
    · have hw := h.working_eq j hj
      have hf := (hfields j).2.2
      have hs := hsum j
      change (u.step j).working = (u.step j).phase.share +
        ∑ c ∈ Finset.range s.size, outstanding j (u.step c)
      rw [(hfields j).2.1]
      omega

/-- A created step replaces the share that its creator held for it. -/
theorem Invariant.enqueue {s s' : SortSteps} (h : Invariant s) {i : ℕ} (hi : i < s.size)
    {parts : Option ℕ} (hs : s.enqueue i parts = some s') : Invariant s' := by
  rw [SortSteps.enqueue] at hs
  split at hs
  case isFalse => exact absurd hs (by simp)
  case isTrue hcond =>
  obtain ⟨hphase, hparts⟩ := hcond
  rw [Option.some_inj] at hs
  subst hs
  have hnew : (SortStep.create (some i) parts).pstep = some i ∧
      (SortStep.create (some i) parts).notified = 0 ∧
      (SortStep.create (some i) parts).working = 0 ∧
      (SortStep.create (some i) parts).phase.share = 0 := by
    cases parts <;> exact ⟨rfl, rfl, rfl, rfl⟩
  obtain ⟨hpstep, hnotified, hworking, hshare⟩ := hnew
  have hcreate : (SortStep.create (some i) parts).Ok := by
    cases parts with
    | none => exact ⟨trivial, by simp [SortStep.create], rfl, rfl⟩
    | some parts =>
      have : parts ≠ 0 := fun h => hparts (congrArg some h)
      exact ⟨Nat.pos_of_ne_zero this, by simp [SortStep.create], rfl, rfl⟩
  set r : SortStep := { s.step i with phase := .spawn } with hr
  set f := Function.update (s.set i r).step s.size (SortStep.create (some i) parts) with hf
  have hsize : f s.size = SortStep.create (some i) parts := Function.update_self ..
  have hself : f i = r :=
    (Function.update_of_ne (by omega) _ _).trans (Function.update_self ..)
  have hstep : ∀ j, j < s.size → j ≠ i → f j = s.step j := fun j hj hji =>
    (Function.update_of_ne (by omega) _ _).trans (Function.update_of_ne hji _ _)
  have hok := h.ok i hi
  have hz := hok.reachedZero_eq_false (Or.inl (by rw [hphase]; simp))
  -- the old steps keep their counters, and the creator its handle
  have hfields : ∀ j, j < s.size → (f j).pstep = (s.step j).pstep ∧
      (f j).notified = (s.step j).notified ∧ (f j).working = (s.step j).working ∧
      ((s.step j).phase.started = true → (f j).phase.started = true) ∧ (f j).Ok := by
    intro j hj
    rcases eq_or_ne j i with rfl | hji
    · rw [hself]
      refine ⟨rfl, rfl, rfl, fun _ => rfl, trivial, ?_, hok.calls_eq, hok.notify_eq⟩
      change (s.step j).reachedZero = true ↔ StepPhase.spawn = .waiting ∧ _
      simp [hz]
    · rw [hstep j hj hji]
      exact ⟨rfl, rfl, rfl, id, h.ok j hj⟩
  have hsum : ∀ j, ∑ c ∈ Finset.range s.size, outstanding j (f c) =
      ∑ c ∈ Finset.range s.size, outstanding j (s.step c) := fun j =>
    Finset.sum_congr rfl fun c hc => by
      obtain ⟨h₁, h₂, -⟩ := hfields c (Finset.mem_range.mp hc)
      rw [outstanding, outstanding, h₁, h₂]
  refine ⟨fun j hj => ?_, fun c hc b hb => ?_, fun j hj => ?_, h.assert_ok, h.add_ok⟩
  · change j < s.size + 1 at hj
    change (f j).Ok
    rcases Nat.lt_succ_iff_lt_or_eq.mp hj with hlt | rfl
    · exact (hfields j hlt).2.2.2.2
    · rwa [hsize]
  · change c < s.size + 1 at hc
    change (f c).pstep = some b at hb
    change b < c ∧ (f b).phase.started = true
    rcases Nat.lt_succ_iff_lt_or_eq.mp hc with hlt | rfl
    · rw [(hfields c hlt).1] at hb
      obtain ⟨hbc, hst⟩ := h.pstep_lt c hlt b hb
      exact ⟨hbc, (hfields b (by omega)).2.2.2.1 hst⟩
    · rw [hsize, hpstep, Option.some_inj] at hb
      subst hb
      exact ⟨hi, by rw [hself]; rfl⟩
  · change j < s.size + 1 at hj
    change (f j).working = (f j).phase.share +
      ∑ c ∈ Finset.range (s.size + 1), outstanding j (f c)
    rw [Finset.sum_range_succ, hsum, hsize]
    rcases Nat.lt_succ_iff_lt_or_eq.mp hj with hlt | rfl
    · have hw := h.working_eq j hlt
      rw [(hfields j hlt).2.2.1]
      -- what `substep_add` had counted for the creator is now counted for the new step
      rcases eq_or_ne j i with rfl | hji
      · rw [hself, outstanding, if_pos ⟨hpstep, hnotified⟩, hw, hphase]
        change 2 + _ = 1 + (_ + 1)
        omega
      · rw [hstep j hlt hji, outstanding, if_neg fun hc =>
          hji (Option.some_inj.mp (hc.1.symm.trans hpstep))]
        exact hw
    · -- nothing is registered with the new step
      have hzero : ∑ c ∈ Finset.range s.size, outstanding s.size (s.step c) = 0 :=
        Finset.sum_eq_zero fun c hc => if_neg fun hcond => by
          have hc := Finset.mem_range.mp hc
          have := (h.pstep_lt c hc s.size hcond.1).1
          omega
      rw [hsize, hworking, hshare, hzero, outstanding, if_neg fun hc => by
        have := Option.some_inj.mp (hpstep.symm.trans hc.1)
        omega]
      rfl

/-- Every action keeps the invariant. -/
theorem Invariant.act {s s' : SortSteps} (h : Invariant s) {a : StepAction}
    (hs : s.act a = some s') : Invariant s' := by
  cases a with
  | advance i =>
    obtain ⟨hi, hs⟩ := Option.ite_none_right_eq_some.mp hs
    exact h.advance hi hs
  | finishPart i =>
    obtain ⟨hi, hs⟩ := Option.ite_none_right_eq_some.mp hs
    exact h.finishPart hi hs
  | substepAdd i =>
    obtain ⟨⟨hi, hphase⟩, hs⟩ := Option.ite_none_right_eq_some.mp hs
    rw [Option.some_inj] at hs
    subst hs
    exact h.add hi (by rw [hphase]; simp) (by simp) trivial (fun _ => rfl)
      (by rw [hphase]; rfl)
  | enqueue i parts =>
    obtain ⟨hi, hs⟩ := Option.ite_none_right_eq_some.mp hs
    exact h.enqueue hi hs
  | allDone i =>
    obtain ⟨hi, hs⟩ := Option.ite_none_right_eq_some.mp hs
    exact h.allDone hi hs
  | notifyAssert i =>
    obtain ⟨hi, hs⟩ := Option.ite_none_right_eq_some.mp hs
    exact h.notifyAssert hi hs
  | notifyDec i =>
    obtain ⟨hi, hs⟩ := Option.ite_none_right_eq_some.mp hs
    exact h.notifyDec hi hs

theorem reachable_invariant {s : SortSteps} (h : system.Reachable s) : Invariant s :=
  h.invariant (P := Invariant)
    (fun _ hi => by
      obtain ⟨parts, hparts, rfl⟩ := hi
      exact start_invariant hparts)
    fun _ _ _ _ ih hs => ih.act hs

theorem reachable_runActions {s : SortSteps} (h : system.Reachable s) (acts : List StepAction) :
    system.Reachable (s.runActions acts) := by
  induction acts generalizing s with
  | nil => exact h
  | cons a rest ih =>
    rw [runActions]
    apply ih
    cases hs : s.act a with
    | none => exact h
    | some s' => exact h.step (l := a) hs

end SortSteps

end StringSampleSort
