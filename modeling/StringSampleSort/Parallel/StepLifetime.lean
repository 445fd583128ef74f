import StringSampleSort.Library.Transition
import Mathlib.Algebra.Order.BigOperators.Group.Finset
import Mathlib.Data.Fintype.Fin

/-!
# The lifetime of a parallel sort step

Model of the accesses to a `SampleSortStep` of `src/parallel/bingmann-parallel_sample_sort.hpp`:
any number of threads run its jobs and finish its substeps, and every read or write of one of its
fields is a step of its own.  `substep_all_done` ends with `delete this`.

A thread is given by the operations that it has still to execute.

## Main results

- `StepLifetime.reachable_invariant`: `pwork` and `m_substep_working` count what is still to come
- `noUseAfterEnd_iff`: no field is touched after the deletion if and only if the step is deleted
  while no thread stands behind its last `enqueue`, at the test `p < parts`
-/

namespace StringSampleSort

open Library

namespace StepLifetime

/-! ## Model -/

/-- The fields of a `SampleSortStep`. -/
inductive Field where
  | pstep | strptr | depth | parts | psize | pwork | classifier | splitterLcp | bkt | bktcache
  | substepWorking
  deriving DecidableEq, Repr

/-- The jobs of a step. -/
inductive StepJob where
  | sample
  | count (p : ℕ)
  | distribute (p : ℕ)
  deriving DecidableEq, Repr

/-- What the code of a step does, as far as the step is concerned. -/
inductive StepOp where
  /-- a read or write of a field -/
  | access (f : Field)
  /-- the test `p < parts` of a loop that enqueues jobs -/
  | loopTest
  /-- the write `pwork = parts` -/
  | setPwork
  /-- `ctx.jobqueue.enqueue(new ...(this, p))` -/
  | enqueue (j : StepJob)
  /-- `if (--pwork == 0)`, in `count` or in `distribute` -/
  | decPwork (counting : Bool)
  /-- the `substep_add()` of the anonymous handle -/
  | addHandle
  /-- the `substep_add()` for a substep -/
  | substepAdd
  /-- `Enqueue` of that substep -/
  | enqueueSubstep
  /-- `if (--m_substep_working == 0)` -/
  | notifyDone
  /-- `delete this` -/
  | deleteThis
  deriving DecidableEq, Repr

/-- The operation reads or writes a field of the step. -/
def StepOp.touches : StepOp → Bool
  | enqueue _ | enqueueSubstep => false
  | _ => true

/-- What the accesses of a step depend on: the parts and their sizes, the sample, and the sizes
of the buckets and `splitter_lcp[j] & 0x80` as they turn out. -/
structure Config where
  parts : ℕ
  parts_pos : 0 < parts
  partSize : ℕ → ℕ
  samplesize : ℕ
  numsplitters : ℕ
  bktsize : ℕ → ℕ
  done : ℕ → Bool
  calcLcp : Bool
  hasPstep : Bool

section Code

open StepOp

/-- The loop `for (p = i; p < parts; ++p) ctx.jobqueue.enqueue(new Job(this, p));` with `k` rounds
to go. -/
def enqueueLoop (job : ℕ → StepJob) : ℕ → ℕ → List StepOp
  | _, 0 => [loopTest]
  | i, k + 1 => loopTest :: enqueue (job i) :: enqueueLoop job (i + 1) k

variable (par : Config)

/-- `sample(ctx)`. -/
def sample : List StepOp :=
  [access .strptr, access .strptr, access .strptr] ++
    (List.replicate par.samplesize [access .strptr, access .strptr, access .depth]).flatten ++
    [access .classifier, access .splitterLcp, access .parts] ++
    setPwork :: enqueueLoop .count 0 par.parts

/-- `strset.begin() + p * psize` and `strset.begin() + std::min((p + 1) * psize, strptr.size())`. -/
def partRange : List StepOp :=
  [access .strptr, access .strptr, access .psize, access .strptr, access .psize, access .strptr]

/-- `count(p, ctx)` up to `--pwork`. -/
def count (p : ℕ) : List StepOp :=
  partRange ++ access .bktcache ::
    (List.replicate (par.partSize p) [access .strptr, access .depth, access .classifier]).flatten ++
    [access .bkt, decPwork true]

/-- `count_finished(ctx)`. -/
def countFinished : List StepOp :=
  (List.replicate (2 * par.numsplitters + 1)
    ((List.replicate par.parts [access .parts, access .bkt]).flatten ++ [access .parts])).flatten ++
    [access .strptr, access .parts] ++ setPwork :: enqueueLoop .distribute 0 par.parts

/-- `distribute(p, ctx)` up to `--pwork`. -/
def distribute (p : ℕ) : List StepOp :=
  partRange ++ [access .strptr, access .bktcache, access .bkt] ++
    (if p ≠ 0 then [access .bkt] else []) ++ [access .bktcache, decPwork false]

/-- The round of `distribute_finished` for bucket `i`. -/
def distributeBucket (i : ℕ) : List StepOp :=
  if par.bktsize i = 0 then []
  else if par.bktsize i = 1 then [access .strptr]
  else if i = 2 * par.numsplitters then
    [substepAdd, access .strptr, access .depth, enqueueSubstep]
  else if i % 2 = 0 then
    [substepAdd, access .strptr, access .depth, access .splitterLcp, enqueueSubstep]
  else access .splitterLcp :: if par.done (i / 2) then
      [access .strptr, access .depth, access .classifier]
    else [substepAdd, access .strptr, access .depth, enqueueSubstep]

/-- `distribute_finished(ctx)`. -/
def distributeFinished : List StepOp :=
  [access .bkt, access .strptr, addHandle] ++
    (List.range (2 * par.numsplitters + 1)).flatMap (distributeBucket par) ++
    [access .substepWorking, notifyDone]

/-- `substep_all_done()`. -/
def substepAllDone : List StepOp :=
  (if par.calcLcp then
    [access .classifier, access .strptr, access .depth, access .bkt, access .classifier,
      access .bkt] else []) ++
    access .pstep :: (if par.hasPstep then [access .pstep] else []) ++ [deleteThis]

/-- What a thread executes that runs a job. -/
def jobCode : StepJob → List StepOp
  | .sample => sample par
  | .count p => count par p
  | .distribute p => distribute p

/-- What a thread executes that has finished a substep: `pstep->substep_notify_done()`. -/
def substepCode : List StepOp := [access .substepWorking, notifyDone]

end Code

/-- A step with its jobs, and `n` threads. -/
structure State (n : ℕ) where
  alive : Bool
  pwork : ℕ
  /-- `m_substep_working` -/
  working : ℕ
  /-- the jobs in the queue -/
  jobs : List StepJob
  /-- number of substeps that are enqueued and have not yet finished -/
  substeps : ℕ
  /-- what each thread has still to execute -/
  code : Fin n → List StepOp

/-- What an idle thread turns to. -/
inductive Choice where
  | job (k : ℕ)
  | substep
  deriving DecidableEq, Repr

namespace State

variable {n : ℕ}

/-- Thread `t` goes on with other code. -/
def goto (s : State n) (t : Fin n) (l : List StepOp) : State n :=
  { s with code := Function.update s.code t l }

/-- The next step of thread `t`. -/
def threadStep (par : Config) (s : State n) (t : Fin n) (c : Choice) : Option (State n) :=
  match s.code t with
  | [] =>
    match c with
    | .job k => (s.jobs[k]?).map fun j =>
      { s with jobs := s.jobs.eraseIdx k }.goto t (jobCode par j)
    | .substep =>
      if 0 < s.substeps then
        some ({ s with substeps := s.substeps - 1 }.goto t substepCode)
      else none
  | .access _ :: rest => some (s.goto t rest)
  | .loopTest :: rest => some (s.goto t rest)
  | .setPwork :: rest => some ({ s with pwork := par.parts }.goto t rest)
  | .enqueue j :: rest => some ({ s with jobs := s.jobs ++ [j] }.goto t rest)
  | .decPwork counting :: rest =>
    some ({ s with pwork := s.pwork - 1 }.goto t
      (if s.pwork - 1 = 0 then
        (if counting then countFinished par else distributeFinished par) ++ rest else rest))
  | .addHandle :: rest => some ({ s with working := s.working + 1 }.goto t rest)
  | .substepAdd :: rest => some ({ s with working := s.working + 1 }.goto t rest)
  | .enqueueSubstep :: rest => some ({ s with substeps := s.substeps + 1 }.goto t rest)
  | .notifyDone :: rest =>
    some ({ s with working := s.working - 1 }.goto t
      (if s.working - 1 = 0 then substepAllDone par ++ rest else rest))
  | .deleteThis :: rest => some ({ s with alive := false }.goto t rest)

/-- The step as its constructor leaves it, with its `SampleJob` in the queue. -/
def start (n : ℕ) : State n := ⟨true, 0, 0, [.sample], 0, fun _ => []⟩

/-- The next operation of thread `t` reads or writes a field. -/
def Touching (s : State n) (t : Fin n) : Prop := ∃ op rest, s.code t = op :: rest ∧ op.touches

/-- No thread is about to touch the step after its end. -/
def NoUseAfterEnd (s : State n) : Prop := s.alive = false → ∀ t, ¬ s.Touching t

/-- Thread `t` is at `delete this`. -/
def Deletes (s : State n) (t : Fin n) : Prop := ∃ rest, s.code t = .deleteThis :: rest

/-- No thread stands behind its last `enqueue`, at the test `p < parts`. -/
def NoneAtLoopTest (s : State n) : Prop := ∀ t, s.code t ≠ [.loopTest]

end State

/-- All interleavings of the threads. -/
def system (par : Config) (n : ℕ) : Transition (State n) (Fin n) where
  init s := s = State.start n
  step s t s' := ∃ c, s.threadStep par t c = some s'

/-! ## What code contributes -/

/-- The jobs that the code will enqueue, and the part that it works on. -/
def pworkShare : List StepOp → ℕ
  | [] => 0
  | .setPwork :: _ => 0
  | .enqueue _ :: rest => pworkShare rest + 1
  | .decPwork _ :: rest => pworkShare rest + 1
  | _ :: rest => pworkShare rest

/-- The registrations that the code has in its hands: the handle, the substep that it is about to
enqueue, and the substep that it has finished. -/
def workingShare : List StepOp → ℕ
  | [] => 0
  | .addHandle :: _ => 0
  | .substepAdd :: rest => workingShare rest - 1
  | .enqueueSubstep :: rest => workingShare rest + 1
  | .notifyDone :: rest => workingShare rest + 1
  | _ :: rest => workingShare rest

/-- The code will start the next phase of the step, or end it. -/
def lead : List StepOp → ℕ
  | [] => 0
  | .setPwork :: _ => 1
  | .addHandle :: _ => 1
  | .deleteThis :: _ => 1
  | _ :: rest => lead rest

/-- The code contributes something. -/
def Contributes (l : List StepOp) : Prop := 0 < pworkShare l + workingShare l + lead l

/-- Code of the step, from some point on: apart from the last loop test, all of it contributes. -/
inductive Code (parts : ℕ) : List StepOp → Prop
  | nil : Code parts []
  | lastTest : Code parts [.loopTest]
  | access (f : Field) {l : List StepOp} : Code parts l → Contributes l →
      Code parts (.access f :: l)
  | loopTest {l : List StepOp} : Code parts l → Contributes l → Code parts (.loopTest :: l)
  | setPwork {l : List StepOp} : Code parts l → pworkShare l = parts → workingShare l = 0 →
      lead l = 0 → Code parts (.setPwork :: l)
  | enqueue {j : StepJob} {l : List StepOp} : j ≠ .sample → Code parts l →
      Code parts (.enqueue j :: l)
  | decPwork (counting : Bool) : Code parts [.decPwork counting]
  | addHandle {l : List StepOp} : Code parts l → pworkShare l = 0 → workingShare l = 1 →
      lead l = 0 → Code parts (.addHandle :: l)
  | substepAdd {l : List StepOp} : Code parts l → 2 ≤ workingShare l →
      Code parts (.substepAdd :: l)
  | enqueueSubstep {l : List StepOp} : Code parts l → Code parts (.enqueueSubstep :: l)
  | notifyDone : Code parts [.notifyDone]
  | deleteThis : Code parts [.deleteThis]

/-! ## What the code of each job contributes -/

section CodeFacts

variable {par : Config} {l : List StepOp}

/-- Nothing but accesses to fields. -/
def Accesses (acc : List StepOp) : Prop := ∀ op ∈ acc, ∃ f, op = .access f

theorem Accesses.append {a b : List StepOp} (ha : Accesses a) (hb : Accesses b) :
    Accesses (a ++ b) := fun op hop =>
  (List.mem_append.mp hop).elim (ha op) (hb op)

theorem Accesses.flatten {L : List (List StepOp)} (h : ∀ a ∈ L, Accesses a) :
    Accesses L.flatten := fun op hop => by
  obtain ⟨a, ha, hmem⟩ := List.mem_flatten.mp hop
  exact h a ha op hmem

theorem Accesses.flatten_replicate {a : List StepOp} (h : Accesses a) (k : ℕ) :
    Accesses (List.replicate k a).flatten :=
  Accesses.flatten fun _ hb => List.eq_of_mem_replicate hb ▸ h

theorem accesses_of_all {a : List StepOp}
    (h : a.all (fun op => match op with | .access _ => true | _ => false) = true) :
    Accesses a := by
  intro op hop
  have hop := List.all_eq_true.mp h op hop
  cases op with
  | access f => exact ⟨f, rfl⟩
  | _ => exact absurd hop (by simp)

/-- Accesses contribute nothing of their own. -/
theorem Accesses.shares {acc : List StepOp} (h : Accesses acc) :
    pworkShare (acc ++ l) = pworkShare l ∧ workingShare (acc ++ l) = workingShare l ∧
      lead (acc ++ l) = lead l := by
  induction acc with
  | nil => exact ⟨rfl, rfl, rfl⟩
  | cons op acc ih =>
    obtain ⟨f, rfl⟩ := h op (List.mem_cons_self ..)
    exact ih fun o ho => h o (List.mem_cons_of_mem _ ho)

theorem Accesses.code {acc : List StepOp} (h : Accesses acc) {parts : ℕ} (hl : Code parts l)
    (hc : Contributes l) : Code parts (acc ++ l) := by
  induction acc with
  | nil => exact hl
  | cons op acc ih =>
    obtain ⟨f, rfl⟩ := h op (List.mem_cons_self ..)
    have hacc : Accesses acc := fun o ho => h o (List.mem_cons_of_mem _ ho)
    refine .access f (ih hacc) ?_
    obtain ⟨h₁, h₂, h₃⟩ := hacc.shares (l := l)
    show 0 < pworkShare (acc ++ l) + workingShare (acc ++ l) + lead (acc ++ l)
    rwa [h₁, h₂, h₃]

/-- A loop that enqueues jobs contributes these jobs. -/
theorem enqueueLoop_shares (job : ℕ → StepJob) (i k : ℕ) :
    pworkShare (enqueueLoop job i k) = k ∧ workingShare (enqueueLoop job i k) = 0 ∧
      lead (enqueueLoop job i k) = 0 := by
  induction k generalizing i with
  | zero => exact ⟨rfl, rfl, rfl⟩
  | succ k ih =>
    obtain ⟨h₁, h₂, h₃⟩ := ih (i + 1)
    exact ⟨congrArg (· + 1) h₁, h₂, h₃⟩

theorem enqueueLoop_code {job : ℕ → StepJob} (hjob : ∀ p, job p ≠ .sample) (parts i k : ℕ) :
    Code parts (enqueueLoop job i k) := by
  induction k generalizing i with
  | zero => exact .lastTest
  | succ k ih =>
    refine .loopTest (.enqueue (hjob i) (ih (i + 1))) ?_
    exact Nat.add_pos_left (Nat.add_pos_left (Nat.succ_pos _) _) _

/-- A phase begins with accesses, sets `pwork` and enqueues the jobs of the phase. -/
theorem phase_code {acc : List StepOp} (hacc : Accesses acc) {job : ℕ → StepJob}
    (hjob : ∀ p, job p ≠ .sample) (parts : ℕ) :
    let l := acc ++ .setPwork :: enqueueLoop job 0 parts
    Code parts l ∧ pworkShare l = 0 ∧ workingShare l = 0 ∧ lead l = 1 := by
  intro l
  obtain ⟨h₁, h₂, h₃⟩ := enqueueLoop_shares job 0 parts
  obtain ⟨g₁, g₂, g₃⟩ := hacc.shares (l := .setPwork :: enqueueLoop job 0 parts)
  refine ⟨hacc.code (.setPwork (enqueueLoop_code hjob ..) h₁ h₂ h₃) ?_, g₁, g₂.trans h₂, g₃⟩
  exact Nat.add_pos_right _ Nat.one_pos

variable (par) in
theorem sample_eq : ∃ acc, Accesses acc ∧
    sample par = acc ++ .setPwork :: enqueueLoop .count 0 par.parts := by
  refine ⟨_, Accesses.append (Accesses.append ?_ ?_) ?_, rfl⟩
  · exact accesses_of_all rfl
  · exact Accesses.flatten_replicate (accesses_of_all rfl) _
  · exact accesses_of_all rfl

variable (par) in
theorem countFinished_eq : ∃ acc, Accesses acc ∧
    countFinished par = acc ++ .setPwork :: enqueueLoop .distribute 0 par.parts := by
  refine ⟨_, Accesses.append ?_ ?_, rfl⟩
  · refine Accesses.flatten_replicate (Accesses.append ?_ (accesses_of_all rfl)) _
    exact Accesses.flatten_replicate (accesses_of_all rfl) _
  · exact accesses_of_all rfl

variable (par) in
theorem sample_code : Code par.parts (sample par) ∧ pworkShare (sample par) = 0 ∧
    workingShare (sample par) = 0 ∧ lead (sample par) = 1 := by
  obtain ⟨acc, hacc, heq⟩ := sample_eq par
  rw [heq]
  exact phase_code hacc (fun _ => by simp) par.parts

variable (par) in
theorem countFinished_code : Code par.parts (countFinished par) ∧
    pworkShare (countFinished par) = 0 ∧ workingShare (countFinished par) = 0 ∧
      lead (countFinished par) = 1 := by
  obtain ⟨acc, hacc, heq⟩ := countFinished_eq par
  rw [heq]
  exact phase_code hacc (fun _ => by simp) par.parts

/-- A job works on its part up to `--pwork`. -/
theorem part_code {acc : List StepOp} (hacc : Accesses acc) (counting : Bool) (parts : ℕ) :
    let l := acc ++ [.decPwork counting]
    Code parts l ∧ pworkShare l = 1 ∧ workingShare l = 0 ∧ lead l = 0 := by
  intro l
  obtain ⟨h₁, h₂, h₃⟩ := hacc.shares (l := [.decPwork counting])
  exact ⟨hacc.code (.decPwork counting) Nat.one_pos, h₁, h₂, h₃⟩

variable (par) in
theorem count_eq (p : ℕ) : ∃ acc, Accesses acc ∧ count par p = acc ++ [.decPwork true] := by
  refine ⟨partRange ++ .access .bktcache :: (List.replicate (par.partSize p)
    [.access .strptr, .access .depth, .access .classifier]).flatten ++ [.access .bkt],
    Accesses.append (Accesses.append (accesses_of_all rfl) ?_) (accesses_of_all rfl),
    by simp [count]⟩
  rintro op (_ | ⟨_, hop⟩)
  · exact ⟨_, rfl⟩
  · exact Accesses.flatten_replicate (accesses_of_all rfl) _ op hop

theorem distribute_eq (p : ℕ) : ∃ acc, Accesses acc ∧ distribute p = acc ++ [.decPwork false] := by
  refine ⟨partRange ++ [.access .strptr, .access .bktcache, .access .bkt] ++
    (if p ≠ 0 then [.access .bkt] else []) ++ [.access .bktcache],
    Accesses.append (Accesses.append (accesses_of_all rfl) ?_) (accesses_of_all rfl),
    by simp [distribute]⟩
  split <;> exact accesses_of_all rfl

variable (par) in
theorem count_code (p : ℕ) : Code par.parts (count par p) ∧ pworkShare (count par p) = 1 ∧
    workingShare (count par p) = 0 ∧ lead (count par p) = 0 := by
  obtain ⟨acc, hacc, heq⟩ := count_eq par p
  rw [heq]
  exact part_code hacc true par.parts

theorem distribute_code (parts p : ℕ) : Code parts (distribute p) ∧
    pworkShare (distribute p) = 1 ∧ workingShare (distribute p) = 0 ∧
      lead (distribute p) = 0 := by
  obtain ⟨acc, hacc, heq⟩ := distribute_eq p
  rw [heq]
  exact part_code hacc false parts

/-- While the handle is held, the rounds of `distribute_finished` contribute nothing else. -/
theorem distributeBucket_code (i : ℕ) (hl : Code par.parts l) (hw : 1 ≤ workingShare l) :
    let l' := distributeBucket par i ++ l
    Code par.parts l' ∧ pworkShare l' = pworkShare l ∧ workingShare l' = workingShare l ∧
      lead l' = lead l := by
  have hc : Contributes l := Nat.add_pos_left (Nat.add_pos_right _ hw) _
  -- registering a substep, some accesses, and `Enqueue`
  have hsub : ∀ acc, Accesses acc →
      let l' := .substepAdd :: (acc ++ .enqueueSubstep :: l)
      Code par.parts l' ∧ pworkShare l' = pworkShare l ∧ workingShare l' = workingShare l ∧
        lead l' = lead l := by
    intro acc hacc l'
    obtain ⟨h₁, h₂, h₃⟩ := hacc.shares (l := .enqueueSubstep :: l)
    have hshare : workingShare (acc ++ .enqueueSubstep :: l) = workingShare l + 1 := h₂
    refine ⟨.substepAdd (hacc.code (.enqueueSubstep hl) ?_) (by omega), h₁, ?_, h₃⟩
    · exact Nat.add_pos_left (Nat.add_pos_right _ (Nat.succ_pos _)) _
    · show workingShare (acc ++ .enqueueSubstep :: l) - 1 = _
      omega
  have hacc : ∀ acc, Accesses acc →
      Code par.parts (acc ++ l) ∧ pworkShare (acc ++ l) = pworkShare l ∧
        workingShare (acc ++ l) = workingShare l ∧ lead (acc ++ l) = lead l :=
    fun acc hacc => ⟨hacc.code hl hc, hacc.shares⟩
  intro l'
  show Code par.parts (distributeBucket par i ++ l) ∧ _
  simp only [l', distributeBucket]
  split_ifs
  · exact ⟨hl, rfl, rfl, rfl⟩
  · exact hacc _ (accesses_of_all rfl)
  · exact hsub [.access .strptr, .access .depth] (accesses_of_all rfl)
  · exact hsub [.access .strptr, .access .depth, .access .splitterLcp] (accesses_of_all rfl)
  · exact hacc _ (accesses_of_all rfl)
  · obtain ⟨h₁, h₂, h₃, h₄⟩ := hsub [.access .strptr, .access .depth] (accesses_of_all rfl)
    have hc' : Contributes (.substepAdd :: ([.access .strptr, .access .depth] ++
        .enqueueSubstep :: l)) := by
      rw [Contributes, h₂, h₃, h₄]
      exact hc
    exact ⟨.access _ h₁ hc', h₂, h₃, h₄⟩

variable (par) in
theorem distributeFinished_code : Code par.parts (distributeFinished par) ∧
    pworkShare (distributeFinished par) = 0 ∧ workingShare (distributeFinished par) = 0 ∧
      lead (distributeFinished par) = 1 := by
  have hloop : ∀ is : List ℕ,
      let l := is.flatMap (distributeBucket par) ++ substepCode
      Code par.parts l ∧ pworkShare l = 0 ∧ workingShare l = 1 ∧ lead l = 0 := by
    intro is
    induction is with
    | nil => exact ⟨.access _ .notifyDone Nat.one_pos, rfl, rfl, rfl⟩
    | cons i is ih =>
      obtain ⟨h₁, h₂, h₃, h₄⟩ := ih
      obtain ⟨g₁, g₂, g₃, g₄⟩ := distributeBucket_code i h₁ h₃.ge
      simp only [List.flatMap_cons, List.append_assoc]
      exact ⟨g₁, g₂.trans h₂, g₃.trans h₃, g₄.trans h₄⟩
  obtain ⟨h₁, h₂, h₃, h₄⟩ := hloop (List.range (2 * par.numsplitters + 1))
  have hsplit : distributeFinished par = [.access .bkt, .access .strptr] ++ .addHandle ::
      ((List.range (2 * par.numsplitters + 1)).flatMap (distributeBucket par) ++
        substepCode) := by
    simp [distributeFinished, substepCode]
  rw [hsplit]
  exact ⟨(accesses_of_all rfl : Accesses _).code (.addHandle h₁ h₂ h₃ h₄)
    (Nat.add_pos_right _ Nat.one_pos), h₂, rfl, rfl⟩

variable (par) in
theorem substepAllDone_eq : ∃ acc, Accesses acc ∧ substepAllDone par = acc ++ [.deleteThis] := by
  refine ⟨_, Accesses.append ?_ ?_, rfl⟩
  · split <;> exact accesses_of_all rfl
  · split <;> exact accesses_of_all rfl

variable (par) in
theorem substepAllDone_code : Code par.parts (substepAllDone par) ∧
    pworkShare (substepAllDone par) = 0 ∧ workingShare (substepAllDone par) = 0 ∧
      lead (substepAllDone par) = 1 := by
  obtain ⟨acc, hacc, heq⟩ := substepAllDone_eq par
  rw [heq]
  obtain ⟨h₁, h₂, h₃⟩ := hacc.shares (l := [.deleteThis])
  exact ⟨hacc.code .deleteThis Nat.one_pos, h₁, h₂, h₃⟩

end CodeFacts

/-! ## The invariant -/

/-- Whether a counter is above zero. -/
def positive (k : ℕ) : ℕ := if 0 < k then 1 else 0

/-- Jobs that work on a part. -/
def partJobs (jobs : List StepJob) : ℕ := jobs.countP fun j => decide (j ≠ .sample)

/-- Jobs that take a sample. -/
def sampleJobs (jobs : List StepJob) : ℕ := jobs.countP fun j => decide (j = .sample)

namespace State

variable {n : ℕ} {par : Config}

/-- What holds in every reachable state. -/
structure Invariant (par : Config) (s : State n) : Prop where
  code : ∀ t, Code par.parts (s.code t)
  /-- `pwork` counts the parts that are still to be worked on -/
  pwork_eq : s.pwork = ∑ t, pworkShare (s.code t) + partJobs s.jobs
  /-- `m_substep_working` counts the handle and the substeps that have not finished -/
  working_eq : s.working = ∑ t, workingShare (s.code t) + s.substeps
  /-- the step is in one phase, which one job or thread starts, or has come to its end -/
  phase : sampleJobs s.jobs + ∑ t, lead (s.code t) + positive s.pwork + positive s.working +
    (if s.alive then 0 else 1) = 1

theorem start_invariant : Invariant par (start n) where
  code _ := .nil
  pwork_eq := by simp [start, pworkShare, partJobs]
  working_eq := by simp [start, workingShare]
  phase := by simp [start, lead, sampleJobs, positive]

/-- Thread `t` goes on with `l` while the rest of the state becomes that of `u`.  The premises
say what the move does to each count. -/
theorem Invariant.move {s u : State n} (h : Invariant par s) (t : Fin n) {l : List StepOp}
    (hcode : u.code = s.code) (hl : Code par.parts l)
    (hpwork : u.pwork + pworkShare (s.code t) + partJobs s.jobs =
      s.pwork + pworkShare l + partJobs u.jobs)
    (hworking : u.working + workingShare (s.code t) + s.substeps =
      s.working + workingShare l + u.substeps)
    (hphase : sampleJobs u.jobs + lead l + positive u.pwork + positive u.working +
        (if u.alive then 0 else 1) =
      sampleJobs s.jobs + lead (s.code t) + positive s.pwork + positive s.working +
        (if s.alive then 0 else 1)) :
    Invariant par (u.goto t l) := by
  have hp := sum_update_add _ pworkShare s.code (Finset.mem_univ t) l
  have hw := sum_update_add _ workingShare s.code (Finset.mem_univ t) l
  have hd := sum_update_add _ lead s.code (Finset.mem_univ t) l
  have h₁ := h.pwork_eq
  have h₂ := h.working_eq
  have h₃ := h.phase
  refine ⟨fun v => ?_, ?_, ?_, ?_⟩
  · show Code par.parts (Function.update u.code t l v)
    by_cases hv : v = t
    · rw [hv, Function.update_self]
      exact hl
    · rw [Function.update_of_ne hv, hcode]
      exact h.code v
  · show u.pwork = ∑ v, pworkShare (Function.update u.code t l v) + partJobs u.jobs
    rw [hcode]
    omega
  · show u.working = ∑ v, workingShare (Function.update u.code t l v) + u.substeps
    rw [hcode]
    omega
  · show sampleJobs u.jobs + ∑ v, lead (Function.update u.code t l v) + positive u.pwork +
      positive u.working + (if u.alive then 0 else 1) = 1
    rw [hcode]
    omega

/-- What a thread has in its hands is counted. -/
theorem Invariant.share_le {s : State n} (h : Invariant par s) (t : Fin n) :
    pworkShare (s.code t) ≤ s.pwork ∧ workingShare (s.code t) ≤ s.working ∧
      lead (s.code t) + positive s.pwork + positive s.working ≤ 1 := by
  have h₁ := h.pwork_eq
  have h₂ := h.working_eq
  have h₃ := h.phase
  have hp := Finset.single_le_sum (f := fun t => pworkShare (s.code t))
    (fun _ _ => Nat.zero_le _) (Finset.mem_univ t)
  have hw := Finset.single_le_sum (f := fun t => workingShare (s.code t))
    (fun _ _ => Nat.zero_le _) (Finset.mem_univ t)
  have hd := Finset.single_le_sum (f := fun t => lead (s.code t))
    (fun _ _ => Nat.zero_le _) (Finset.mem_univ t)
  omega

/-- Taking a job out of the queue. -/
theorem jobs_take {jobs : List StepJob} {k : ℕ} {j : StepJob} (hj : jobs[k]? = some j) :
    partJobs jobs = partJobs (jobs.eraseIdx k) + (if j = .sample then 0 else 1) ∧
      sampleJobs jobs = sampleJobs (jobs.eraseIdx k) + (if j = .sample then 1 else 0) := by
  obtain ⟨hk, rfl⟩ := List.getElem?_eq_some_iff.mp hj
  have hperm := (List.getElem_cons_eraseIdx_perm hk).symm
  rw [partJobs, partJobs, sampleJobs, sampleJobs, hperm.countP_eq, hperm.countP_eq,
    List.countP_cons, List.countP_cons]
  by_cases h : jobs[k] = .sample
  · simp [h]
  · simp [h]

/-- What the code of a job contributes. -/
theorem jobCode_code (par : Config) (j : StepJob) : Code par.parts (jobCode par j) ∧
    pworkShare (jobCode par j) = (if j = .sample then 0 else 1) ∧
      workingShare (jobCode par j) = 0 ∧ lead (jobCode par j) = if j = .sample then 1 else 0 := by
  cases j with
  | sample => exact sample_code par
  | count p => exact count_code par p
  | distribute p => exact distribute_code par.parts p

theorem jobs_append (jobs : List StepJob) {j : StepJob} (hj : j ≠ .sample) :
    partJobs (jobs ++ [j]) = partJobs jobs + 1 ∧ sampleJobs (jobs ++ [j]) = sampleJobs jobs := by
  simp [partJobs, sampleJobs, hj]

/-- Every step of a thread keeps the invariant. -/
theorem Invariant.step {s s' : State n} (h : Invariant par s) {t : Fin n} {c : Choice}
    (hs : s.threadStep par t c = some s') : Invariant par s' := by
  have hcode := h.code t
  obtain ⟨hp, hw, hd⟩ := h.share_le t
  unfold threadStep at hs
  cases hl : s.code t with
  | nil =>
    rw [hl] at hs
    cases c with
    | job k =>
      obtain ⟨j, hj, rfl⟩ := Option.map_eq_some_iff.mp hs
      obtain ⟨h₁, h₂⟩ := jobs_take hj
      obtain ⟨g₁, g₂, g₃, g₄⟩ := jobCode_code par j
      refine h.move t rfl g₁ ?_ ?_ ?_
      · rw [hl, g₂]
        simp only [pworkShare]
        omega
      · rw [hl, g₃]
        simp only [workingShare]
      · rw [hl, g₄]
        simp only [lead]
        omega
    | substep =>
      by_cases hpos : 0 < s.substeps
      · simp only [hpos, if_true, Option.some_inj] at hs
        subst hs
        refine h.move t rfl (.access _ .notifyDone Nat.one_pos) (by rw [hl]; rfl) ?_ (by rw [hl]; rfl)
        rw [hl]
        simp only [workingShare, substepCode]
        omega
      · simp only [hpos, if_false, reduceCtorEq] at hs
  | cons op rest =>
    rw [hl] at hcode hs hp hw hd
    cases op with
    | access f =>
      simp only [Option.some_inj] at hs
      subst hs
      refine h.move t rfl ?_ (by rw [hl]; rfl) (by rw [hl]; rfl) (by rw [hl]; rfl)
      cases hcode with
      | access _ hrest _ => exact hrest
    | loopTest =>
      simp only [Option.some_inj] at hs
      subst hs
      refine h.move t rfl ?_ (by rw [hl]; rfl) (by rw [hl]; rfl) (by rw [hl]; rfl)
      cases hcode with
      | lastTest => exact .nil
      | loopTest hrest _ => exact hrest
    | setPwork =>
      simp only [Option.some_inj] at hs
      subst hs
      have hparts := par.parts_pos
      cases hcode with
      | setPwork hrest h₁ h₂ h₃ =>
        -- the thread that starts a phase finds `pwork` at zero
        have hzero : s.pwork = 0 := by
          simp only [lead, positive] at hd
          split_ifs at hd <;> omega
        refine h.move t rfl hrest ?_ ?_ ?_
        · rw [hl, h₁, hzero]
          simp only [pworkShare]
          omega
        · rw [hl]
          simp only [workingShare, h₂]
        · rw [hl, h₃, hzero]
          simp only [lead, positive, hparts, if_true, lt_irrefl, if_false]
    | enqueue j =>
      simp only [Option.some_inj] at hs
      subst hs
      cases hcode with
      | enqueue hj hrest =>
        obtain ⟨h₁, h₂⟩ := jobs_append s.jobs hj
        refine h.move t rfl hrest ?_ (by rw [hl]; rfl) ?_
        · rw [hl, h₁]
          simp only [pworkShare]
          omega
        · rw [hl, h₂]
          rfl
    | decPwork counting =>
      simp only [Option.some_inj] at hs
      subst hs
      cases hcode
      simp only [pworkShare] at hp
      by_cases hzero : s.pwork - 1 = 0
      · -- the last part: this thread starts the next phase
        obtain ⟨h₁, h₂, h₃, h₄⟩ : let l := if counting then countFinished par
            else distributeFinished par
            Code par.parts l ∧ pworkShare l = 0 ∧ workingShare l = 0 ∧ lead l = 1 := by
          cases counting with
          | true => exact countFinished_code par
          | false => exact distributeFinished_code par
        rw [if_pos hzero, List.append_nil]
        refine h.move t rfl h₁ ?_ ?_ ?_
        · rw [hl, h₂]
          simp only [pworkShare]
          omega
        · rw [hl, h₃]
          simp only [workingShare]
        · rw [hl, h₄]
          simp only [lead, positive, hzero, lt_irrefl, if_false, show 0 < s.pwork by omega, if_true]
      · rw [if_neg hzero]
        refine h.move t rfl .nil ?_ (by rw [hl]; rfl) ?_
        · rw [hl]
          simp only [pworkShare]
          omega
        · rw [hl]
          simp only [lead, positive, show 0 < s.pwork - 1 by omega, show 0 < s.pwork by omega,
            if_true]
    | addHandle =>
      simp only [Option.some_inj] at hs
      subst hs
      cases hcode with
      | addHandle hrest h₁ h₂ h₃ =>
        have hzero : s.working = 0 := by
          simp only [lead, positive] at hd
          split_ifs at hd <;> omega
        refine h.move t rfl hrest ?_ ?_ ?_
        · rw [hl]
          simp only [pworkShare, h₁]
        · rw [hl, h₂]
          simp only [workingShare]
        · rw [hl, h₃, hzero]
          simp only [lead, positive, lt_irrefl, if_false, Nat.zero_add, Nat.one_pos, if_true]
          omega
    | substepAdd =>
      simp only [Option.some_inj] at hs
      subst hs
      cases hcode with
      | substepAdd hrest h₁ =>
        simp only [workingShare] at hw
        refine h.move t rfl hrest (by rw [hl]; rfl) ?_ ?_
        · rw [hl]
          simp only [workingShare]
          omega
        · rw [hl]
          simp only [lead, positive, Nat.succ_pos, show 0 < s.working by omega, if_true]
    | enqueueSubstep =>
      simp only [Option.some_inj] at hs
      subst hs
      refine h.move t rfl ?_ (by rw [hl]; rfl) ?_ (by rw [hl]; rfl)
      · cases hcode with
        | enqueueSubstep hrest => exact hrest
      · rw [hl]
        simp only [workingShare]
        omega
    | notifyDone =>
      simp only [Option.some_inj] at hs
      subst hs
      cases hcode
      simp only [workingShare] at hw
      by_cases hzero : s.working - 1 = 0
      · obtain ⟨h₁, h₂, h₃, h₄⟩ := substepAllDone_code par
        rw [if_pos hzero, List.append_nil]
        refine h.move t rfl h₁ ?_ ?_ ?_
        · rw [hl, h₂]
          rfl
        · rw [hl, h₃]
          simp only [workingShare]
          omega
        · rw [hl, h₄]
          simp only [lead, positive, hzero, lt_irrefl, if_false, show 0 < s.working by omega,
            if_true]
          omega
      · rw [if_neg hzero]
        refine h.move t rfl .nil (by rw [hl]; rfl) ?_ ?_
        · rw [hl]
          simp only [workingShare]
          omega
        · rw [hl]
          simp only [lead, positive, show 0 < s.working - 1 by omega, show 0 < s.working by omega,
            if_true]
    | deleteThis =>
      simp only [Option.some_inj] at hs
      subst hs
      cases hcode
      have hphase := h.phase
      have hone := Finset.single_le_sum (f := fun t => lead (s.code t))
        (fun _ _ => Nat.zero_le _) (Finset.mem_univ t)
      simp only [hl, lead] at hone
      have halive : s.alive = true := by
        by_contra hdead
        rw [if_neg hdead] at hphase
        omega
      refine h.move t rfl .nil (by rw [hl]; rfl) (by rw [hl]; rfl) ?_
      rw [hl]
      simp only [lead, halive, Bool.false_eq_true, if_false, if_true]
      omega

theorem reachable_invariant {s : State n} (h : (system par n).Reachable s) : Invariant par s := by
  refine h.invariant (fun s hs => hs ▸ start_invariant) fun s t s' _ hinv hstep => ?_
  obtain ⟨c, hc⟩ := hstep
  exact hinv.step hc

/-- After its end the step has neither jobs nor substeps, and a thread that is still in its code
stands behind its last `enqueue`. -/
theorem Invariant.dead {s : State n} (h : Invariant par s) (hdead : s.alive = false) :
    (∀ t, s.code t = [] ∨ s.code t = [.loopTest]) ∧ s.jobs = [] ∧ s.substeps = 0 := by
  have hphase := h.phase
  have h₁ := h.pwork_eq
  have h₂ := h.working_eq
  rw [hdead] at hphase
  simp only [Bool.false_eq_true, if_false, positive] at hphase
  have hzero : s.pwork = 0 ∧ s.working = 0 ∧ sampleJobs s.jobs = 0 := by
    split_ifs at hphase <;> omega
  obtain ⟨hp, hw, hj⟩ := hzero
  refine ⟨fun t => ?_, ?_, by omega⟩
  · obtain ⟨hp', hw', -⟩ := h.share_le t
    have hd := Finset.single_le_sum (f := fun t => lead (s.code t))
      (fun _ _ => Nat.zero_le _) (Finset.mem_univ t)
    -- nothing contributes any more
    have hnone : pworkShare (s.code t) = 0 ∧ workingShare (s.code t) = 0 ∧
        lead (s.code t) = 0 := by
      split_ifs at hphase <;> omega
    have hcode := h.code t
    obtain ⟨g₁, g₂, g₃⟩ := hnone
    generalize s.code t = l at hcode g₁ g₂ g₃
    cases hcode with
    | nil => exact Or.inl rfl
    | lastTest => exact Or.inr rfl
    | access _ _ hc =>
      rw [Contributes] at hc
      simp only [pworkShare, workingShare, lead] at g₁ g₂ g₃
      omega
    | loopTest _ hc =>
      rw [Contributes] at hc
      simp only [pworkShare, workingShare, lead] at g₁ g₂ g₃
      omega
    | substepAdd _ hw' =>
      simp only [workingShare] at g₂
      omega
    | enqueue _ _ => exact absurd g₁ (by simp [pworkShare])
    | enqueueSubstep _ => exact absurd g₂ (by simp [workingShare])
    | setPwork _ _ _ _ => exact absurd g₃ (by simp [lead])
    | addHandle _ _ _ _ => exact absurd g₃ (by simp [lead])
    | deleteThis => exact absurd g₃ (by simp [lead])
    | decPwork _ => exact absurd g₁ (by simp [pworkShare])
    | notifyDone => exact absurd g₂ (by simp [workingShare])
  · have hparts : partJobs s.jobs = 0 := by omega
    rw [partJobs, List.countP_eq_zero] at hparts
    rw [sampleJobs, List.countP_eq_zero] at hj
    rw [List.eq_nil_iff_forall_not_mem]
    intro j hmem
    have := hparts j hmem
    have := hj j hmem
    simp_all

theorem Invariant.noneAtLoopTest_iff {s : State n} (h : Invariant par s) :
    s.NoUseAfterEnd ↔ (s.alive = false → s.NoneAtLoopTest) := by
  refine forall_congr' fun hdead => forall_congr' fun t => not_congr ?_
  rcases (h.dead hdead).1 t with hl | hl
  · rw [hl]
    refine iff_of_false ?_ (by simp)
    rintro ⟨op, rest, hl', -⟩
    exact absurd (hl.symm.trans hl') (by simp)
  · exact iff_of_true ⟨_, _, hl, rfl⟩ hl

/-- A thread comes behind its last `enqueue` only while the step is alive. -/
theorem Invariant.dead_step {s s' : State n} (h : Invariant par s) (hdead : s.alive = false)
    {t : Fin n} {c : Choice} (hs : s.threadStep par t c = some s') :
    s'.alive = false ∧ (s.NoneAtLoopTest → s'.NoneAtLoopTest) := by
  obtain ⟨hcode, hjobs, hsub⟩ := h.dead hdead
  unfold threadStep at hs
  rcases hcode t with hl | hl
  · rw [hl] at hs
    cases c with
    | job k => simp [hjobs] at hs
    | substep => simp [hsub] at hs
  · simp only [hl, Option.some_inj] at hs
    subst hs
    exact ⟨hdead, fun hnone => absurd hl (hnone t)⟩

/-- `delete this` ends the step and leaves the other threads where they are. -/
theorem Invariant.delete_step {s s' : State n} (h : Invariant par s) {t : Fin n} {c : Choice}
    (hs : s.threadStep par t c = some s') (hdel : s.Deletes t) :
    s'.alive = false ∧ (s.NoneAtLoopTest ↔ s'.NoneAtLoopTest) := by
  obtain ⟨rest, hl⟩ := hdel
  have hcode := h.code t
  rw [hl] at hcode
  cases hcode
  unfold threadStep at hs
  simp only [hl, Option.some_inj] at hs
  subst hs
  refine ⟨rfl, forall_congr' fun v => not_congr ?_⟩
  show s.code v = [.loopTest] ↔ Function.update s.code t [] v = [.loopTest]
  by_cases hv : v = t
  · subst hv
    rw [hl, Function.update_self]
    simp
  · rw [Function.update_of_ne hv]

/-- All other operations keep the step alive. -/
theorem threadStep_alive {s s' : State n} {t : Fin n} {c : Choice}
    (hs : s.threadStep par t c = some s') (hdel : ¬ s.Deletes t) : s'.alive = s.alive := by
  unfold threadStep at hs
  cases hl : s.code t with
  | nil =>
    rw [hl] at hs
    cases c with
    | job k =>
      obtain ⟨j, -, rfl⟩ := Option.map_eq_some_iff.mp hs
      rfl
    | substep =>
      by_cases hpos : 0 < s.substeps
      · simp only [hpos, if_true, Option.some_inj] at hs
        subst hs
        rfl
      · simp only [hpos, if_false, reduceCtorEq] at hs
  | cons op rest =>
    rw [hl] at hs
    cases op with
    | deleteThis => exact absurd ⟨rest, hl⟩ hdel
    | _ =>
      simp only [Option.some_inj] at hs
      subst hs
      rfl

end State

end StepLifetime

/-! ## Main results -/

open StepLifetime in
/-- In every run, the step is never touched after its end if and only if it is always deleted
while no thread stands behind its last `enqueue`, at the test `p < parts`. -/
theorem noUseAfterEnd_iff {par : Config} {n : ℕ} {tr : List (State n × Fin n)} {s : State n}
    (h : (StepLifetime.system par n).Run tr s) :
    (s.NoUseAfterEnd ∧ ∀ u t, (u, t) ∈ tr → u.NoUseAfterEnd) ↔
      ∀ u t, (u, t) ∈ tr → u.Deletes t → u.NoneAtLoopTest := by
  induction h with
  | start hs =>
    subst hs
    exact iff_of_true ⟨fun hdead => absurd hdead (by simp [State.start]), by simp⟩ (by simp)
  | @step tr s s' t hrun hstep ih =>
    have hinv := State.reachable_invariant ⟨tr, hrun⟩
    have hinv' := State.reachable_invariant ⟨_, hrun.step hstep⟩
    obtain ⟨c, hc⟩ := hstep
    -- what the new state adds on the left is what the new step adds on the right
    have hnew : s.NoUseAfterEnd → (s'.NoUseAfterEnd ↔ (s.Deletes t → s.NoneAtLoopTest)) := by
      intro hs
      rw [hinv'.noneAtLoopTest_iff]
      rw [hinv.noneAtLoopTest_iff] at hs
      by_cases hdel : s.Deletes t
      · obtain ⟨hdead, hiff⟩ := hinv.delete_step hc hdel
        simp [hdead, hdel, hiff]
      · refine iff_of_true (fun hdead => ?_) fun h => absurd h hdel
        have hdead' : s.alive = false := State.threadStep_alive hc hdel ▸ hdead
        exact (hinv.dead_step hdead' hc).2 (hs hdead')
    constructor
    · rintro ⟨hs', hall⟩ u v hmem
      have hs := hall s t (List.mem_cons_self ..)
      rcases List.mem_cons.mp hmem with heq | htail
      · obtain ⟨rfl, rfl⟩ := Prod.mk.inj heq
        exact (hnew hs).mp hs'
      · exact ih.mp ⟨hs, fun u v h => hall u v (List.mem_cons_of_mem _ h)⟩ u v htail
    · intro hcond
      obtain ⟨hs, hall⟩ := ih.mpr fun u v h => hcond u v (List.mem_cons_of_mem _ h)
      refine ⟨(hnew hs).mpr (hcond s t (List.mem_cons_self ..)), fun u v hmem => ?_⟩
      rcases List.mem_cons.mp hmem with heq | htail
      · obtain ⟨rfl, rfl⟩ := Prod.mk.inj heq
        exact hs
      · exact hall u v htail

/-! ## A use after the end -/

namespace StepLifetime

section TwoThreads

variable {par : Config} {pwork working : ℕ} {jobs : List StepJob} {l₀ l₁ : List StepOp}

/-- Two threads on a step that has no substeps. -/
def twoThreads (alive : Bool) (pwork working : ℕ) (jobs : List StepJob) (l₀ l₁ : List StepOp) :
    State 2 where
  alive := alive
  pwork := pwork
  working := working
  jobs := jobs
  substeps := 0
  code
    | 0 => l₀
    | 1 => l₁

/-- The state of two threads is reachable. -/
def Reaches (par : Config) (pwork working : ℕ) (jobs : List StepJob) (l₀ l₁ : List StepOp) : Prop :=
  (system par 2).Reachable (twoThreads true pwork working jobs l₀ l₁)

theorem twoThreads_goto_zero (alive : Bool) (l : List StepOp) :
    (twoThreads alive pwork working jobs l₀ l₁).goto 0 l =
      twoThreads alive pwork working jobs l l₁ := by
  refine congrArg (State.mk alive pwork working jobs 0) (funext fun t => ?_)
  match t with
  | 0 => rfl
  | 1 => rfl

theorem twoThreads_goto_one (alive : Bool) (l : List StepOp) :
    (twoThreads alive pwork working jobs l₀ l₁).goto 1 l =
      twoThreads alive pwork working jobs l₀ l := by
  refine congrArg (State.mk alive pwork working jobs 0) (funext fun t => ?_)
  match t with
  | 0 => rfl
  | 1 => rfl

/-- Thread 0 takes a step. -/
theorem Reaches.zero (h : Reaches par pwork working jobs l₀ l₁) (c : Choice) {pwork' working' : ℕ}
    {jobs' : List StepJob} {l : List StepOp}
    (hs : (twoThreads true pwork working jobs l₀ l₁).threadStep par 0 c =
      some ((twoThreads true pwork' working' jobs' l₀ l₁).goto 0 l)) :
    Reaches par pwork' working' jobs' l l₁ := by
  rw [Reaches, ← twoThreads_goto_zero]
  exact Transition.Reachable.step h ⟨c, hs⟩

/-- Thread 1 takes a step. -/
theorem Reaches.one (h : Reaches par pwork working jobs l₀ l₁) (c : Choice) {pwork' working' : ℕ}
    {jobs' : List StepJob} {l : List StepOp}
    (hs : (twoThreads true pwork working jobs l₀ l₁).threadStep par 1 c =
      some ((twoThreads true pwork' working' jobs' l₀ l₁).goto 1 l)) :
    Reaches par pwork' working' jobs' l₀ l := by
  rw [Reaches, ← twoThreads_goto_one]
  exact Transition.Reachable.step h ⟨c, hs⟩

/-- Thread 0 makes its accesses. -/
theorem Reaches.accesses_zero {acc : List StepOp} (hacc : Accesses acc)
    (h : Reaches par pwork working jobs (acc ++ l₀) l₁) : Reaches par pwork working jobs l₀ l₁ := by
  induction acc with
  | nil => exact h
  | cons op acc ih =>
    obtain ⟨f, rfl⟩ := hacc op (List.mem_cons_self ..)
    exact ih (fun o ho => hacc o (List.mem_cons_of_mem _ ho)) (h.zero .substep rfl)

/-- Thread 1 makes its accesses. -/
theorem Reaches.accesses_one {acc : List StepOp} (hacc : Accesses acc)
    (h : Reaches par pwork working jobs l₀ (acc ++ l₁)) : Reaches par pwork working jobs l₀ l₁ := by
  induction acc with
  | nil => exact h
  | cons op acc ih =>
    obtain ⟨f, rfl⟩ := hacc op (List.mem_cons_self ..)
    exact ih (fun o ho => hacc o (List.mem_cons_of_mem _ ho)) (h.one .substep rfl)

end TwoThreads

/-- A sort step of 2 ^ 20 + 1 empty strings with two threads: two parts, and all strings in the
equal bucket of the first splitter, which is done. -/
def emptyStringsConfig : Config where
  parts := 2
  parts_pos := Nat.two_pos
  partSize p := if p = 0 then 524289 else 524288
  samplesize := 2046
  numsplitters := 1023
  bktsize i := if i = 1 then 1048577 else 0
  done _ := true
  calcLcp := false
  hasPstep := false

/-- No substep is enqueued for the empty strings. -/
theorem distributeBucket_emptyStrings (i : ℕ) :
    Accesses (distributeBucket emptyStringsConfig i) := by
  by_cases h : i = 1
  · subst h
    exact accesses_of_all rfl
  · have hempty : emptyStringsConfig.bktsize i = 0 := if_neg h
    rw [distributeBucket, if_pos hempty]
    exact accesses_of_all rfl

theorem distributeFinished_emptyStrings : ∃ rounds, Accesses rounds ∧
    distributeFinished emptyStringsConfig =
      [.access .bkt, .access .strptr] ++ .addHandle :: (rounds ++ substepCode) := by
  refine ⟨(List.range (2 * emptyStringsConfig.numsplitters + 1)).flatMap
    (distributeBucket emptyStringsConfig), fun op hop => ?_, by
    simp only [distributeFinished, substepCode, List.cons_append, List.nil_append]⟩
  obtain ⟨i, -, hmem⟩ := List.mem_flatMap.mp hop
  exact distributeBucket_emptyStrings i op hmem

/-- Thread 0 has enqueued both `CountJob`s.  Before it tests `p < parts` again, thread 1 runs them,
and everything that follows up to `delete this`. -/
theorem loopTest_after_delete :
    ∃ s, (system emptyStringsConfig 2).Reachable s ∧ s.alive = false ∧ s.Touching 0 := by
  set par := emptyStringsConfig with hpar
  have h : Reaches par 0 0 [.sample] [] [] := by
    refine Transition.Reachable.start ?_
    refine congrArg (State.mk true 0 0 [.sample] 0) (funext fun t => ?_)
    match t with
    | 0 => rfl
    | 1 => rfl
  -- thread 0 in `sample`
  replace h : Reaches par 0 0 [] (sample par) [] := h.zero (.job 0) rfl
  obtain ⟨acc, hacc, heq⟩ := sample_eq par
  rw [heq] at h
  replace h := h.accesses_zero hacc
  replace h : Reaches par 2 0 [] (enqueueLoop .count 0 2) [] := h.zero .substep rfl
  replace h : Reaches par 2 0 [] (.enqueue (.count 0) :: enqueueLoop .count 1 1) [] :=
    h.zero .substep rfl
  replace h : Reaches par 2 0 [.count 0] (enqueueLoop .count 1 1) [] := h.zero .substep rfl
  replace h : Reaches par 2 0 [.count 0] (.enqueue (.count 1) :: [.loopTest]) [] :=
    h.zero .substep rfl
  replace h : Reaches par 2 0 [.count 0, .count 1] [.loopTest] [] := h.zero .substep rfl
  -- thread 1 in both `CountJob`s
  replace h : Reaches par 2 0 [.count 1] [.loopTest] (count par 0) := h.one (.job 0) rfl
  obtain ⟨acc, hacc, heq⟩ := count_eq par 0
  rw [heq] at h
  replace h := h.accesses_one hacc
  replace h : Reaches par 1 0 [.count 1] [.loopTest] [] := h.one .substep rfl
  replace h : Reaches par 1 0 [] [.loopTest] (count par 1) := h.one (.job 0) rfl
  obtain ⟨acc, hacc, heq⟩ := count_eq par 1
  rw [heq] at h
  replace h := h.accesses_one hacc
  replace h : Reaches par 0 0 [] [.loopTest] (countFinished par ++ []) := h.one .substep rfl
  obtain ⟨acc, hacc, heq⟩ := countFinished_eq par
  rw [List.append_nil, heq] at h
  replace h := h.accesses_one hacc
  replace h : Reaches par 2 0 [] [.loopTest] (enqueueLoop .distribute 0 2) := h.one .substep rfl
  replace h : Reaches par 2 0 [] [.loopTest]
      (.enqueue (.distribute 0) :: enqueueLoop .distribute 1 1) := h.one .substep rfl
  replace h : Reaches par 2 0 [.distribute 0] [.loopTest] (enqueueLoop .distribute 1 1) :=
    h.one .substep rfl
  replace h : Reaches par 2 0 [.distribute 0] [.loopTest]
      (.enqueue (.distribute 1) :: [.loopTest]) := h.one .substep rfl
  replace h : Reaches par 2 0 [.distribute 0, .distribute 1] [.loopTest] [.loopTest] :=
    h.one .substep rfl
  replace h : Reaches par 2 0 [.distribute 0, .distribute 1] [.loopTest] [] := h.one .substep rfl
  -- and in both `DistributeJob`s
  replace h : Reaches par 2 0 [.distribute 1] [.loopTest] (distribute 0) := h.one (.job 0) rfl
  obtain ⟨acc, hacc, heq⟩ := distribute_eq 0
  rw [heq] at h
  replace h := h.accesses_one hacc
  replace h : Reaches par 1 0 [.distribute 1] [.loopTest] [] := h.one .substep rfl
  replace h : Reaches par 1 0 [] [.loopTest] (distribute 1) := h.one (.job 0) rfl
  obtain ⟨acc, hacc, heq⟩ := distribute_eq 1
  rw [heq] at h
  replace h := h.accesses_one hacc
  replace h : Reaches par 0 0 [] [.loopTest] (distributeFinished par ++ []) := h.one .substep rfl
  obtain ⟨rounds, hrounds, heq⟩ := distributeFinished_emptyStrings
  rw [List.append_nil, heq] at h
  replace h : Reaches par 0 0 [] [.loopTest] (.addHandle :: (rounds ++ substepCode)) :=
    Reaches.accesses_one (accesses_of_all rfl) h
  replace h : Reaches par 0 1 [] [.loopTest] (rounds ++ substepCode) := h.one .substep rfl
  replace h := h.accesses_one hrounds
  replace h : Reaches par 0 1 [] [.loopTest] [.notifyDone] := h.one .substep rfl
  replace h : Reaches par 0 0 [] [.loopTest] (substepAllDone par ++ []) := h.one .substep rfl
  obtain ⟨acc, hacc, heq⟩ := substepAllDone_eq par
  rw [List.append_nil, heq] at h
  replace h := h.accesses_one hacc
  -- the end of the step
  have hend : (system par 2).step (twoThreads true 0 0 [] [.loopTest] [.deleteThis]) 1
      ((twoThreads false 0 0 [] [.loopTest] [.deleteThis]).goto 1 []) := ⟨.substep, rfl⟩
  rw [twoThreads_goto_one] at hend
  exact ⟨_, Transition.Reachable.step h hend, rfl, _, _, rfl, rfl⟩

namespace State

variable {n : ℕ}

instance (s : State n) (t : Fin n) : Decidable (s.Deletes t) :=
  decidable_of_iff ((s.code t).head? = some .deleteThis) List.head?_eq_some_iff

instance (s : State n) : Decidable s.NoneAtLoopTest := inferInstanceAs (Decidable (∀ _, _))

/-- One interleaving, given by the threads that take the next steps and what an idle thread turns
to: the steps taken, latest first, and the state reached. -/
def runSchedule (par : Config) :
    List (State n × Fin n) → State n → List (Fin n × Choice) → List (State n × Fin n) × State n
  | tr, s, [] => (tr, s)
  | tr, s, (t, c) :: rest =>
    match s.threadStep par t c with
    | some s' => runSchedule par ((s, t) :: tr) s' rest
    | none => (tr, s)

theorem run_runSchedule {par : Config} {sched : List (Fin n × Choice)}
    {tr : List (State n × Fin n)} {s : State n} (h : (system par n).Run tr s) :
    (system par n).Run (s.runSchedule par tr sched).1 (s.runSchedule par tr sched).2 := by
  induction sched generalizing tr s with
  | nil => exact h
  | cons a rest ih =>
    obtain ⟨t, c⟩ := a
    rw [runSchedule]
    cases hs : s.threadStep par t c with
    | none => exact h
    | some s' => exact ih (h.step ⟨c, hs⟩)

end State

/-- Two parts of one string each, which come into one bucket. -/
def oneBucketConfig : Config where
  parts := 2
  parts_pos := Nat.two_pos
  partSize _ := 1
  samplesize := 2
  numsplitters := 1
  bktsize i := if i = 0 then 2 else 0
  done _ := false
  calcLcp := true
  hasPstep := false

/-- Thread `t` runs `sample` to its end, then the threads share the `CountJob`s and the
`DistributeJob`s.  Thread `u` finishes the substep of the bucket and deletes the step. -/
def deletedInTime (t u : Fin n) : List (Fin n × Choice) :=
  List.replicate 19 (t, .job 0) ++ List.replicate 13 (u, .job 0) ++
    List.replicate 36 (t, .job 0) ++ List.replicate 12 (u, .job 0) ++
    List.replicate 23 (t, .job 0) ++ List.replicate 11 (u, .substep)

end StepLifetime

open StepLifetime in
/-- In this run the step is deleted and not used any more. -/
theorem noUseAfterEnd_deletedInTime :
    ((State.start 2).runSchedule oneBucketConfig [] (deletedInTime 0 1)).2.alive = false ∧
      ((State.start 2).runSchedule oneBucketConfig [] (deletedInTime 0 1)).2.NoUseAfterEnd := by
  have hcond : ∀ p ∈ ((State.start 2).runSchedule oneBucketConfig [] (deletedInTime 0 1)).1,
      p.1.Deletes p.2 → p.1.NoneAtLoopTest := by decide
  refine ⟨by decide, ?_⟩
  exact ((noUseAfterEnd_iff (State.run_runSchedule (.start rfl))).mpr
    fun u t hmem => hcond (u, t) hmem).1

end StringSampleSort
