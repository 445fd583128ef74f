import StringSampleSort.Library.Transition
import Mathlib.Algebra.Order.BigOperators.Group.Finset
import Mathlib.Algebra.Order.Ring.Int
import Mathlib.Data.Multiset.Range

/-!
# The job queue

Model of `JobQueueT::executeThreadWork` of `src/tools/jobqueue.hpp`: any number of threads,
interleaved step by step, around one linearizable queue and one atomic counter.

Jobs are numbered in the order in which they are enqueued.  The group is
`DefaultJobQueueGroup`, whose `assist` does nothing.

## Main results

- `JobQueue.reachable_invariant`: the invariant of every reachable state
- `noJobLost`: when all threads have returned, every job has been run exactly once
- `quiescent_iff`: when a thread leaves, work is outstanding only in the hands of a thread
  that has not yet taken back its idle count
- `workersLeaveQuiescent_iff`: which runs let no worker leave early
-/

namespace StringSampleSort

open Library

/-- A job, by its number in the order of `enqueue`. -/
abbrev Job := ℕ

/-- Program points of `executeThreadWork`.  Both calls of `job->run` are followed by the
outer `try_pop`, so they share their program points. -/
inductive ThreadPc where
  /-- before `m_numthrs = omp_get_num_threads()` -/
  | enter
  /-- at the `try_pop` of the outer loop -/
  | outerPop
  /-- the job is popped and `run` not yet called -/
  | held (job : Job)
  /-- inside `job->run` -/
  | running (job : Job)
  /-- at `++m_idle_count` -/
  | incIdle
  /-- at the `try_pop` of the inner loop -/
  | innerPop
  /-- at the test `m_idle_count == m_numthrs` -/
  | readIdle
  /-- at `--m_idle_count`, with the job popped by the inner loop -/
  | decIdle (job : Job)
  /-- `executeThreadWork` has returned -/
  | returned
  deriving DecidableEq, Repr

/-- A `JobQueueT` shared by `n` threads.  The counter is an integer here;
`JobQueue.idle_bounds` shows that the `unsigned int` of the code never wraps around. -/
structure JobQueue (n : ℕ) where
  /-- `m_queue`, the next job to pop first -/
  queue : List Job
  /-- `m_numthrs` -/
  numthrs : ℕ
  /-- `m_idle_count` -/
  idleCount : ℤ
  pc : Fin n → ThreadPc
  /-- number of jobs enqueued so far, and the number of the next one -/
  enqueued : ℕ
  /-- the jobs whose `run` has been called, in that order -/
  ran : List Job

namespace JobQueue

variable {n : ℕ}

/-! ## Model -/

/-- `has_idle()`. -/
def hasIdle (s : JobQueue n) : Bool := decide (s.idleCount ≠ 0)

/-- `enqueue` of the next job. -/
def enqueue (s : JobQueue n) : JobQueue n :=
  { s with queue := s.queue ++ [s.enqueued], enqueued := s.enqueued + 1 }

/-- Thread `t` moves to another program point. -/
def goto (s : JobQueue n) (t : Fin n) (p : ThreadPc) : JobQueue n :=
  { s with pc := Function.update s.pc t p }

/-- `m_queue.try_pop(job)` by thread `t`, which goes on at `got job` or at `empty`. -/
def tryPop (s : JobQueue n) (t : Fin n) (got : Job → ThreadPc) (empty : ThreadPc) :
    JobQueue n :=
  match s.queue with
  | [] => s.goto t empty
  | job :: rest => { s with queue := rest }.goto t (got job)

/-- The next atomic step of thread `t`.  A running job pushes one more job if `push`, else
its `run` returns. -/
def threadStep (s : JobQueue n) (t : Fin n) (push : Bool) : Option (JobQueue n) :=
  match s.pc t with
  | .enter => some ({ s with numthrs := n }.goto t .outerPop)
  | .outerPop => some (s.tryPop t .held .incIdle)
  | .held job => some ({ s with ran := s.ran ++ [job] }.goto t (.running job))
  | .running _ => if push then some s.enqueue else some (s.goto t .outerPop)
  -- no more jobs -> switch to idle
  | .incIdle => some ({ s with idleCount := s.idleCount + 1 }.goto t .innerPop)
  | .innerPop => some (s.tryPop t .decIdle .readIdle)
  | .readIdle =>
    if s.idleCount = s.numthrs then some (s.goto t .returned) else some (s.goto t .innerPop)
  -- got a new job -> not idle anymore
  | .decIdle job => some ({ s with idleCount := s.idleCount - 1 }.goto t (.held job))
  | .returned => none

/-- `loop()`: the queue holds `jobs` jobs and the counter is set to zero.  `m_numthrs` still
has the value of an earlier loop, or zero. -/
def Initial (jobs : ℕ) (s : JobQueue n) : Prop :=
  s.queue = List.range jobs ∧ s.idleCount = 0 ∧ (∀ t, s.pc t = .enter) ∧
    s.enqueued = jobs ∧ s.ran = []

/-- All interleavings of the threads. -/
def system (n jobs : ℕ) : Transition (JobQueue n) (Fin n) where
  init := Initial jobs
  step s t s' := ∃ push, s.threadStep t push = some s'

/-- The state in which `loop()` starts for the first time. -/
def start (n jobs : ℕ) : JobQueue n where
  queue := List.range jobs
  numthrs := 0
  idleCount := 0
  pc _ := .enter
  enqueued := jobs
  ran := []

/-- One interleaving, given by the threads that take the next steps. -/
def runSchedule (s : JobQueue n) : List (Fin n × Bool) → JobQueue n
  | [] => s
  | (t, push) :: rest => ((s.threadStep t push).getD s).runSchedule rest

/-- The steps of such an interleaving, latest first, in front of earlier ones. -/
def scheduleTrace (tr : List (JobQueue n × Fin n)) (s : JobQueue n) :
    List (Fin n × Bool) → List (JobQueue n × Fin n)
  | [] => tr
  | (t, push) :: rest =>
    match s.threadStep t push with
    | some s' => s'.scheduleTrace ((s, t) :: tr) rest
    | none => s.scheduleTrace tr rest

/-- All threads have returned. -/
def Finished (s : JobQueue n) : Prop := ∀ t, s.pc t = .returned

/-- Thread `t` is about to take the return branch. -/
def TakesReturn (s : JobQueue n) (t : Fin n) : Prop :=
  s.pc t = .readIdle ∧ s.idleCount = s.numthrs

instance (s : JobQueue n) (t : Fin n) : Decidable (s.TakesReturn t) :=
  inferInstanceAs (Decidable (_ ∧ _))

end JobQueue

/-! ## What a thread contributes -/

namespace ThreadPc

/-- The thread is counted in `m_idle_count`. -/
def counted : ThreadPc → Bool
  | innerPop | readIdle | decIdle _ | returned => true
  | _ => false

/-- The thread will look into the queue again before it counts itself idle. -/
def willPop : ThreadPc → Bool
  | enter | outerPop | held _ | running _ => true
  | _ => false

/-- The job that the thread has popped and whose `run` it has not yet called. -/
def holding : ThreadPc → Multiset Job
  | held job | decIdle job => {job}
  | _ => 0

/-- The thread is running a job, or holds one that it has popped but not yet run. -/
def working : ThreadPc → Bool
  | held _ | running _ | decIdle _ => true
  | _ => false

/-- The thread holds a job and has not yet taken back its idle count. -/
def atDecIdle : ThreadPc → Bool
  | decIdle _ => true
  | _ => false

/-- What a thread adds to `m_idle_count`. -/
def idleShare (p : ThreadPc) : ℤ := if p.counted then 1 else 0

theorem idleShare_nonneg (p : ThreadPc) : 0 ≤ p.idleShare := by
  unfold idleShare
  split <;> omega

theorem idleShare_le_one (p : ThreadPc) : p.idleShare ≤ 1 := by
  unfold idleShare
  split <;> omega

end ThreadPc

namespace JobQueue

variable {n : ℕ} {jobs : ℕ}

/-! ## The invariant -/

/-- What holds in every reachable state. -/
structure Invariant (s : JobQueue n) : Prop where
  /-- a thread behind its first statement has set `m_numthrs` -/
  numthrs_eq : ∀ t, s.pc t ≠ .enter → s.numthrs = n
  /-- the counter counts the threads that stand behind their increment -/
  idle_eq : s.idleCount = ∑ t, (s.pc t).idleShare
  /-- every job is in the queue, in the hands of a thread, or has been run -/
  jobs_eq : (s.queue : Multiset Job) + ∑ t, (s.pc t).holding + s.ran =
    Multiset.range s.enqueued
  /-- while the queue holds a job, some thread will look into it again -/
  popper : s.queue ≠ [] → ∃ t, (s.pc t).willPop = true

theorem initial_invariant (hn : 0 < n) {s : JobQueue n} (h : Initial jobs s) :
    Invariant s := by
  obtain ⟨hqueue, hidle, hpc, henq, hran⟩ := h
  refine ⟨fun t ht => absurd (hpc t) ht, ?_, ?_, fun _ => ⟨⟨0, hn⟩, ?_⟩⟩
  · simp [hidle, hpc, ThreadPc.idleShare, ThreadPc.counted]
  · simp [hqueue, hpc, ThreadPc.holding, henq, hran, Multiset.range]
  · rw [hpc]
    rfl

/-- Thread `t` moves from `s.pc t` to `p` while the rest of the state becomes that of `u`.
Each premise says what the move does to one component of the invariant. -/
theorem Invariant.move {s u : JobQueue n} (h : Invariant s) (t : Fin n) {p : ThreadPc}
    (hpc : u.pc = s.pc)
    (hnum : u.numthrs = n ∨ u.numthrs = s.numthrs ∧ s.pc t ≠ .enter)
    (hidle : u.idleCount + (s.pc t).idleShare = s.idleCount + p.idleShare)
    (hjobs : (u.queue : Multiset Job) + p.holding + u.ran + Multiset.range s.enqueued =
      (s.queue : Multiset Job) + (s.pc t).holding + s.ran + Multiset.range u.enqueued)
    (hpop : u.queue ≠ [] → p.willPop = true ∨
      s.queue ≠ [] ∧ (s.pc t).willPop = false) :
    Invariant (u.goto t p) := by
  have hsum := sum_update_add _ ThreadPc.idleShare s.pc (Finset.mem_univ t) p
  have hheld := sum_update_add _ ThreadPc.holding s.pc (Finset.mem_univ t) p
  refine ⟨fun v hv => ?_, ?_, ?_, fun hne => ?_⟩
  · change u.numthrs = n
    rcases hnum with hn | ⟨hn, hne⟩
    · exact hn
    · exact hn.trans (h.numthrs_eq t hne)
  · change u.idleCount = ∑ v, (Function.update u.pc t p v).idleShare
    rw [hpc]
    have := h.idle_eq
    omega
  · change (u.queue : Multiset Job) + ∑ v, (Function.update u.pc t p v).holding + u.ran =
      Multiset.range u.enqueued
    rw [hpc]
    -- both sides agree after adding what the premise and the exchange of summands say
    refine add_right_cancel (b := (s.pc t).holding + Multiset.range s.enqueued) ?_
    calc (u.queue : Multiset Job) + ∑ v, (Function.update s.pc t p v).holding + u.ran +
          ((s.pc t).holding + Multiset.range s.enqueued)
        = (u.queue + u.ran + Multiset.range s.enqueued) +
            ((∑ v, (Function.update s.pc t p v).holding) + (s.pc t).holding) := by abel
      _ = (u.queue + p.holding + u.ran + Multiset.range s.enqueued) +
            ∑ v, (s.pc v).holding := by rw [hheld]; abel
      _ = (s.queue + (∑ v, (s.pc v).holding) + s.ran) +
            ((s.pc t).holding + Multiset.range u.enqueued) := by rw [hjobs]; abel
      _ = Multiset.range u.enqueued + ((s.pc t).holding + Multiset.range s.enqueued) := by
          rw [h.jobs_eq]; abel
  · rcases hpop hne with hp | ⟨hs, ht⟩
    · -- thread `t` itself will pop
      exact ⟨t, by simpa [goto] using hp⟩
    · -- the thread that would have popped before is another one, and still will
      obtain ⟨v, hv⟩ := h.popper hs
      have hvt : v ≠ t := fun heq => by rw [heq, ht] at hv; exact absurd hv (by simp)
      exact ⟨v, by simpa [goto, Function.update_of_ne hvt, hpc] using hv⟩

/-- Popping keeps the invariant when the thread is counted alike before and after, and
leaves the set of threads that will pop only if it finds the queue empty. -/
theorem Invariant.tryPop {s : JobQueue n} (h : Invariant s) {t : Fin n}
    {got : Job → ThreadPc} {empty : ThreadPc} (hpc : s.pc t ≠ .enter)
    (hshare : ∀ job, (got job).idleShare = (s.pc t).idleShare)
    (hshare' : empty.idleShare = (s.pc t).idleShare)
    (hhold : (s.pc t).holding = 0) (hgot : ∀ job, (got job).holding = {job})
    (hempty : empty.holding = 0)
    (hpop : ∀ job, (got job).willPop = true ∨ (s.pc t).willPop = false) :
    Invariant (s.tryPop t got empty) := by
  rw [JobQueue.tryPop]
  cases hq : s.queue with
  | nil =>
    refine h.move t rfl (Or.inr ⟨rfl, hpc⟩) (by rw [hshare']) (by rw [hhold, hempty]) ?_
    exact fun hne => absurd hq hne
  | cons job rest =>
    refine h.move t rfl (Or.inr ⟨rfl, hpc⟩) (by rw [hshare]) ?_ fun _ => ?_
    · -- the job goes from the queue into the hands of the thread
      rw [hhold, hgot, hq, ← Multiset.cons_coe, ← Multiset.singleton_add]
      abel
    · exact (hpop job).imp id fun h => ⟨by simp [hq], h⟩

/-- A job that is pushed by a running job is the responsibility of the thread that runs. -/
theorem Invariant.enqueue {s : JobQueue n} (h : Invariant s) {t : Fin n}
    (ht : (s.pc t).willPop = true) : Invariant s.enqueue where
  numthrs_eq := h.numthrs_eq
  idle_eq := h.idle_eq
  jobs_eq := by
    change ((s.queue ++ [s.enqueued] : List Job) : Multiset Job) + ∑ t, (s.pc t).holding +
      s.ran = Multiset.range (s.enqueued + 1)
    rw [← Multiset.coe_add, Multiset.coe_singleton, Multiset.range_succ, ← h.jobs_eq,
      ← Multiset.singleton_add]
    abel
  popper _ := ⟨t, ht⟩

/-- Every step of a thread keeps the invariant. -/
theorem Invariant.step {s s' : JobQueue n} (h : Invariant s) {t : Fin n} {push : Bool}
    (hs : s.threadStep t push = some s') : Invariant s' := by
  rw [threadStep] at hs
  cases hp : s.pc t with
  | enter =>
    simp only [hp, Option.some_inj] at hs
    subst hs
    exact h.move t rfl (Or.inl rfl) (by rw [hp]; rfl) (by rw [hp]; rfl) fun _ => Or.inl rfl
  | outerPop =>
    simp only [hp, Option.some_inj] at hs
    subst hs
    exact h.tryPop (by simp [hp]) (fun _ => by rw [hp]; rfl) (by rw [hp]; rfl)
      (by rw [hp]; rfl) (fun _ => rfl) rfl fun _ => Or.inl rfl
  | held job =>
    simp only [hp, Option.some_inj] at hs
    subst hs
    -- the job that is held is now one that has been run
    refine h.move t rfl (Or.inr ⟨rfl, by simp [hp]⟩) (by rw [hp]; rfl) ?_ fun _ => Or.inl rfl
    rw [hp]
    change (s.queue : Multiset Job) + 0 + ((s.ran ++ [job] : List Job) : Multiset Job) +
      Multiset.range s.enqueued = s.queue + {job} + s.ran + Multiset.range s.enqueued
    rw [← Multiset.coe_add, Multiset.coe_singleton]
    abel
  | running job =>
    rw [hp] at hs
    cases push with
    | true =>
      simp only [if_true, Option.some_inj] at hs
      subst hs
      exact h.enqueue (by rw [hp]; rfl)
    | false =>
      simp only [Bool.false_eq_true, if_false, Option.some_inj] at hs
      subst hs
      exact h.move t rfl (Or.inr ⟨rfl, by simp [hp]⟩) (by rw [hp]; rfl) (by rw [hp]; rfl)
        fun _ => Or.inl rfl
  | incIdle =>
    simp only [hp, Option.some_inj] at hs
    subst hs
    -- the counter and the share of the thread go up together
    refine h.move t rfl (Or.inr ⟨rfl, by simp [hp]⟩) ?_ (by rw [hp]; rfl)
      fun hne => Or.inr ⟨hne, by rw [hp]; rfl⟩
    rw [hp]
    change s.idleCount + 1 + 0 = s.idleCount + 1
    omega
  | innerPop =>
    simp only [hp, Option.some_inj] at hs
    subst hs
    exact h.tryPop (by simp [hp]) (fun _ => by rw [hp]; rfl) (by rw [hp]; rfl)
      (by rw [hp]; rfl) (fun _ => rfl) rfl fun _ => Or.inr (by rw [hp]; rfl)
  | readIdle =>
    simp only [hp] at hs
    -- whether the thread returns or goes on polling, nothing else changes
    split at hs
    all_goals
      rw [Option.some_inj] at hs
      subst hs
      exact h.move t rfl (Or.inr ⟨rfl, by simp [hp]⟩) (by rw [hp]; rfl) (by rw [hp]; rfl)
        fun hne => Or.inr ⟨hne, by rw [hp]; rfl⟩
  | decIdle job =>
    simp only [hp, Option.some_inj] at hs
    subst hs
    -- the share of the thread had been counted while it held the job
    refine h.move t rfl (Or.inr ⟨rfl, by simp [hp]⟩) ?_ (by rw [hp]; rfl) fun _ => Or.inl rfl
    rw [hp]
    change s.idleCount - 1 + 1 = s.idleCount + 0
    omega
  | returned => simp [hp] at hs

theorem reachable_invariant (hn : 0 < n) {s : JobQueue n} (h : (system n jobs).Reachable s) :
    Invariant s :=
  h.invariant (P := Invariant) (fun _ hi => initial_invariant hn hi) fun _ _ _ _ ih hs => by
    obtain ⟨push, hs⟩ := hs
    exact ih.step hs

/-- The counter stays between zero and the number of threads. -/
theorem Invariant.idle_bounds {s : JobQueue n} (h : Invariant s) :
    0 ≤ s.idleCount ∧ s.idleCount ≤ n := by
  rw [h.idle_eq]
  refine ⟨Finset.sum_nonneg fun t _ => (s.pc t).idleShare_nonneg, ?_⟩
  calc ∑ t, (s.pc t).idleShare ≤ ∑ _t : Fin n, (1 : ℤ) :=
        Finset.sum_le_sum fun t _ => (s.pc t).idleShare_le_one
    _ = n := by simp

/-- A schedule continues a run. -/
theorem run_runSchedule {tr : List (JobQueue n × Fin n)} {s : JobQueue n}
    (h : (system n jobs).Run tr s) (acts : List (Fin n × Bool)) :
    (system n jobs).Run (s.scheduleTrace tr acts) (s.runSchedule acts) := by
  induction acts generalizing tr s with
  | nil => exact h
  | cons act rest ih =>
    obtain ⟨t, push⟩ := act
    rw [runSchedule, scheduleTrace]
    cases hs : s.threadStep t push with
    | none => exact ih h
    | some s' => exact ih (h.step (l := t) ⟨push, hs⟩)

/-- A schedule leads from a reachable state to a reachable one. -/
theorem reachable_runSchedule {s : JobQueue n} (h : (system n jobs).Reachable s)
    (acts : List (Fin n × Bool)) : (system n jobs).Reachable (s.runSchedule acts) := by
  obtain ⟨tr, hrun⟩ := h
  exact ⟨_, run_runSchedule hrun acts⟩

theorem reachable_start (n jobs : ℕ) : (system n jobs).Reachable (start n jobs) :=
  .start ⟨rfl, rfl, fun _ => rfl, rfl, rfl⟩

/-- When all threads have returned, the jobs that have been run are those that were
enqueued. -/
theorem Invariant.ran_perm {s : JobQueue n} (h : Invariant s) (hfin : s.Finished) :
    s.queue = [] ∧ s.ran.Perm (List.range s.enqueued) := by
  -- a job in the queue would have a thread that is going to pop it
  have hqueue : s.queue = [] := by
    by_contra hne
    obtain ⟨t, ht⟩ := h.popper hne
    rw [hfin t] at ht
    cases ht
  have hholding : ∑ t, (s.pc t).holding = 0 :=
    Finset.sum_eq_zero fun t _ => by rw [hfin t]; rfl
  have hjobs := h.jobs_eq
  rw [hqueue, hholding, Multiset.coe_nil, zero_add, zero_add] at hjobs
  exact ⟨hqueue, Multiset.coe_eq_coe.mp hjobs⟩

/-- Thread 1 is counted idle when thread 0 runs the first job, which pushes a second one.
Thread 1 pops that one, takes its count back and runs it; then both threads find the queue
empty, count themselves and return. -/
def handOver : List (Fin 2 × Bool) :=
  [(0, false), (1, false), (0, false), (0, false), (1, false), (1, false), (0, true),
    (1, false), (1, false), (1, false), (0, false), (0, false), (0, false), (1, false),
    (1, false), (1, false), (0, false), (0, false), (1, false), (1, false)]

end JobQueue

/-! ## No job is lost or run twice -/

/-- When all threads have returned, the queue is empty and every job ever enqueued has been
run exactly once; and the idle counter always counts threads. -/
theorem noJobLost {n jobs : ℕ} (hn : 0 < n) {s : JobQueue n}
    (h : (JobQueue.system n jobs).Reachable s) :
    (s.Finished → s.queue = [] ∧ ∀ job, s.ran.count job = if job < s.enqueued then 1 else 0) ∧
      0 ≤ s.idleCount ∧ s.idleCount ≤ n := by
  have hinv := JobQueue.reachable_invariant hn h
  refine ⟨fun hfin => ?_, hinv.idle_bounds⟩
  obtain ⟨hqueue, hran⟩ := hinv.ran_perm hfin
  refine ⟨hqueue, fun job => ?_⟩
  rw [hran.count_eq, List.nodup_range.count]
  simp only [List.mem_range]

/-- Two threads run two jobs and return. -/
theorem noJobLost_handOver :
    ((JobQueue.start 2 1).runSchedule JobQueue.handOver).ran.count 1 = 1 :=
  ((noJobLost (by decide) (JobQueue.reachable_runSchedule (JobQueue.reachable_start 2 1) _)).1
    (by unfold JobQueue.Finished; decide)).2 1

/-! ## Workers that leave -/

namespace JobQueue

variable {n : ℕ} {jobs : ℕ}

/-- Nothing is left to do but for thread `t`: the queue is empty and no other thread is
running a job or holds one that it has not yet run. -/
def Quiescent (s : JobQueue n) (t : Fin n) : Prop :=
  s.queue = [] ∧ ∀ u, u ≠ t → (s.pc u).working = false

instance (s : JobQueue n) (t : Fin n) : Decidable (s.Quiescent t) :=
  inferInstanceAs (Decidable (_ ∧ _))

/-- No thread but `t` has popped a job in the inner loop and still has to take back its idle
count. -/
def NoneAtDecIdle (s : JobQueue n) (t : Fin n) : Prop :=
  ∀ u, u ≠ t → (s.pc u).atDecIdle = false

instance (s : JobQueue n) (t : Fin n) : Decidable (s.NoneAtDecIdle t) :=
  inferInstanceAs (Decidable (∀ _, _ → _))

/-- At the return branch every thread is counted. -/
theorem Invariant.counted_of_takesReturn {s : JobQueue n} (h : Invariant s) {t : Fin n}
    (ht : s.TakesReturn t) (u : Fin n) : (s.pc u).counted = true := by
  obtain ⟨hpc, hidle⟩ := ht
  have hsum : ∑ v, (s.pc v).idleShare = ∑ _v : Fin n, (1 : ℤ) := by
    rw [← h.idle_eq, hidle, h.numthrs_eq t (by simp [hpc])]
    simp
  have hone := (Finset.sum_eq_sum_iff_of_le fun v _ => (s.pc v).idleShare_le_one).mp hsum u
    (Finset.mem_univ u)
  by_contra hne
  simp [ThreadPc.idleShare, hne] at hone

/-- At the return branch the queue is empty. -/
theorem Invariant.queue_of_takesReturn {s : JobQueue n} (h : Invariant s) {t : Fin n}
    (ht : s.TakesReturn t) : s.queue = [] := by
  by_contra hne
  obtain ⟨u, hu⟩ := h.popper hne
  have hcounted := h.counted_of_takesReturn ht u
  cases hp : s.pc u <;> simp [hp, ThreadPc.willPop, ThreadPc.counted] at hu hcounted

/-- A thread that takes the return branch leaves nothing behind exactly when no other thread
stands between its successful `try_pop` and `--m_idle_count`. -/
theorem Invariant.quiescent_iff {s : JobQueue n} (h : Invariant s) {t : Fin n}
    (ht : s.TakesReturn t) : s.Quiescent t ↔ s.NoneAtDecIdle t := by
  rw [Quiescent, and_iff_right (h.queue_of_takesReturn ht), NoneAtDecIdle]
  refine forall₂_congr fun u _ => ?_
  have hcounted := h.counted_of_takesReturn ht u
  cases hp : s.pc u <;>
    simp [hp, ThreadPc.working, ThreadPc.atDecIdle, ThreadPc.counted] at hcounted ⊢

end JobQueue

/-- In every run, each worker that leaves does so in a quiescent state if and only if each
leaves while no other thread stands between its successful `try_pop` and
`--m_idle_count`. -/
theorem workersLeaveQuiescent_iff {n jobs : ℕ} (hn : 0 < n)
    {tr : List (JobQueue n × Fin n)} {s : JobQueue n}
    (h : (JobQueue.system n jobs).Run tr s) :
    (∀ u t, (u, t) ∈ tr → u.TakesReturn t → u.Quiescent t) ↔
      ∀ u t, (u, t) ∈ tr → u.TakesReturn t → u.NoneAtDecIdle t := by
  refine forall₂_congr fun u t => forall₂_congr fun hmem ht => ?_
  exact (JobQueue.reachable_invariant hn (h.reachable_of_mem hmem)).quiescent_iff ht

/-- Where the idle thread takes its count back in time, both threads leave in quiescent
states. -/
theorem workersLeaveQuiescent_handOver :
    ∃ tr, (JobQueue.system 2 1).Run tr ((JobQueue.start 2 1).runSchedule JobQueue.handOver) ∧
      (∀ t, ∃ u, (u, t) ∈ tr ∧ u.TakesReturn t) ∧
      ∀ u t, (u, t) ∈ tr → u.TakesReturn t → u.Quiescent t := by
  have hstart : (JobQueue.system 2 1).Run [] (.start 2 1) :=
    .start ⟨rfl, rfl, fun _ => rfl, rfl, rfl⟩
  have hrun := JobQueue.run_runSchedule hstart JobQueue.handOver
  have hleave : ∀ t, ∃ p ∈ (JobQueue.start 2 1).scheduleTrace [] JobQueue.handOver,
      p.2 = t ∧ p.1.TakesReturn p.2 := by decide
  have htime : ∀ p ∈ (JobQueue.start 2 1).scheduleTrace [] JobQueue.handOver,
      p.1.TakesReturn p.2 → p.1.NoneAtDecIdle p.2 := by decide
  refine ⟨_, hrun, fun t => ?_, ?_⟩
  · obtain ⟨⟨u, _⟩, hmem, rfl, hret⟩ := hleave t
    exact ⟨u, hmem, hret⟩
  · exact (workersLeaveQuiescent_iff (by decide) hrun).mpr fun u t hmem => htime (u, t) hmem

/-- Thread 0 runs the first job, which pushes a second one.  Thread 1 pops that one while it
is counted idle, and thread 0 finds the queue empty before thread 1 takes its count back. -/
def earlyLeave : List (Fin 2 × Bool) :=
  [(0, false), (1, false), (0, false), (0, false), (1, false), (1, false), (0, true),
    (1, false), (0, false), (0, false), (0, false), (0, false)]

/-- Thread 0 leaves although thread 1 holds a job. -/
theorem worker_leaves_early :
    ∃ s, (JobQueue.system 2 1).Reachable s ∧ s.TakesReturn 0 ∧ ¬ s.Quiescent 0 :=
  ⟨(JobQueue.start 2 1).runSchedule earlyLeave,
    JobQueue.reachable_runSchedule (JobQueue.reachable_start 2 1) _, by decide, by decide⟩

end StringSampleSort
