import StringSampleSort.Library.FairRun
import StringSampleSort.Tools.JobQueue

/-!
# The loop of the job queue ends

A thread that finds no job polls: it looks at the queue and at the idle counter in turns.  How often
it does so depends on the others.  All other steps are paid for, a number of them by each thread and
by each job, so that a run with finitely many jobs consists of polls in the end.  When no thread
does anything but poll, all of them are counted as idle, and the next one that looks at the counter
returns.

## Main results

- `JobQueue.busySteps_le`: how many steps the threads take at most without their polls
- `JobQueue.loop_ends`: when all threads take turns and no more jobs are pushed in the end, all
  threads return and have run all jobs
-/

namespace StringSampleSort

open Library

namespace ThreadPc

/-- How many steps a thread takes at most until it polls or has returned, if it gets no job. -/
def rank : ThreadPc → ℕ
  | returned => 0
  | innerPop | readIdle => 1
  | incIdle => 2
  | outerPop => 3
  | enter | running _ => 4
  | held _ => 5
  | decIdle _ => 6

end ThreadPc

namespace JobQueue

variable {n jobs : ℕ} {s s' : JobQueue n} {t : Fin n} {push : Bool}

/-! ## Polls -/

/-- Thread `t` is about to look for a job, or whether all threads are idle, in vain. -/
def Polls (s : JobQueue n) (t : Fin n) : Prop :=
  s.pc t = .innerPop ∧ s.queue = [] ∨ s.pc t = .readIdle ∧ s.idleCount ≠ s.numthrs

instance (s : JobQueue n) (t : Fin n) : Decidable (s.Polls t) :=
  inferInstanceAs (Decidable (_ ∨ _))

/-- The steps that the threads and the jobs in the queue have to take. -/
def rank (s : JobQueue n) : ℕ := ∑ t, (s.pc t).rank + 6 * s.queue.length

/-- One thread moves, the queue is that of `u`. -/
theorem rank_goto {u : JobQueue n} (hpc : u.pc = s.pc) (p : ThreadPc) :
    (u.goto t p).rank + (s.pc t).rank + 6 * s.queue.length =
      s.rank + p.rank + 6 * u.queue.length := by
  have hsum := sum_update_add _ ThreadPc.rank s.pc (Finset.mem_univ t) p
  have hrank : (u.goto t p).rank =
      ∑ v, (Function.update s.pc t p v).rank + 6 * u.queue.length := by
    unfold rank goto
    rw [hpc]
  rw [hrank]
  unfold rank
  omega

/-- A thread that looks for a job either takes one, which pays for running it, or finds the queue
empty. -/
theorem rank_tryPop (t : Fin n) (got : Job → ThreadPc) (empty : ThreadPc) :
    (∃ job rest, s.queue = job :: rest ∧
        (s.tryPop t got empty).rank + (s.pc t).rank + 6 = s.rank + (got job).rank) ∨
      s.queue = [] ∧ (s.tryPop t got empty).rank + (s.pc t).rank = s.rank + empty.rank := by
  unfold tryPop
  cases hqueue : s.queue with
  | nil =>
    refine Or.inr ⟨rfl, ?_⟩
    have hrank := rank_goto (s := s) (u := s) (t := t) rfl empty
    exact Nat.add_right_cancel (hrank.trans (by rw [hqueue]))
  | cons job rest =>
    refine Or.inl ⟨job, rest, rfl, ?_⟩
    have hrank := rank_goto (s := s) (u := { s with queue := rest }) (t := t) rfl (got job)
    rw [hqueue, List.length_cons] at hrank
    dsimp only at hrank ⊢
    omega

/-- What a poll and what another step pays, where a job that is pushed brings seven. -/
theorem threadStep_rank (hs : s.threadStep t push = some s') :
    s'.rank + (if s.Polls t then 0 else 1) + 7 * s.enqueued ≤ s.rank + 7 * s'.enqueued := by
  -- a thread that moves, while the queue stays
  have hgoto : ∀ (u : JobQueue n) p, u.pc = s.pc → u.queue = s.queue →
      (u.goto t p).rank + (s.pc t).rank = s.rank + p.rank := by
    intro u p hpc hqueue
    have hrank := rank_goto (t := t) hpc p
    rw [hqueue] at hrank
    omega
  -- a thread that comes closer to its next poll
  have hmove : ∀ (u : JobQueue n) p, u.pc = s.pc → u.queue = s.queue → u.enqueued = s.enqueued →
      p.rank < (s.pc t).rank →
      (u.goto t p).rank + (if s.Polls t then 0 else 1) + 7 * s.enqueued ≤
        s.rank + 7 * (u.goto t p).enqueued := by
    intro u p hpc hqueue henq hlt
    have hrank := hgoto u p hpc hqueue
    have hkept : (u.goto t p).enqueued = s.enqueued := henq
    rw [hkept]
    split <;> omega
  unfold threadStep at hs
  cases hp : s.pc t with
  | enter =>
    simp only [hp, Option.some_inj] at hs
    subst hs
    exact hmove { s with numthrs := n } .outerPop rfl rfl rfl (by simp [hp, ThreadPc.rank])
  | outerPop =>
    simp only [hp, Option.some_inj] at hs
    subst hs
    have hkept : (s.tryPop t .held .incIdle).enqueued = s.enqueued := by
      unfold tryPop
      split <;> rfl
    rw [hkept]
    rcases rank_tryPop (s := s) t .held .incIdle with ⟨job, rest, -, hrank⟩ | ⟨-, hrank⟩
    · simp only [hp, ThreadPc.rank] at hrank
      split <;> omega
    · simp only [hp, ThreadPc.rank] at hrank
      split <;> omega
  | held job =>
    simp only [hp, Option.some_inj] at hs
    subst hs
    exact hmove { s with ran := s.ran ++ [job] } (.running job) rfl rfl rfl
      (by simp [hp, ThreadPc.rank])
  | running job =>
    simp only [hp] at hs
    cases push with
    | true =>
      simp only [if_true, Option.some_inj] at hs
      subst hs
      have hrank : s.enqueue.rank = s.rank + 6 := by
        unfold rank enqueue
        rw [List.length_append, List.length_singleton, Nat.mul_add, ← Nat.add_assoc]
      have henq : s.enqueue.enqueued = s.enqueued + 1 := rfl
      rw [hrank, henq]
      split <;> omega
    | false =>
      simp only [Bool.false_eq_true, if_false, Option.some_inj] at hs
      subst hs
      exact hmove s .outerPop rfl rfl rfl (by simp [hp, ThreadPc.rank])
  | incIdle =>
    simp only [hp, Option.some_inj] at hs
    subst hs
    exact hmove { s with idleCount := s.idleCount + 1 } .innerPop rfl rfl rfl
      (by simp [hp, ThreadPc.rank])
  | innerPop =>
    simp only [hp, Option.some_inj] at hs
    subst hs
    have hkept : (s.tryPop t .decIdle .readIdle).enqueued = s.enqueued := by
      unfold tryPop
      split <;> rfl
    rw [hkept]
    rcases rank_tryPop (s := s) t .decIdle .readIdle with ⟨job, rest, -, hrank⟩ | ⟨hqueue, hrank⟩
    · simp only [hp, ThreadPc.rank] at hrank
      split <;> omega
    · -- nothing to do is a poll
      have hpolls : s.Polls t := Or.inl ⟨hp, hqueue⟩
      rw [if_pos hpolls]
      simp only [hp, ThreadPc.rank] at hrank
      omega
  | readIdle =>
    simp only [hp] at hs
    split at hs
    · obtain rfl := Option.some_inj.mp hs
      exact hmove s .returned rfl rfl rfl (by simp [hp, ThreadPc.rank])
    · next hne =>
      obtain rfl := Option.some_inj.mp hs
      have hpolls : s.Polls t := Or.inr ⟨hp, hne⟩
      rw [if_pos hpolls]
      have hrank := hgoto s .innerPop rfl rfl
      simp only [hp, ThreadPc.rank] at hrank
      have hkept : (s.goto t .innerPop).enqueued = s.enqueued := rfl
      omega
  | decIdle job =>
    simp only [hp, Option.some_inj] at hs
    subst hs
    exact hmove { s with idleCount := s.idleCount - 1 } (.held job) rfl rfl rfl
      (by simp [hp, ThreadPc.rank])
  | returned =>
    simp only [hp] at hs
    cases hs

/-- In every run, whatever the order of the threads, the steps that are not polls are bounded by the
number of threads and of jobs. -/
theorem busySteps_le {tr : List (JobQueue n × Fin n)} (h : (system n jobs).Run tr s) :
    (tr.filter fun a => ¬ a.1.Polls a.2).length ≤ 4 * n + 7 * s.enqueued := by
  suffices hrank : (tr.filter fun a => ¬ a.1.Polls a.2).length + s.rank ≤ 4 * n + 7 * s.enqueued by
    exact (Nat.le_add_right _ _).trans hrank
  induction h with
  | @start s hinit =>
    obtain ⟨hqueue, -, hpc, henq, -⟩ := hinit
    have hsum : ∑ t, (s.pc t).rank = n * 4 := by
      simp [hpc, ThreadPc.rank]
    unfold rank
    rw [hsum, hqueue, henq, List.length_range, List.filter_nil, List.length_nil]
    omega
  | @step tr s s' t hrun hs ih =>
    obtain ⟨push, hs⟩ := hs
    have hpays := threadStep_rank hs
    rw [List.filter_cons]
    by_cases hpolls : s.Polls t
    · rw [if_neg (by simpa using hpolls)]
      rw [if_pos hpolls] at hpays
      omega
    · rw [if_pos (by simpa using hpolls), List.length_cons]
      rw [if_neg hpolls] at hpays
      omega

/-- Two threads run a job and the one that it pushes. -/
theorem busySteps_le_earlyLeave : ∃ tr, (system 2 1).Run tr ((start 2 1).runSchedule earlyLeave) ∧
    (tr.filter fun a => ¬ a.1.Polls a.2).length ≤ 4 * 2 + 7 * 2 := by
  obtain ⟨tr, hrun⟩ := reachable_runSchedule (reachable_start 2 1) earlyLeave
  exact ⟨tr, hrun, busySteps_le hrun⟩

/-! ## Fair runs -/

/-- A step does not move the other threads. -/
theorem threadStep_pc (hs : s.threadStep t push = some s') {u : Fin n} (hu : u ≠ t) :
    s'.pc u = s.pc u := by
  have hgoto : ∀ (v : JobQueue n) p, v.pc = s.pc → (v.goto t p).pc u = s.pc u := by
    intro v p hpc
    unfold goto
    rw [hpc]
    exact Function.update_of_ne hu p s.pc
  have hpop : ∀ got empty, (s.tryPop t got empty).pc u = s.pc u := by
    intro got empty
    unfold tryPop
    split
    · exact hgoto s _ rfl
    · exact hgoto _ _ rfl
  unfold threadStep at hs
  cases hp : s.pc t with
  | enter | held | incIdle | decIdle =>
    simp only [hp, Option.some_inj] at hs
    subst hs
    exact hgoto _ _ rfl
  | outerPop | innerPop =>
    simp only [hp, Option.some_inj] at hs
    subst hs
    exact hpop _ _
  | running job =>
    simp only [hp] at hs
    split at hs
    · obtain rfl := Option.some_inj.mp hs
      rfl
    · obtain rfl := Option.some_inj.mp hs
      exact hgoto _ _ rfl
  | readIdle =>
    simp only [hp] at hs
    split at hs
    · obtain rfl := Option.some_inj.mp hs
      exact hgoto _ _ rfl
    · obtain rfl := Option.some_inj.mp hs
      exact hgoto _ _ rfl
  | returned =>
    simp only [hp] at hs
    cases hs

/-- A thread that has polled the queue polls the counter next. -/
theorem Polls.readIdle (h : s.Polls t) (hp : s.pc t = .innerPop)
    (hs : s.threadStep t push = some s') : s'.pc t = .readIdle := by
  rcases h with ⟨-, hqueue⟩ | ⟨hread, -⟩
  · simp only [threadStep, hp, tryPop, hqueue, Option.some_inj] at hs
    subst hs
    exact Function.update_self t _ _
  · rw [hp] at hread
    cases hread

/-- A thread that cannot go on has returned. -/
theorem threadStep_eq_none_iff : s.threadStep t push = none ↔ s.pc t = .returned := by
  unfold threadStep
  cases hp : s.pc t with
  | returned => simp
  | readIdle =>
    dsimp only
    split <;> simp
  | running job =>
    dsimp only
    split <;> simp
  | _ => simp

theorem returned_of_stuck (h : ∀ s', ¬ (system n jobs).step s t s') : s.pc t = .returned :=
  threadStep_eq_none_iff.mp <| Option.eq_none_iff_forall_ne_some.mpr fun s' hs => h s' ⟨false, hs⟩

/-- When all threads are counted, the counter has the value that they look for. -/
theorem Invariant.idleCount_eq (h : Invariant s) (hcounted : ∀ u, (s.pc u).counted = true)
    (t : Fin n) : s.idleCount = s.numthrs := by
  have hsum : ∑ u, (s.pc u).idleShare = n := by
    simp [ThreadPc.idleShare, hcounted]
  have hnum : s.numthrs = n := by
    apply h.numthrs_eq t
    intro henter
    have ht := hcounted t
    rw [henter] at ht
    cases ht
  rw [h.idle_eq, hsum, hnum]

section Fair

variable (r : FairRun (system n jobs)) {bound : ℕ}

/-- In a run with finitely many jobs, threads do nothing but poll in the end. -/
theorem eventually_polls (hbound : ∀ k, (r.state k).enqueued ≤ bound) :
    ∃ K, ∀ k ≥ K, (r.state k).Polls (r.scheduled k) ∨
      (r.state k).pc (r.scheduled k) = .returned := by
  -- the jobs that will be pushed are paid for
  have hpays : ∀ k push, (r.state k).threadStep (r.scheduled k) push = some (r.state (k + 1)) →
      (r.state (k + 1)).rank + 7 * (bound - (r.state (k + 1)).enqueued) +
          (if (r.state k).Polls (r.scheduled k) then 0 else 1) ≤
        (r.state k).rank + 7 * (bound - (r.state k).enqueued) := by
    intro k push hs
    have hrank := threadStep_rank hs
    have hle := hbound k
    have hle' := hbound (k + 1)
    omega
  obtain ⟨K, hK⟩ := r.eventually_const (fun s => s.rank + 7 * (bound - s.enqueued)) <| by
    intro k
    rcases r.step k with ⟨push, hs⟩ | ⟨heq, -⟩
    · exact (Nat.le_add_right _ _).trans (hpays k push hs)
    · rw [heq]
  refine ⟨K, fun k hk => ?_⟩
  rcases r.step k with ⟨push, hs⟩ | ⟨-, hstuck⟩
  · by_contra hne
    have hlt := hpays k push hs
    rw [if_neg (not_or.mp hne).1] at hlt
    have hnow := hK k hk
    have hnext := hK (k + 1) (Nat.le_succ_of_le hk)
    omega
  · exact Or.inr (returned_of_stuck hstuck)

/-- A thread is found at the same place when it is scheduled next. -/
theorem exists_scheduled (t : Fin n) (k : ℕ) :
    ∃ k' ≥ k, r.scheduled k' = t ∧ (r.state k').pc t = (r.state k).pc t := by
  refine r.exists_next (fun s => s.pc t) t (fun k _ hne => ?_) (le_refl k)
  rcases r.step k with ⟨push, hs⟩ | ⟨heq, -⟩
  · exact threadStep_pc hs hne.symm
  · rw [heq]

/-- The loop ends.  When all threads take turns, and the jobs push finitely many jobs altogether,
then all threads return, the queue is empty, and each job has been run once. -/
theorem loop_ends (hn : 0 < n) (hbound : ∀ k, (r.state k).enqueued ≤ bound) :
    ∃ K, ∀ k ≥ K, (r.state k).Finished ∧ (r.state k).queue = [] ∧
      (r.state k).ran.Perm (List.range (r.state k).enqueued) := by
  have hinv : ∀ k, Invariant (r.state k) := fun k => reachable_invariant hn (r.reachable k)
  obtain ⟨K, hpolls⟩ := eventually_polls r hbound
  -- what a thread does next, it does at once
  have hplace : ∀ k ≥ K, ∀ t, ∃ k' ≥ k, r.scheduled k' = t ∧
      (r.state k').pc t = (r.state k).pc t ∧
      ((r.state k').Polls t ∨ (r.state k).pc t = .returned) := by
    intro k hk t
    obtain ⟨k', hk', ht, hpc⟩ := exists_scheduled r t k
    refine ⟨k', hk', ht, hpc, ?_⟩
    have hnow := hpolls k' (hk.trans hk')
    rwa [ht, hpc] at hnow
  have hcounted : ∀ k ≥ K, ∀ t, ((r.state k).pc t).counted = true := by
    intro k hk t
    obtain ⟨k', -, -, hpc, hnow⟩ := hplace k hk t
    rcases hnow with (⟨hpop, -⟩ | ⟨hread, -⟩) | hret
    · rw [← hpc, hpop]
      rfl
    · rw [← hpc, hread]
      rfl
    · rw [hret]
      rfl
  -- so a thread does not look at the counter in vain
  have hread : ∀ k ≥ K, ∀ t, (r.state k).pc t ≠ .readIdle := by
    intro k hk t hpc
    obtain ⟨k', hk', -, hpc', hnow⟩ := hplace k hk t
    rcases hnow with (⟨hpop, -⟩ | ⟨-, hne⟩) | hret
    · rw [hpc', hpc] at hpop
      cases hpop
    · exact hne ((hinv k').idleCount_eq (hcounted k' (hk.trans hk')) t)
    · rw [hpc] at hret
      cases hret
  refine ⟨K, fun k hk => ?_⟩
  have hfin : (r.state k).Finished := by
    intro t
    obtain ⟨k', hk', ht, hpc, hnow⟩ := hplace k hk t
    rcases hnow with hpoll | hret
    · have hpop : (r.state k').pc t = .innerPop := by
        rcases hpoll with ⟨hpop, -⟩ | ⟨hpc', -⟩
        · exact hpop
        · exact absurd hpc' (hread k' (hk.trans hk') t)
      rcases r.step k' with ⟨push, hs⟩ | ⟨-, hstuck⟩
      · rw [ht] at hs
        exact absurd (hpoll.readIdle hpop hs)
          (hread (k' + 1) ((hk.trans hk').trans (Nat.le_succ k')) t)
      · rw [ht] at hstuck
        rw [returned_of_stuck hstuck] at hpop
        cases hpop
    · exact hret
  exact ⟨hfin, (hinv k).ran_perm hfin⟩

end Fair

/-! ## Threads that take turns -/

/-- A step in which no job is pushed. -/
theorem threadStep_enqueued (hs : s.threadStep t false = some s') :
    s'.enqueued = s.enqueued := by
  have hpop : ∀ got empty, (s.tryPop t got empty).enqueued = s.enqueued := by
    intro got empty
    unfold tryPop
    split <;> rfl
  unfold threadStep at hs
  cases hp : s.pc t with
  | outerPop | innerPop =>
    simp only [hp, Option.some_inj] at hs
    subst hs
    exact hpop _ _
  | readIdle =>
    simp only [hp] at hs
    split at hs
    · obtain rfl := Option.some_inj.mp hs
      rfl
    · obtain rfl := Option.some_inj.mp hs
      rfl
  | returned =>
    simp only [hp] at hs
    cases hs
  | _ =>
    simp only [hp, Bool.false_eq_true, if_false, Option.some_inj] at hs
    subst hs
    rfl

/-- The threads take one step after the other, and no job pushes another one. -/
def roundRobin (n jobs : ℕ) [NeZero n] : FairRun (system n jobs) :=
  .ofSchedule (fun s t => s.threadStep t false) (fun _ _ _ hs => ⟨false, hs⟩)
    (fun _ _ hnone _ ⟨_, hs⟩ => by
      rw [threadStep_eq_none_iff.mpr (threadStep_eq_none_iff.mp hnone)] at hs
      cases hs)
    (start n jobs) ⟨rfl, rfl, fun _ => rfl, rfl, rfl⟩ (Fin.ofNat n) fun t k => by
      have hpos := NeZero.pos n
      refine ⟨n * k + t, (Nat.le_mul_of_pos_left k hpos).trans (Nat.le_add_right _ _), ?_⟩
      apply Fin.ext
      rw [Fin.val_ofNat, Nat.mul_add_mod, Nat.mod_eq_of_lt t.isLt]

theorem roundRobin_enqueued (n jobs : ℕ) [NeZero n] (k : ℕ) :
    ((roundRobin n jobs).state k).enqueued = jobs := by
  induction k with
  | zero => rfl
  | succ k ih =>
    have hstep : (roundRobin n jobs).state (k + 1) =
        (((roundRobin n jobs).state k).threadStep (Fin.ofNat n k) false).getD
          ((roundRobin n jobs).state k) := rfl
    rw [hstep]
    cases hs : ((roundRobin n jobs).state k).threadStep (Fin.ofNat n k) false with
    | none => exact ih
    | some s' => exact (threadStep_enqueued hs).trans ih

/-- Two threads that take turns run three jobs. -/
theorem loop_ends_roundRobin : ∃ K, ∀ k ≥ K, ((roundRobin 2 3).state k).Finished ∧
    ((roundRobin 2 3).state k).queue = [] ∧ ((roundRobin 2 3).state k).ran.Perm
      (List.range ((roundRobin 2 3).state k).enqueued) :=
  loop_ends (roundRobin 2 3) (by decide) fun k => (roundRobin_enqueued 2 3 k).le

end JobQueue

end StringSampleSort
