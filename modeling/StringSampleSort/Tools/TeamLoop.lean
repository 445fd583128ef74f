import StringSampleSort.Tbb.Destroy
import StringSampleSort.Tools.JobQueue
import Mathlib.Data.Fintype.Option

/-!
# The job loop on the concurrent queue

Model of `JobQueueT::loop` of `src/tools/jobqueue.hpp` as a client of the concurrent queue:
the main thread enqueues the first jobs and starts the team, and every thread of the team
executes `executeThreadWork`.  Here `enqueue` and `try_pop` are calls, between whose
beginning and end the other threads go on.  Jobs are pointers: nothing keeps two of them from
being equal.

With the queue taken to be atomic, the loop is simulated by `JobQueue`, in which a call of
the queue is one step, and jobs are numbered in the order in which they get into the queue.

## Main results

- `TeamLoop.simulation`: the loop on the atomic queue is simulated by `JobQueue`
- `TeamLoop.runs_exactlyOnce`: the loop on the concurrent queue runs every job exactly once
-/

namespace StringSampleSort

open Library

/-! ## Model -/

/-- Program points of `executeThreadWork`, and of a job that enqueues another one. -/
inductive WorkPc (α : Type*) where
  /-- before `m_numthrs = omp_get_num_threads()` -/
  | enter
  /-- at the `try_pop` of the outer loop -/
  | outerPop
  /-- inside it -/
  | outerCall
  /-- the job is popped and `run` not yet called -/
  | held (job : α)
  /-- inside `job->run` -/
  | running (job : α)
  /-- inside an `enqueue` of `job->run` -/
  | enqueuing (job : α)
  /-- at `++m_idle_count` -/
  | incIdle
  /-- at the `try_pop` of the inner loop -/
  | innerPop
  /-- inside it -/
  | innerCall
  /-- at the test `m_idle_count == m_numthrs` -/
  | readIdle
  /-- at `--m_idle_count` -/
  | decIdle (job : α)
  | returned
  deriving DecidableEq

/-- The main thread. -/
inductive MainPc where
  /-- has `jobs` more jobs to enqueue before `loop()` -/
  | setup (jobs : ℕ)
  /-- inside `enqueue`, and has `jobs` more jobs to enqueue behind it -/
  | setupCall (jobs : ℕ)
  /-- inside the parallel region of `loop()` -/
  | loop
  deriving DecidableEq

/-- A `JobQueueT` without its `m_queue`, and the threads: `n` of the team, and the main
thread. -/
structure TeamLoop (n : ℕ) (α : Type*) where
  /-- `m_numthrs` -/
  numthrs : ℕ
  /-- `m_idle_count` -/
  idleCount : ℤ
  main : MainPc
  pc : Fin n → WorkPc α
  /-- the jobs with which `enqueue` has been called -/
  enqueued : List α
  /-- the jobs whose `run` has been called -/
  ran : List α

namespace TeamLoop

variable {n : ℕ} {α : Type*}

/-- Thread `t` moves to another program point. -/
def goto (s : TeamLoop n α) (t : Fin n) (p : WorkPc α) : TeamLoop n α :=
  { s with pc := Function.update s.pc t p }

/-- Thread `t` calls an operation of the queue. -/
def call (s : TeamLoop n α) (t : Fin n) : Tbb.Op α → Option (TeamLoop n α)
  | .tryPop =>
    match s.pc t with
    | .outerPop => some (s.goto t .outerCall)
    | .innerPop => some (s.goto t .innerCall)
    | _ => none
  | .push job' =>
    match s.pc t with
    | .running job => some ({ s with enqueued := s.enqueued ++ [job'] }.goto t (.enqueuing job))
    | _ => none
  | .empty => none

/-- The queue returns to thread `t`. -/
def ret (s : TeamLoop n α) (t : Fin n) : Tbb.Result α → Option (TeamLoop n α)
  | .popped dst =>
    match s.pc t, dst with
    | .outerCall, some job => some (s.goto t (.held job))
    -- no more jobs -> switch to idle
    | .outerCall, none => some (s.goto t .incIdle)
    | .innerCall, some job => some (s.goto t (.decIdle job))
    | .innerCall, none => some (s.goto t .readIdle)
    | _, _ => none
  | .pushed =>
    match s.pc t with
    | .enqueuing job => some (s.goto t (.running job))
    | _ => none
  | .isEmpty _ => none

/-- A step of thread `t` outside of the queue.  For a running job it is the return of
`run`. -/
def threadStep (s : TeamLoop n α) (t : Fin n) : Option (TeamLoop n α) :=
  match s.pc t with
  | .enter =>
    if s.main = .loop then some ({ s with numthrs := n }.goto t .outerPop) else none
  | .held job => some ({ s with ran := s.ran ++ [job] }.goto t (.running job))
  | .running _ => some (s.goto t .outerPop)
  | .incIdle => some ({ s with idleCount := s.idleCount + 1 }.goto t .innerPop)
  | .readIdle =>
    if s.idleCount = s.numthrs then some (s.goto t .returned) else some (s.goto t .innerPop)
  -- got a new job -> not idle anymore
  | .decIdle job => some ({ s with idleCount := s.idleCount - 1 }.goto t (.held job))
  | _ => none

/-- `enqueue` by the main thread. -/
def mainCall (s : TeamLoop n α) : Tbb.Op α → Option (TeamLoop n α)
  | .push job =>
    match s.main with
    | .setup (jobs + 1) =>
      some { s with enqueued := s.enqueued ++ [job], main := .setupCall jobs }
    | _ => none
  | _ => none

def mainRet (s : TeamLoop n α) : Tbb.Result α → Option (TeamLoop n α)
  | .pushed =>
    match s.main with
    | .setupCall jobs => some { s with main := .setup jobs }
    | _ => none
  | _ => none

/-- `loop()` sets the counter to zero and starts the team. -/
def mainStep (s : TeamLoop n α) : Option (TeamLoop n α) :=
  match s.main with
  | .setup 0 => some { s with idleCount := 0, main := .loop }
  | _ => none

/-- A call or a return of the queue, the start of the team, or another step of a thread.  The
main thread is `none`. -/
inductive Label (n : ℕ) (α : Type*) where
  | event (e : ObjectEvent (Option (Fin n)) (Tbb.Op α) (Tbb.Result α))
  | start
  | step (t : Fin n)

/-- The calls and returns are what the queue sees. -/
def Label.visible :
    Label n α → Option (ObjectEvent (Option (Fin n)) (Tbb.Op α) (Tbb.Result α))
  | .event e => some e
  | _ => none

/-- What a label does, if it can be taken. -/
def next (s : TeamLoop n α) : Label n α → Option (TeamLoop n α)
  | .event (.call none op) => s.mainCall op
  | .event (.call (some t) op) => s.call t op
  | .event (.ret none r) => s.mainRet r
  | .event (.ret (some t) r) => s.ret t r
  | .start => s.mainStep
  | .step t => s.threadStep t

/-- The loop with `jobs` first jobs.  The counters have the values of an earlier loop, or
zero. -/
def system (n jobs : ℕ) (α : Type*) : Transition (TeamLoop n α) (Label n α) where
  init s := s.main = .setup jobs ∧ (∀ t, s.pc t = .enter) ∧ s.enqueued = [] ∧ s.ran = []
  step s l s' := s.next l = some s'

/-- The loop on a queue with the atomic operations of a list. -/
def onAtomicQueue (n jobs : ℕ) (α : Type*) :=
  (system n jobs α).sync Label.visible ((Tbb.ConcurrentQueue.fifo α).atomic (Option (Fin n)))
    AtomicLabel.visible

/-- The loop on the concurrent queue. -/
def onConcurrentQueue (n jobs itemSize : ℕ) (π α : Type*) [DecidableEq π] :=
  (system n jobs α).sync Label.visible
    (Tbb.ConcurrentQueue.system (Option (Fin n)) π α itemSize) Tbb.ConcurrentQueue.Label.visible

/-- The whole team has returned. -/
def Finished (s : TeamLoop n α) : Prop := s.main = .loop ∧ ∀ t, s.pc t = .returned

/-! ## Jobs and their numbers -/

/-- The jobs `l` have the numbers `js`, where `names` are the jobs in the order of their
numbers. -/
def Named (names l : List α) (js : List Job) : Prop := l.map some = js.map fun i => names[i]?

theorem Named.cons_iff {names l : List α} {js : List Job} {x : α} {i : Job} :
    Named names (x :: l) (i :: js) ↔ names[i]? = some x ∧ Named names l js := by
  simp only [Named, List.map_cons, List.cons.injEq]
  rw [eq_comm (a := some x)]

theorem Named.nil_iff {names : List α} {js : List Job} : Named names [] js ↔ js = [] := by
  rw [Named, List.map_nil, eq_comm, List.map_eq_nil_iff]

/-- The first job and its number. -/
theorem Named.uncons {names l : List α} {js : List Job} {x : α} (h : Named names (x :: l) js) :
    ∃ i rest, js = i :: rest ∧ names[i]? = some x ∧ Named names l rest := by
  cases js with
  | nil => simp [Named] at h
  | cons i rest => exact ⟨i, rest, rfl, Named.cons_iff.mp h⟩

private theorem getElem?_append_some {names : List α} {i : Job} {x : α} (h : names[i]? = some x)
    (y : α) : (names ++ [y])[i]? = some x := by
  obtain ⟨hlt, -⟩ := List.getElem?_eq_some_iff.mp h
  rwa [List.getElem?_append_left hlt]

/-- New numbers do not change the old ones. -/
theorem Named.append {names l : List α} {js : List Job} (h : Named names l js) (y : α) :
    Named (names ++ [y]) l js := by
  induction l generalizing js with
  | nil => exact Named.nil_iff.mpr (Named.nil_iff.mp h)
  | cons x l ih =>
    obtain ⟨i, rest, rfl, hi, hrest⟩ := h.uncons
    exact Named.cons_iff.mpr ⟨getElem?_append_some hi y, ih hrest⟩

theorem Named.concat {names l : List α} {js : List Job} (h : Named names l js) {x : α} {i : Job}
    (hi : names[i]? = some x) : Named names (l ++ [x]) (js ++ [i]) := by
  unfold Named at h ⊢
  simp [h, hi]

/-- Jobs with all numbers are all jobs. -/
theorem Named.coe_eq {names l : List α} {js : List Job} (h : Named names l js)
    (hjs : (js : Multiset Job) = Multiset.range names.length) :
    (l : Multiset α) = names := by
  apply Multiset.map_injective (Option.some_injective α)
  calc (l : Multiset α).map some = (js : Multiset Job).map fun i => names[i]? := by
        rw [Multiset.map_coe, h, Multiset.map_coe]
    _ = ((List.range names.length : List Job) : Multiset Job).map fun i => names[i]? := by
        rw [hjs]
        rfl
    _ = (names : Multiset α).map some := by
        rw [Multiset.map_coe, Multiset.map_coe]
        congr 1
        apply List.ext_getElem
        · simp
        · intro i hi hi'
          simp at hi hi'
          simp [hi]

/-! ## The simulation -/

/-- What a thread of the loop and its call say about the thread of `JobQueue`: a call is over
when it has taken effect. -/
inductive Matches (names : List α) :
    WorkPc α → Call (Tbb.Op α) (Tbb.Result α) → ThreadPc → Prop
  | enter : Matches names .enter .idle .enter
  | outerPop : Matches names .outerPop .idle .outerPop
  | outerCalled : Matches names .outerCall (.called .tryPop) .outerPop
  | outerGot {x : α} {i : Job} : names[i]? = some x →
      Matches names .outerCall (.done (.popped (some x))) (.held i)
  | outerEmpty : Matches names .outerCall (.done (.popped none)) .incIdle
  | held {x : α} {i : Job} : names[i]? = some x → Matches names (.held x) .idle (.held i)
  | running {x : α} {i : Job} : Matches names (.running x) .idle (.running i)
  | enqueuing {x y : α} {i : Job} :
      Matches names (.enqueuing x) (.called (.push y)) (.running i)
  | enqueued {x : α} {i : Job} : Matches names (.enqueuing x) (.done .pushed) (.running i)
  | incIdle : Matches names .incIdle .idle .incIdle
  | innerPop : Matches names .innerPop .idle .innerPop
  | innerCalled : Matches names .innerCall (.called .tryPop) .innerPop
  | innerGot {x : α} {i : Job} : names[i]? = some x →
      Matches names .innerCall (.done (.popped (some x))) (.decIdle i)
  | innerEmpty : Matches names .innerCall (.done (.popped none)) .readIdle
  | readIdle : Matches names .readIdle .idle .readIdle
  | decIdle {x : α} {i : Job} : names[i]? = some x →
      Matches names (.decIdle x) .idle (.decIdle i)
  | returned : Matches names .returned .idle .returned

theorem Matches.append {names : List α} {p : WorkPc α} {call : Call (Tbb.Op α) (Tbb.Result α)}
    {q : ThreadPc} (h : Matches names p call q) (y : α) : Matches (names ++ [y]) p call q := by
  cases h with
  | outerGot hi => exact .outerGot (getElem?_append_some hi y)
  | held hi => exact .held (getElem?_append_some hi y)
  | innerGot hi => exact .innerGot (getElem?_append_some hi y)
  | decIdle hi => exact .decIdle (getElem?_append_some hi y)
  | _ => constructor

/-- The job of an `enqueue` that has not taken effect. -/
def pending : Call (Tbb.Op α) (Tbb.Result α) → Multiset α
  | .called (.push job) => {job}
  | _ => 0

/-- The atomic queue and its calls. -/
abbrev AtomicQueue (n : ℕ) (α : Type*) :=
  AtomicState (Option (Fin n)) (List α) (Tbb.Op α) (Tbb.Result α)

variable {jobs : ℕ} {names : List α} {c c' : TeamLoop n α} {a a' : AtomicQueue n α}
  {j j' : JobQueue n}

/-- The team is running. -/
structure LoopOk (names : List α) (c : TeamLoop n α) (a : AtomicQueue n α) (j : JobQueue n) :
    Prop where
  main : c.main = .loop ∧ a.calls none = .idle
  enqueued : names.length = j.enqueued
  queue : Named names a.state j.queue
  ran : Named names c.ran j.ran
  numthrs : c.numthrs = j.numthrs
  idleCount : c.idleCount = j.idleCount
  pcs : ∀ t, Matches names (c.pc t) (a.calls (some t)) (j.pc t)
  called : (names : Multiset α) + ∑ t, pending (a.calls (some t)) = c.enqueued

/-- The main thread enqueues the first jobs. -/
inductive MainOk (jobs : ℕ) :
    MainPc → Call (Tbb.Op α) (Tbb.Result α) → List α → List α → Prop
  | ready {l : List α} {todo : ℕ} : l.length + todo = jobs → MainOk jobs (.setup todo) .idle l l
  | called {l : List α} {x : α} {todo : ℕ} : l.length + 1 + todo = jobs →
      MainOk jobs (.setupCall todo) (.called (.push x)) l (l ++ [x])
  | done {l : List α} {todo : ℕ} : l.length + todo = jobs →
      MainOk jobs (.setupCall todo) (.done .pushed) l l

/-- The team is not yet running. -/
structure SetupOk (jobs : ℕ) (c : TeamLoop n α) (a : AtomicQueue n α) (j : JobQueue n) :
    Prop where
  initial : JobQueue.Initial jobs j
  numthrs : c.numthrs = j.numthrs
  main : MainOk jobs c.main (a.calls none) a.state c.enqueued
  pc : ∀ t, c.pc t = .enter
  idle : ∀ t, a.calls (some t) = .idle
  ran : c.ran = []

/-- The relation of the simulation. -/
def Represents (jobs : ℕ) (s : TeamLoop n α × AtomicQueue n α) (j : JobQueue n) : Prop :=
  SetupOk jobs s.1 s.2 j ∨ ∃ names, LoopOk names s.1 s.2 j

/-- No step of `JobQueue`, or one. -/
def Follows (j j' : JobQueue n) : Prop := j' = j ∨ ∃ t push, j.threadStep t push = some j'

theorem matches_update (h : ∀ u, Matches names (c.pc u) (a.calls (some u)) (j.pc u)) (t : Fin n)
    {p : WorkPc α} {call : Call (Tbb.Op α) (Tbb.Result α)} {q : ThreadPc}
    (ht : Matches names p call q) (u : Fin n) :
    Matches names (Function.update c.pc t p u) (Function.update a.calls (some t) call (some u))
      (Function.update j.pc t q u) := by
  rcases eq_or_ne u t with rfl | hne
  · simpa using ht
  · have hne' : some u ≠ some t := fun heq => hne (Option.some_inj.mp heq)
    simpa [Function.update_of_ne hne, Function.update_of_ne hne'] using h u

theorem pending_update (a : AtomicQueue n α) (t : Fin n)
    (call : Call (Tbb.Op α) (Tbb.Result α)) :
    ∑ u, pending (Function.update a.calls (some t) call (some u)) + pending (a.calls (some t)) =
      ∑ u, pending (a.calls (some u)) + pending call := by
  have hsum := sum_update_add Finset.univ pending (fun u : Fin n => a.calls (some u))
    (Finset.mem_univ t) call
  rw [← hsum]
  congr 1
  apply Finset.sum_congr rfl
  intro u _
  rcases eq_or_ne u t with rfl | hne
  · simp
  · have hne' : some u ≠ some t := fun heq => hne (Option.some_inj.mp heq)
    rw [Function.update_of_ne hne, Function.update_of_ne hne']

/-- A step of a thread outside of the queue. -/
theorem LoopOk.threadStep (h : LoopOk names c a j) {t : Fin n} (hs : c.threadStep t = some c') :
    ∃ j', Follows j j' ∧ LoopOk names c' a j' := by
  have hmatch := h.pcs t
  -- no call of the thread is in progress, so the atomic queue stays as it is
  have hmove : ∀ {p : WorkPc α} {q : ThreadPc}, a.calls (some t) = .idle →
      Matches names p .idle q → ∀ u, Matches names (Function.update c.pc t p u)
        (a.calls (some u)) (Function.update j.pc t q u) := by
    intro p q hcall hpq u
    have hupdate := matches_update h.pcs t hpq u
    rwa [← hcall, Function.update_eq_self] at hupdate
  unfold TeamLoop.threadStep at hs
  generalize hcall : a.calls (some t) = call at hmatch
  generalize hq : j.pc t = q at hmatch
  cases hp : c.pc t with
  | outerPop | outerCall | enqueuing | innerPop | innerCall | returned => simp [hp] at hs
  | enter =>
    simp only [hp, Option.ite_none_right_eq_some, Option.some_inj] at hs
    obtain ⟨-, rfl⟩ := hs
    rw [hp] at hmatch
    cases hmatch
    refine ⟨{ j with numthrs := n }.goto t .outerPop,
      Or.inr ⟨t, false, by simp [JobQueue.threadStep, hq]⟩, ?_⟩
    exact { h with numthrs := rfl, pcs := hmove hcall .outerPop }
  | held job =>
    simp only [hp, Option.some_inj] at hs
    subst hs
    rw [hp] at hmatch
    cases hmatch with
    | @held x i hi =>
      refine ⟨{ j with ran := j.ran ++ [i] }.goto t (.running i),
        Or.inr ⟨t, false, by simp [JobQueue.threadStep, hq]⟩, ?_⟩
      exact { h with ran := h.ran.concat hi, pcs := hmove hcall .running }
  | running job =>
    simp only [hp, Option.some_inj] at hs
    subst hs
    rw [hp] at hmatch
    cases hmatch
    refine ⟨j.goto t .outerPop, Or.inr ⟨t, false, by simp [JobQueue.threadStep, hq]⟩, ?_⟩
    exact { h with pcs := hmove hcall .outerPop }
  | incIdle =>
    simp only [hp, Option.some_inj] at hs
    subst hs
    rw [hp] at hmatch
    cases hmatch
    refine ⟨{ j with idleCount := j.idleCount + 1 }.goto t .innerPop,
      Or.inr ⟨t, false, by simp [JobQueue.threadStep, hq]⟩, ?_⟩
    exact { h with
      idleCount := congrArg (· + 1) h.idleCount
      pcs := hmove hcall .innerPop }
  | readIdle =>
    simp only [hp] at hs
    rw [hp] at hmatch
    cases hmatch
    rw [h.idleCount, h.numthrs] at hs
    split at hs <;> simp only [Option.some_inj] at hs <;> subst hs
    · next hidle =>
      refine ⟨j.goto t .returned,
        Or.inr ⟨t, false, by simp [JobQueue.threadStep, hq, hidle]⟩, ?_⟩
      exact { h with pcs := hmove hcall .returned }
    · next hidle =>
      refine ⟨j.goto t .innerPop,
        Or.inr ⟨t, false, by simp [JobQueue.threadStep, hq, hidle]⟩, ?_⟩
      exact { h with pcs := hmove hcall .innerPop }
  | decIdle job =>
    simp only [hp, Option.some_inj] at hs
    subst hs
    rw [hp] at hmatch
    cases hmatch with
    | @decIdle x i hi =>
      refine ⟨{ j with idleCount := j.idleCount - 1 }.goto t (.held i),
        Or.inr ⟨t, false, by simp [JobQueue.threadStep, hq]⟩, ?_⟩
      exact { h with
        idleCount := congrArg (· - 1) h.idleCount
        pcs := hmove hcall (.held hi) }

/-- Only the atomic queue and the thread of `JobQueue` move. -/
theorem matches_effect (h : ∀ u, Matches names (c.pc u) (a.calls (some u)) (j.pc u)) (t : Fin n)
    (call : Call (Tbb.Op α) (Tbb.Result α)) {q : ThreadPc} (ht : Matches names (c.pc t) call q)
    (u : Fin n) : Matches names (c.pc u) (Function.update a.calls (some t) call (some u))
      (Function.update j.pc t q u) := by
  have hupdate := matches_update h t ht u
  rwa [Function.update_eq_self] at hupdate

/-- A `try_pop` takes effect. -/
theorem LoopOk.tryPop (h : LoopOk names c a j) {t : Fin n}
    (hcalled : a.calls (some t) = .called .tryPop) {got : Job → ThreadPc} {empty : ThreadPc}
    (hgot : ∀ x i, names[i]? = some x →
      Matches names (c.pc t) (.done (.popped (some x))) (got i))
    (hempty : Matches names (c.pc t) (.done (.popped none)) empty) :
    LoopOk names c ((Tbb.ConcurrentQueue.fifo α).takeEffect a (some t) .tryPop)
      (j.tryPop t got empty) := by
  have hcalls : (names : Multiset α) + ∑ u, pending (Function.update a.calls (some t)
      (.done (.popped a.state.head?)) (some u)) = c.enqueued := by
    have hsum := pending_update a t (.done (.popped a.state.head?))
    rw [hcalled] at hsum
    rw [← h.called]
    congr 1
    simpa only [pending, add_zero] using hsum
  have heffect : (Tbb.ConcurrentQueue.fifo α).takeEffect a (some t) .tryPop =
      ⟨a.state.tail, Function.update a.calls (some t) (.done (.popped a.state.head?))⟩ := rfl
  have hqueue := h.queue
  unfold JobQueue.tryPop
  rw [heffect]
  cases hstate : a.state with
  | nil =>
    rw [hstate] at hqueue hcalls
    have hnil : j.queue = [] := Named.nil_iff.mp hqueue
    rw [hnil]
    exact { h with
      queue := Named.nil_iff.mpr hnil
      pcs := matches_effect h.pcs t _ hempty
      called := hcalls }
  | cons x rest =>
    rw [hstate] at hqueue hcalls
    obtain ⟨i, js, hjs, hi, hrest⟩ := hqueue.uncons
    rw [hjs]
    exact { h with
      queue := hrest
      pcs := matches_effect h.pcs t _ (hgot x i hi)
      called := hcalls }

/-- An `enqueue` takes effect: the job gets its number. -/
theorem LoopOk.push (h : LoopOk names c a j) {t : Fin n} {x y : α} {i : Job}
    (hcalled : a.calls (some t) = .called (.push y)) (hp : c.pc t = .enqueuing x)
    (hq : j.pc t = .running i) :
    LoopOk (names ++ [y]) c ((Tbb.ConcurrentQueue.fifo α).takeEffect a (some t) (.push y))
      j.enqueue := by
  have heffect : (Tbb.ConcurrentQueue.fifo α).takeEffect a (some t) (.push y) =
      ⟨a.state ++ [y], Function.update a.calls (some t) (.done .pushed)⟩ := rfl
  have hnumber : (names ++ [y])[j.enqueued]? = some y := by
    rw [← h.enqueued]
    simp
  have hpcs := matches_effect (q := j.pc t) (fun u => (h.pcs u).append y) t
    (.done .pushed) (by rw [hp, hq]; exact .enqueued)
  rw [Function.update_eq_self] at hpcs
  rw [heffect]
  exact { h with
    enqueued := by simp [JobQueue.enqueue, h.enqueued]
    queue := (h.queue.append y).concat hnumber
    ran := h.ran.append y
    pcs := hpcs
    called := by
      have hsum := pending_update a t (.done .pushed)
      rw [hcalled] at hsum
      have hsum' : ∑ u, pending (Function.update a.calls (some t) (.done .pushed) (some u)) +
          {y} = ∑ u, pending (a.calls (some u)) := by
        simpa only [pending, add_zero] using hsum
      rw [← h.called, ← hsum', ← Multiset.coe_add, Multiset.coe_singleton]
      abel }

/-- A call of the team takes effect. -/
theorem LoopOk.effect (h : LoopOk names c a j) {t : Fin n} {op : Tbb.Op α}
    (hcalled : a.calls (some t) = .called op) :
    ∃ names' j', Follows j j' ∧
      LoopOk names' c ((Tbb.ConcurrentQueue.fifo α).takeEffect a (some t) op) j' := by
  have hmatch := h.pcs t
  rw [hcalled] at hmatch
  generalize hp : c.pc t = p at hmatch
  generalize hq : j.pc t = q at hmatch
  cases hmatch with
  | outerCalled =>
    have hstep : j.threadStep t false = some (j.tryPop t .held .incIdle) := by
      simp [JobQueue.threadStep, hq]
    refine ⟨names, _, Or.inr ⟨t, false, hstep⟩, h.tryPop hcalled ?_ ?_⟩
    · exact fun x i hi => by rw [hp]; exact .outerGot hi
    · rw [hp]
      exact .outerEmpty
  | innerCalled =>
    have hstep : j.threadStep t false = some (j.tryPop t .decIdle .readIdle) := by
      simp [JobQueue.threadStep, hq]
    refine ⟨names, _, Or.inr ⟨t, false, hstep⟩, h.tryPop hcalled ?_ ?_⟩
    · exact fun x i hi => by rw [hp]; exact .innerGot hi
    · rw [hp]
      exact .innerEmpty
  | @enqueuing x y i =>
    have hstep : j.threadStep t true = some j.enqueue := by
      simp [JobQueue.threadStep, hq]
    exact ⟨names ++ [y], _, Or.inr ⟨t, true, hstep⟩, h.push hcalled hp hq⟩

/-- A thread of the team calls. -/
theorem LoopOk.call (h : LoopOk names c a j) {t : Fin n} {op : Tbb.Op α}
    (hidle : a.calls (some t) = .idle) (hs : c.call t op = some c') :
    LoopOk names c' { a with calls := Function.update a.calls (some t) (.called op) } j := by
  have hmatch := h.pcs t
  have hsum := pending_update a t (.called op)
  rw [hidle] at hmatch hsum
  have hmove : ∀ {p : WorkPc α}, Matches names p (.called op) (j.pc t) →
      ∀ u, Matches names (Function.update c.pc t p u)
        (Function.update a.calls (some t) (.called op) (some u)) (j.pc u) := by
    intro p hpq u
    have hupdate := matches_update h.pcs t hpq u
    rwa [Function.update_eq_self] at hupdate
  unfold TeamLoop.call at hs
  cases op with
  | empty => simp at hs
  | tryPop =>
    have hcalls : (names : Multiset α) + ∑ u, pending (Function.update a.calls (some t)
        (.called .tryPop) (some u)) = c.enqueued := by
      rw [← h.called]
      congr 1
      simpa only [pending, add_zero] using hsum
    dsimp only at hs
    split at hs <;> simp only [Option.some_inj, reduceCtorEq] at hs <;> subst hs
    · next hp =>
      rw [hp] at hmatch
      generalize hq : j.pc t = q at hmatch
      cases hmatch
      exact { h with
        pcs := hmove (by rw [hq]; exact .outerCalled)
        called := hcalls }
    · next hp =>
      rw [hp] at hmatch
      generalize hq : j.pc t = q at hmatch
      cases hmatch
      exact { h with
        pcs := hmove (by rw [hq]; exact .innerCalled)
        called := hcalls }
  | push y =>
    dsimp only at hs
    split at hs <;> simp only [Option.some_inj, reduceCtorEq] at hs
    subst hs
    next x hp =>
    rw [hp] at hmatch
    generalize hq : j.pc t = q at hmatch
    cases hmatch
    exact { h with
      pcs := hmove (by rw [hq]; exact .enqueuing)
      called := by
        have hsum' : ∑ u, pending (Function.update a.calls (some t) (.called (.push y))
            (some u)) = ∑ u, pending (a.calls (some u)) + {y} := by
          simpa only [pending, add_zero] using hsum
        change (names : Multiset α) + ∑ u, pending (Function.update a.calls (some t)
            (.called (.push y)) (some u)) = ((c.enqueued ++ [y] : List α) : Multiset α)
        rw [hsum', ← Multiset.coe_add, Multiset.coe_singleton, ← h.called]
        abel }

/-- The queue returns to a thread of the team. -/
theorem LoopOk.ret (h : LoopOk names c a j) {t : Fin n} {r : Tbb.Result α}
    (hdone : a.calls (some t) = .done r) (hs : c.ret t r = some c') :
    LoopOk names c' { a with calls := Function.update a.calls (some t) .idle } j := by
  have hmatch := h.pcs t
  have hsum := pending_update a t .idle
  rw [hdone] at hmatch hsum
  have hcalls : (names : Multiset α) + ∑ u, pending (Function.update a.calls (some t)
      .idle (some u)) = c.enqueued := by
    rw [← h.called]
    congr 1
    simpa only [pending, add_zero] using hsum
  have hmove : ∀ {p : WorkPc α}, Matches names p .idle (j.pc t) →
      ∀ u, Matches names (Function.update c.pc t p u)
        (Function.update a.calls (some t) .idle (some u)) (j.pc u) := by
    intro p hpq u
    have hupdate := matches_update h.pcs t hpq u
    rwa [Function.update_eq_self] at hupdate
  -- what the call has brought is what the thread goes on with
  have hnext : ∀ {p : WorkPc α}, Matches names p .idle (j.pc t) →
      LoopOk names (c.goto t p) { a with calls := Function.update a.calls (some t) .idle } j :=
    fun hpq => { h with pcs := hmove hpq, called := hcalls }
  generalize hp : c.pc t = p at hmatch
  generalize hq : j.pc t = q at hmatch hnext
  cases hmatch with
  | outerGot hi =>
    simp only [TeamLoop.ret, hp, Option.some_inj] at hs
    exact hs ▸ hnext (.held hi)
  | outerEmpty =>
    simp only [TeamLoop.ret, hp, Option.some_inj] at hs
    exact hs ▸ hnext .incIdle
  | innerGot hi =>
    simp only [TeamLoop.ret, hp, Option.some_inj] at hs
    exact hs ▸ hnext (.decIdle hi)
  | innerEmpty =>
    simp only [TeamLoop.ret, hp, Option.some_inj] at hs
    exact hs ▸ hnext .readIdle
  | enqueued =>
    simp only [TeamLoop.ret, hp, Option.some_inj] at hs
    exact hs ▸ hnext .running

/-! ### Before the team starts -/

theorem SetupOk.mainCall (h : SetupOk jobs c a j) {op : Tbb.Op α} (hidle : a.calls none = .idle)
    (hs : c.mainCall op = some c') :
    SetupOk jobs c' { a with calls := Function.update a.calls none (.called op) } j := by
  have hmain := h.main
  rw [hidle] at hmain
  unfold TeamLoop.mainCall at hs
  split at hs
  · next x =>
    split at hs <;> simp only [Option.some_inj, reduceCtorEq] at hs
    subst hs
    next todo hp =>
    rw [hp] at hmain
    generalize henq : c.enqueued = l at hmain
    cases hmain with
    | ready hlen =>
      refine { h with main := ?_, idle := h.idle }
      simp only [Function.update_self]
      exact .called (by omega)
  · simp at hs

theorem SetupOk.mainRet (h : SetupOk jobs c a j) {r : Tbb.Result α}
    (hdone : a.calls none = .done r) (hs : c.mainRet r = some c') :
    SetupOk jobs c' { a with calls := Function.update a.calls none .idle } j := by
  have hmain := h.main
  rw [hdone] at hmain
  unfold TeamLoop.mainRet at hs
  split at hs
  · split at hs <;> simp only [Option.some_inj, reduceCtorEq] at hs
    subst hs
    next todo hp =>
    rw [hp] at hmain
    generalize henq : c.enqueued = l at hmain
    cases hmain with
    | done hlen =>
      refine { h with main := ?_, idle := h.idle }
      simp only [Function.update_self]
      exact .ready hlen
  · simp at hs

/-- The main thread's `enqueue` takes effect. -/
theorem SetupOk.effect (h : SetupOk jobs c a j) {op : Tbb.Op α}
    (hcalled : a.calls none = .called op) :
    SetupOk jobs c ((Tbb.ConcurrentQueue.fifo α).takeEffect a none op) j := by
  have hmain := h.main
  rw [hcalled] at hmain
  generalize hp : c.main = p at hmain
  generalize henq : c.enqueued = l at hmain
  generalize hstate : a.state = l' at hmain
  cases hmain with
  | @called l x todo hlen =>
    refine { h with main := ?_, idle := h.idle }
    simp only [SequentialObject.takeEffect, Tbb.ConcurrentQueue.fifo, Function.update_self, hp,
      henq, hstate]
    exact .done (by simpa using hlen)

/-- The team starts, and the jobs that are in the queue get their numbers. -/
theorem SetupOk.start (h : SetupOk jobs c a j) (hs : c.mainStep = some c') :
    LoopOk a.state c' a j := by
  have hmain := h.main
  unfold TeamLoop.mainStep at hs
  split at hs <;> simp only [Option.some_inj, reduceCtorEq] at hs
  subst hs
  next hp =>
  rw [hp] at hmain
  generalize hcall : a.calls none = call at hmain
  generalize henq : c.enqueued = l at hmain
  generalize hstate : a.state = l' at hmain
  obtain ⟨hqueue, hidle, hpc, hnumber, hran⟩ := h.initial
  cases hmain with
  | ready hlen =>
    exact {
      main := ⟨rfl, hcall⟩
      enqueued := hlen.trans hnumber.symm
      queue := by
        rw [hstate, hqueue, ← hlen]
        apply List.ext_getElem
        · simp
        · intro i hi hi'
          simp at hi hi'
          simp [hi]
      ran := by
        change Named l c.ran j.ran
        rw [h.ran, hran]
        exact Named.nil_iff.mpr rfl
      numthrs := h.numthrs
      idleCount := hidle.symm
      pcs := fun t => by
        change Matches l (c.pc t) _ _
        rw [h.pc, h.idle, hpc]
        exact .enter
      called := by
        have hzero : ∑ t, pending (a.calls (some t)) = 0 :=
          Finset.sum_eq_zero fun t _ => by rw [h.idle]; rfl
        rw [hzero, add_zero] }

theorem SetupOk.main_ne (h : SetupOk jobs c a j) : c.main ≠ .loop := by
  have hmain := h.main
  intro heq
  rw [heq] at hmain
  generalize hl : c.enqueued = l at hmain
  cases hmain

/-- The team does nothing before it starts. -/
theorem SetupOk.team_waits (h : SetupOk jobs c a j) (t : Fin n) :
    c.threadStep t = none ∧ (∀ op, c.call t op = none) ∧ ∀ r, c.ret t r = none := by
  refine ⟨?_, fun op => ?_, fun r => ?_⟩
  · simp [TeamLoop.threadStep, h.pc, h.main_ne]
  · cases op <;> simp [TeamLoop.call, h.pc]
  · cases r <;> simp [TeamLoop.ret, h.pc]

/-- The main thread does nothing while the team runs. -/
theorem LoopOk.main_waits (h : LoopOk names c a j) :
    c.mainStep = none ∧ (∀ op, c.mainCall op = none) ∧ ∀ r, c.mainRet r = none := by
  refine ⟨?_, fun op => ?_, fun r => ?_⟩
  · simp [TeamLoop.mainStep, h.main.1]
  · cases op <;> simp [TeamLoop.mainCall, h.main.1]
  · cases r <;> simp [TeamLoop.mainRet, h.main.1]

/-! ### All steps -/

/-- A call or a return, by the loop and by the queue together. -/
theorem Represents.event {e : ObjectEvent (Option (Fin n)) (Tbb.Op α) (Tbb.Result α)}
    (h : Represents jobs (c, a) j) (hs : c.next (.event e) = some c')
    (hs' : (Tbb.ConcurrentQueue.fifo α).Step a (.event e) a') : Represents jobs (c', a') j := by
  cases hs' with
  | @call u op hidle =>
    cases u with
    | none =>
      obtain h | ⟨names, h⟩ := h
      · exact Or.inl (h.mainCall hidle hs)
      · simp [next, h.main_waits.2.1] at hs
    | some t =>
      obtain h | ⟨names, h⟩ := h
      · simp [next, (h.team_waits t).2.1] at hs
      · exact Or.inr ⟨names, h.call hidle hs⟩
  | @ret u r hdone =>
    cases u with
    | none =>
      obtain h | ⟨names, h⟩ := h
      · exact Or.inl (h.mainRet hdone hs)
      · simp [next, h.main_waits.2.2] at hs
    | some t =>
      obtain h | ⟨names, h⟩ := h
      · simp [next, (h.team_waits t).2.2] at hs
      · exact Or.inr ⟨names, h.ret hdone hs⟩

/-- An operation takes effect. -/
theorem Represents.effect {u : Option (Fin n)} {op : Tbb.Op α} (h : Represents jobs (c, a) j)
    (hcalled : a.calls u = .called op) : ∃ j', Follows j j' ∧
      Represents jobs (c, (Tbb.ConcurrentQueue.fifo α).takeEffect a u op) j' := by
  obtain h | ⟨names, h⟩ := h
  · cases u with
    | none => exact ⟨j, Or.inl rfl, Or.inl (h.effect hcalled)⟩
    | some t =>
      have hidle := h.idle t
      rw [hcalled] at hidle
      simp at hidle
  · cases u with
    | none =>
      have hidle := h.main.2
      rw [hcalled] at hidle
      simp at hidle
    | some t =>
      obtain ⟨names', j', hfollows, h'⟩ := h.effect hcalled
      exact ⟨j', hfollows, Or.inr ⟨names', h'⟩⟩

/-- The start of the team, or a step of a thread outside of the queue. -/
theorem Represents.client {l : Label n α} (h : Represents jobs (c, a) j)
    (hvis : l.visible = none) (hs : c.next l = some c') :
    ∃ j', Follows j j' ∧ Represents jobs (c', a) j' := by
  cases l with
  | event e => simp [Label.visible] at hvis
  | start =>
    obtain h | ⟨names, h⟩ := h
    · exact ⟨j, Or.inl rfl, Or.inr ⟨_, h.start hs⟩⟩
    · simp [next, h.main_waits.1] at hs
  | step t =>
    obtain h | ⟨names, h⟩ := h
    · simp [next, (h.team_waits t).1] at hs
    · obtain ⟨j', hfollows, h'⟩ := h.threadStep hs
      exact ⟨j', hfollows, Or.inr ⟨names, h'⟩⟩

/-- No label of `JobQueue` is visible. -/
def invisible {ℓ : Type*} : ℓ → Option Empty := fun _ => none

theorem Follows.path (h : Follows j j') :
    (JobQueue.system n jobs).Path invisible j [] j' := by
  obtain rfl | ⟨t, push, hs⟩ := h
  · exact .refl _
  · exact .single (T := JobQueue.system n jobs) (l := t) ⟨push, hs⟩

/-- The loop on the atomic queue does what `JobQueue` can do. -/
theorem simulation : Transition.Simulation (onAtomicQueue n jobs α) invisible
    (JobQueue.system n jobs) invisible (Represents jobs) where
  init := by
    rintro ⟨c, a⟩ ⟨⟨hmain, hpc, henq, hran⟩, hstate, hcalls⟩
    refine ⟨{ JobQueue.start n jobs with numthrs := c.numthrs },
      ⟨rfl, rfl, fun _ => rfl, rfl, rfl⟩, Or.inl ?_⟩
    refine ⟨⟨rfl, rfl, fun _ => rfl, rfl, rfl⟩, rfl, ?_, hpc, fun t => hcalls _, hran⟩
    have hstate' : a.state = [] := hstate
    simp only at hmain henq
    rw [hmain, hstate', henq, hcalls]
    exact .ready (Nat.zero_add jobs)
  step := by
    rintro ⟨c, a⟩ l ⟨c', a'⟩ j - - hR hs
    have hmatched : ∃ j', Follows j j' ∧ Represents jobs (c', a') j' := by
      match l with
      | .client l =>
        obtain ⟨hvis, hstep, rfl⟩ := hs
        exact hR.client hvis hstep
      | .component l =>
        obtain ⟨hvis, hstep, hc⟩ := hs
        obtain rfl : c' = c := hc
        have hstep' : (Tbb.ConcurrentQueue.fifo α).Step a l a' := hstep
        cases hstep' with
        | call | ret => simp [AtomicLabel.visible] at hvis
        | effect hcalled => exact hR.effect hcalled
      | .both l l' =>
        obtain ⟨e, hl, hl', hstep, hstep'⟩ := hs
        -- both labels are the event that both see
        cases l with
        | start | step => simp [Label.visible] at hl
        | event e₁ =>
          cases l' with
          | effect => simp [AtomicLabel.visible] at hl'
          | event e₂ =>
            obtain rfl : e₁ = e := by simpa [Label.visible] using hl
            obtain rfl : e₂ = e₁ := by simpa [AtomicLabel.visible] using hl'
            exact ⟨j, Or.inl rfl, hR.event hstep hstep'⟩
    obtain ⟨j', hfollows, hR'⟩ := hmatched
    exact ⟨j', hfollows.path, hR'⟩

/-! ## The end of the loop -/

/-- When the team has returned, no call is in progress, and what has been enqueued has been
run. -/
theorem LoopOk.finished (h : LoopOk names c a j) (hj : JobQueue.Invariant j)
    (hfin : c.Finished) :
    (∀ u, a.calls u = .idle) ∧ a.state = [] ∧ (c.ran : Multiset α) = c.enqueued := by
  have hteam : ∀ t, a.calls (some t) = .idle ∧ j.pc t = .returned := by
    intro t
    have hmatch := h.pcs t
    rw [hfin.2 t] at hmatch
    generalize hcall : a.calls (some t) = call at hmatch
    generalize hq : j.pc t = q at hmatch
    cases hmatch
    exact ⟨rfl, rfl⟩
  obtain ⟨hqueue, hran⟩ := hj.ran_perm fun t => (hteam t).2
  refine ⟨fun u => ?_, ?_, ?_⟩
  · cases u with
    | none => exact h.main.2
    | some t => exact (hteam t).1
  · have hstate := h.queue
    rw [hqueue] at hstate
    exact List.map_eq_nil_iff.mp hstate
  · have hcalled := h.called
    rw [Finset.sum_eq_zero fun t _ => by rw [(hteam t).1]; rfl, add_zero] at hcalled
    rw [← hcalled]
    exact h.ran.coe_eq (by rw [h.enqueued]; exact Multiset.coe_eq_coe.mpr hran)

variable {π : Type*} [DecidableEq π] {itemSize : ℕ}
  {s s' : Tbb.ConcurrentQueue (Option (Fin n)) π α}

/-- The counter of the idle threads stays between zero and the number of threads.  When the
team has returned, every job has been run as often as it has been enqueued, `m_queue` is empty,
as `loop()` asserts, and its destructor leaves no page allocated. -/
theorem runs_exactlyOnce (hn : 0 < n) (fresh : π)
    (h : (onConcurrentQueue n jobs itemSize π α).Reachable (c, s)) :
    (c.main = .loop → 0 ≤ c.idleCount ∧ c.idleCount ≤ n) ∧
      (c.Finished → (c.ran : Multiset α) = c.enqueued ∧ s.internalSize = 0 ∧
        ∃ s', s.destroy itemSize none fresh 15 1 = some s' ∧ ∀ p, s'.heap p = none) := by
  have : Nonempty π := ⟨fresh⟩
  obtain ⟨a, ha, g, hg, rfl⟩ := Tbb.ConcurrentQueue.simulation.reachable_sync h
  obtain ⟨j, hj, hrep⟩ := simulation.reachable ha
  have hinv := JobQueue.reachable_invariant hn hj
  obtain hsetup | ⟨names, hloop⟩ := hrep
  · have hmain : c.main ≠ .loop := hsetup.main_ne
    exact ⟨fun hl => absurd hl hmain, fun hfin => absurd hfin.1 hmain⟩
  · refine ⟨fun _ => ?_, fun hfin => ?_⟩
    · have hcount : c.idleCount = j.idleCount := hloop.idleCount
      rw [hcount]
      exact hinv.idle_bounds
    · obtain ⟨hidle, hempty, hran⟩ := hloop.finished hinv hfin
      have hq : Tbb.ConcurrentQueue.Quiescent itemSize s g :=
        ⟨hg, fun u => hg.idle_of_status (hidle u)⟩
      have hitems : s.items g = [] := hempty
      refine ⟨hran, ?_, hq.destroy_eq none fresh le_rfl ?_⟩
      · rw [← hq.length_items, hitems]
        rfl
      · rw [hitems]
        exact Nat.one_pos

/-- A thread takes a step, or makes a call of the queue while no other thread does
anything. -/
def act (itemSize : ℕ) (fresh : π) (s : TeamLoop n α × Tbb.ConcurrentQueue (Option (Fin n)) π α) :
    Label n α → Option (TeamLoop n α × Tbb.ConcurrentQueue (Option (Fin n)) π α)
  | .event (.call u op) =>
    match s.2.pc u with
    | .idle =>
      (s.1.next (.event (.call u op))).bind fun c =>
        (s.2.callAlone itemSize u fresh 15 op).bind fun p =>
          (c.next (.event (.ret u p.1))).map fun c => (c, p.2)
    | _ => none
  | .event _ => none
  | l => (s.1.next l).map fun c => (c, s.2)

theorem reachable_act {fresh : π} {l : Label n α}
    {q q' : TeamLoop n α × Tbb.ConcurrentQueue (Option (Fin n)) π α}
    (h : (onConcurrentQueue n jobs itemSize π α).Reachable q)
    (hs : act itemSize fresh q l = some q') :
    (onConcurrentQueue n jobs itemSize π α).Reachable q' := by
  obtain ⟨c, s⟩ := q
  cases l with
  | event e =>
    cases e with
    | ret => simp [act] at hs
    | call u op =>
      simp only [act] at hs
      split at hs
      case h_2 => simp at hs
      next hidle =>
      simp only [Option.bind_eq_some_iff, Option.map_eq_some_iff] at hs
      obtain ⟨c₁, hcall, ⟨r, s'⟩, halone, c₂, hret, rfl⟩ := hs
      have hcalled : (onConcurrentQueue n jobs itemSize π α).Reachable
          (c₁, s.goto u (Tbb.ConcurrentQueue.entry op)) :=
        h.step (l := .both (.event (.call u op)) (.event (.call u op)))
          ⟨.call u op, rfl, rfl, hcall, hidle, rfl⟩
      unfold Tbb.ConcurrentQueue.callAlone at halone
      dsimp only at halone
      split at halone
      · next r' hr =>
        obtain ⟨rfl, rfl⟩ : r' = r ∧ _ = s' := by simpa using halone
        have hdone := hcalled.component_path (Tbb.ConcurrentQueue.alone_path u fresh 15)
        exact hdone.step (l := .both (.event (.ret u r')) (.event (.ret u r')))
          ⟨.ret u r', rfl, rfl, hret, hr, rfl⟩
      · simp at halone
  | start | step =>
    simp only [act, Option.map_eq_some_iff] at hs
    obtain ⟨c', hc, rfl⟩ := hs
    exact h.step (l := .client _) ⟨rfl, hc, rfl⟩

theorem reachable_acts {fresh : π} {acts : List (Label n α)}
    {q q' : TeamLoop n α × Tbb.ConcurrentQueue (Option (Fin n)) π α}
    (h : (onConcurrentQueue n jobs itemSize π α).Reachable q)
    (hs : acts.foldlM (act itemSize fresh) q = some q') :
    (onConcurrentQueue n jobs itemSize π α).Reachable q' := by
  induction acts generalizing q with
  | nil =>
    obtain rfl : q = q' := by simpa using hs
    exact h
  | cons l acts ih =>
    simp only [List.foldlM_cons, Option.bind_eq_bind, Option.bind_eq_some_iff] at hs
    obtain ⟨q₁, hact, hrest⟩ := hs
    exact ih (reachable_act h hact) hrest

/-- The threads of a team of two. -/
def firstThread : Fin 2 := ⟨0, by decide⟩

def secondThread : Fin 2 := ⟨1, by decide⟩

/-- The main thread enqueues a job and starts a team of two threads.  The first thread runs the
job and the second one becomes idle. -/
def firstJobRun : List (Label 2 ℕ) :=
  [.event (.call none (.push 7)), .start, .step firstThread, .step secondThread,
    .event (.call (some firstThread) .tryPop), .step firstThread,
    .event (.call (some secondThread) .tryPop), .step secondThread]

/-- The running job enqueues another one, which the idle thread runs.  Both threads return. -/
def secondJobRun : List (Label 2 ℕ) :=
  [.event (.call (some firstThread) (.push 8)),
    .event (.call (some secondThread) .tryPop), .step secondThread, .step secondThread,
    .step firstThread, .step secondThread,
    .event (.call (some firstThread) .tryPop), .step firstThread,
    .event (.call (some secondThread) .tryPop), .step secondThread,
    .event (.call (some firstThread) .tryPop), .step firstThread,
    .event (.call (some secondThread) .tryPop), .step secondThread]

def handOverStart : TeamLoop 2 ℕ × Tbb.ConcurrentQueue (Option (Fin 2)) ℕ ℕ :=
  (⟨0, 0, .setup 1, fun _ => .enter, [], []⟩, Tbb.ConcurrentQueue.start)

/-- Both runs; the two jobs stand on two pages. -/
def handOver : Option (TeamLoop 2 ℕ × Tbb.ConcurrentQueue (Option (Fin 2)) ℕ ℕ) :=
  (firstJobRun.foldlM (act 8 0) handOverStart).bind (secondJobRun.foldlM (act 8 1))

theorem reachable_handOver {q : TeamLoop 2 ℕ × Tbb.ConcurrentQueue (Option (Fin 2)) ℕ ℕ}
    (h : handOver = some q) : (onConcurrentQueue 2 1 8 ℕ ℕ).Reachable q := by
  obtain ⟨q₁, hfirst, hsecond⟩ := Option.bind_eq_some_iff.mp h
  have hstart : (onConcurrentQueue 2 1 8 ℕ ℕ).Reachable handOverStart :=
    .start ⟨⟨rfl, fun _ => rfl, rfl, rfl⟩, rfl⟩
  exact reachable_acts (reachable_acts hstart hfirst) hsecond

theorem runs_exactlyOnce_handOver :
    ∃ c s, handOver = some (c, s) ∧
      c.ran = [7, 8] ∧ ((c.ran : Multiset ℕ) = c.enqueued ∧ s.internalSize = 0 ∧
        ∃ s', s.destroy 8 none 0 15 1 = some s' ∧ ∀ p, s'.heap p = none) := by
  have hrun : (handOver.map fun q =>
      (q.1.main, q.1.pc firstThread, q.1.pc secondThread, q.1.ran)) =
        some (.loop, .returned, .returned, [7, 8]) := by decide
  obtain ⟨⟨c, s⟩, hq, hview⟩ := Option.map_eq_some_iff.mp hrun
  obtain ⟨hmain, hfirst, hsecond, hran⟩ : c.main = .loop ∧ c.pc firstThread = .returned ∧
      c.pc secondThread = .returned ∧ c.ran = [7, 8] := by
    simpa using hview
  have hfin : c.Finished := ⟨hmain, fun t => by
    obtain rfl | rfl : t = firstThread ∨ t = secondThread := by
      rcases t with ⟨t, ht⟩
      simp only [firstThread, secondThread, Fin.mk.injEq]
      omega
    · exact hfirst
    · exact hsecond⟩
  exact ⟨c, s, hq, hran, (runs_exactlyOnce (by decide) 0 (reachable_handOver hq)).2 hfin⟩

end TeamLoop

end StringSampleSort
