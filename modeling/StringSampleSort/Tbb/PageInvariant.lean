import StringSampleSort.Tbb.TurnTaking
import StringSampleSort.Tbb.PageProtocol

/-!
# The pages of the concurrent queue

The invariant of the whole queue: every micro queue is in a state that its counters and the
phases of the threads allow, and every allocated page belongs to one micro queue or to one
thread.

## Main results

- `ConcurrentQueue.Pages`: the invariant
- `ConcurrentQueue.Pages.pushStep`, `ConcurrentQueue.Pages.popStep`: a thread in turn takes a
  step at its micro queue
- `ConcurrentQueue.Pages.idleStep`: a thread takes a step without touching a page
-/

namespace StringSampleSort.Tbb

open Library

/-! ## What a program point says about pages -/

namespace Pc

variable {π α : Type*}

/-- The micro queue at which the thread is in turn to push. -/
def pushLane (p : Pc π α) : Option (Fin nQueue) := p.stage.pushTurn.map index

/-- The micro queue at which the thread is in turn to pop. -/
def popLane (p : Pc π α) : Option (Fin nQueue) := p.stage.popTurn.map index

def pushPhase : Pc π α → PushPhase π
  | pushLink _ _ p q => .linking p q
  | pushSetTail _ _ p => .linked p
  | pushUnlock _ _ p | pushCopy _ _ p => .tailed p
  | pushMask _ p => .copied p
  | pushPublish _ => .marked
  | _ => .before

def popPhase : Pc π α → PopPhase π
  | popPage _ => .filled
  | popMask _ p | popItem _ p => .reading p
  | popLock _ p _ | popReadNext _ p _ => .taken p
  | popSetHead _ p q _ => .unlinking p q
  | popSetTail _ p q _ => .headSet p q
  | popUnlock _ p _ | popPublish _ (some p) _ => .unlinked p
  | popPublish _ none _ => .passed
  | _ => .before

/-- The new page that the thread has not linked yet. -/
def opens : Pc π α → Option π
  | pushTurn _ _ (some p) | pushLock _ _ p | pushReadTail _ _ p | pushLink _ _ p _ => some p
  | _ => none

/-- The page that only this thread knows. -/
def owns : Pc π α → Option π
  | popFree p _ => some p
  | p => p.opens

/-- What a thread holds in its local variables.  The items are logged in the order of their
tickets, and there are `n` items in a page. -/
def Fits (n : ℕ) (log : List α) : Pc π α → Prop
  | pushAllocate item k | pushSetTail item k _ | pushUnlock item k _ | pushCopy item k _ =>
    log[k]? = some item
  | pushTurn item k p => log[k]? = some item ∧ (p ≠ none ↔ k / nQueue % n = 0)
  | pushLock item k _ | pushReadTail item k _ | pushLink item k _ _ =>
    log[k]? = some item ∧ k / nQueue % n = 0
  | pushLoadTail item k => log[k]? = some item ∧ k / nQueue % n ≠ 0
  | popLock k _ dst | popReadNext k _ dst | popSetHead k _ _ dst | popSetTail k _ _ dst
  | popUnlock k _ dst | popPublish k _ dst => dst = log[k]? ∧ dst ≠ none
  | popFree _ dst => dst ≠ none
  | fault => False
  | _ => True

/-- The log behind a step. -/
def logs : Pc π α → List α → List α
  | fetchTail item, log => log ++ [item]
  | _, log => log

theorem Fits.append {n : ℕ} {log : List α} {p : Pc π α} (h : p.Fits n log) (x : α) :
    p.Fits n (log ++ [x]) := by
  -- an item that has been logged stays where it is
  have hsome : ∀ {k : ℕ} {y : α}, log[k]? = some y → (log ++ [x])[k]? = some y := by
    intro k y hk
    obtain ⟨hlt, -⟩ := List.getElem?_eq_some_iff.mp hk
    rwa [List.getElem?_append_left hlt]
  have hdst : ∀ {k : ℕ} {dst : Option α}, dst = log[k]? ∧ dst ≠ none →
      dst = (log ++ [x])[k]? ∧ dst ≠ none := by
    rintro k dst ⟨hk, hne⟩
    obtain ⟨y, rfl⟩ := Option.ne_none_iff_exists'.mp hne
    exact ⟨(hsome hk.symm).symm, hne⟩
  -- the program points that speak of one item, of an item and its page, and of a popped item
  cases p with
  | pushAllocate | pushSetTail | pushUnlock | pushCopy => exact hsome h
  | pushTurn | pushLock | pushReadTail | pushLink | pushLoadTail => exact ⟨hsome h.1, h.2⟩
  | popLock | popReadNext | popSetHead | popSetTail | popUnlock | popPublish => exact hdst h
  | popFree => exact h
  | fault => exact h
  | _ => trivial

theorem owns_of_opens {p : Pc π α} {q : π} (h : p.opens = some q) : p.owns = some q := by
  cases p with
  | popFree => simp [opens] at h
  | _ => exact h

end Pc

namespace ConcurrentQueue

variable {τ π α : Type*} {s s' : ConcurrentQueue τ π α}

/-- The phase of the push that is in turn at micro queue `i`. -/
noncomputable def pushPhase (s : ConcurrentQueue τ π α) (i : Fin nQueue) : PushPhase π :=
  roleAt (fun t => (s.pc t).pushLane) (fun t => (s.pc t).pushPhase) .before i

/-- The phase of the pop that is in turn at micro queue `i`. -/
noncomputable def popPhase (s : ConcurrentQueue τ π α) (i : Fin nQueue) : PopPhase π :=
  roleAt (fun t => (s.pc t).popLane) (fun t => (s.pc t).popPhase) .before i

/-- Page number `x` of micro queue `i` is linked, and not yet given back. -/
def InUse (n : ℕ) (s : ConcurrentQueue τ π α) (i : Fin nQueue) (x : ℕ) : Prop :=
  s.popped i / n ≤ x ∧ x < reach n (s.pushed i) (s.pushPhase i).linkStep

/-- Whose a page is. -/
inductive Owner (τ : Type*) where
  /-- page number `x` of micro queue `i` -/
  | queue (i : Fin nQueue) (x : ℕ)
  | thread (t : τ)

/-- What the state does not tell: the items pushed so far in the order of their tickets, and
which pages have been and are whose. -/
structure Ghost (τ π α : Type*) where
  log : List α
  page : Fin nQueue → ℕ → π
  owner : π → Option (Owner τ)

/-- The invariant of the pages. -/
structure Pages (itemSize : ℕ) (s : ConcurrentQueue τ π α) (g : Ghost τ π α) : Prop where
  log_length : g.log.length = s.tailCounter
  queue : ∀ i, QueueOk (itemsPerPage itemSize) (fun j => g.log[ticket i j]?) (g.page i) s.heap
    (s.array i) (s.popped i) (s.pushed i) (s.pushPhase i) (s.popPhase i)
  fits : ∀ t, (s.pc t).Fits (itemsPerPage itemSize) g.log
  fresh : ∀ t p, (s.pc t).opens = some p → s.heap p = some freshPage
  owned : ∀ p, s.heap p = none ↔ g.owner p = none
  owned_queue : ∀ p i x, g.owner p = some (.queue i x) ↔
    s.InUse (itemsPerPage itemSize) i x ∧ g.page i x = p
  owned_thread : ∀ p t, g.owner p = some (.thread t) ↔ (s.pc t).owns = some p
  valid : s.nInvalidEntries = 0

/-! ## Who is in turn -/

section Turns

theorem Turns.push_exclusive (h : Turns s) : Exclusive fun t => (s.pc t).pushLane := by
  intro t u i ht hu
  -- two tickets in turn at one micro queue would be the same
  obtain ⟨k, hk, rfl⟩ := Option.map_eq_some_iff.mp ht
  obtain ⟨k', hk', hlane⟩ := Option.map_eq_some_iff.mp hu
  exact h.push.exclusive hk hk' hlane.symm

theorem Turns.pop_exclusive (h : Turns s) : Exclusive fun t => (s.pc t).popLane := by
  intro t u i ht hu
  obtain ⟨k, hk, rfl⟩ := Option.map_eq_some_iff.mp ht
  obtain ⟨k', hk', hlane⟩ := Option.map_eq_some_iff.mp hu
  exact h.pop.exclusive hk hk' hlane.symm

theorem Turns.pushPhase_eq (h : Turns s) {t : τ} {i : Fin nQueue}
    (ht : (s.pc t).pushLane = some i) : s.pushPhase i = (s.pc t).pushPhase :=
  roleAt_eq h.push_exclusive ht

theorem Turns.popPhase_eq (h : Turns s) {t : τ} {i : Fin nQueue}
    (ht : (s.pc t).popLane = some i) : s.popPhase i = (s.pc t).popPhase :=
  roleAt_eq h.pop_exclusive ht

/-- The push in turn changes the list only while it has the mutex. -/
theorem Turns.pushPhase_changing (h : Turns s) {i : Fin nQueue}
    (hi : (s.pushPhase i).changing = true) :
    ∃ t, (s.pc t).pushLane = some i ∧ (s.array i).pageMutex = some t := by
  -- a phase other than `before` is that of some thread in turn
  have hne : s.pushPhase i ≠ .before := by
    intro hbefore
    rw [hbefore] at hi
    simp [PushPhase.changing] at hi
  obtain ⟨t, ht⟩ := exists_of_roleAt_ne hne
  refine ⟨t, ht, (h.mutex i t).mpr ?_⟩
  rw [h.pushPhase_eq ht] at hi
  -- at the points at which the list changes the thread has the mutex
  cases hp : s.pc t <;> simp_all [Pc.pushPhase, PushPhase.changing, Pc.locked, Pc.pushLane,
    Pc.stage, Stage.pushTurn]

/-- So does the pop in turn. -/
theorem Turns.popPhase_changing (h : Turns s) {i : Fin nQueue}
    (hi : (s.popPhase i).changing = true) :
    ∃ t, (s.pc t).popLane = some i ∧ (s.array i).pageMutex = some t := by
  have hne : s.popPhase i ≠ .before := by
    intro hbefore
    rw [hbefore] at hi
    simp [PopPhase.changing] at hi
  obtain ⟨t, ht⟩ := exists_of_roleAt_ne hne
  refine ⟨t, ht, (h.mutex i t).mpr ?_⟩
  rw [h.popPhase_eq ht] at hi
  -- the mutex has been given back at `popPublish`, where the list does not change any more
  cases hp : s.pc t with
  | popPublish k p dst =>
    cases p <;> simp_all [Pc.popPhase, PopPhase.changing]
  | _ => simp_all [Pc.popPhase, PopPhase.changing, Pc.locked, Pc.popLane, Pc.stage,
      Stage.popTurn]

variable [DecidableEq τ]

/-- A lane with which the step of thread `t` has nothing to do. -/
theorem Turns.pushPhase_other (h : Turns s) {t : τ} {p : Pc π α} (h' : Turns (s'.goto t p))
    (hpc : s'.pc = s.pc) {i : Fin nQueue} (hbefore : (s.pc t).pushLane ≠ some i)
    (hafter : p.pushLane ≠ some i) : (s'.goto t p).pushPhase i = s.pushPhase i := by
  have hex := h'.push_exclusive
  -- the thread is not in turn here, neither before nor after the step
  simp only [pushPhase, goto, hpc] at hex ⊢
  exact roleAt_move_other h.push_exclusive hex hbefore hafter

theorem Turns.popPhase_other (h : Turns s) {t : τ} {p : Pc π α} (h' : Turns (s'.goto t p))
    (hpc : s'.pc = s.pc) {i : Fin nQueue} (hbefore : (s.pc t).popLane ≠ some i)
    (hafter : p.popLane ≠ some i) : (s'.goto t p).popPhase i = s.popPhase i := by
  have hex := h'.pop_exclusive
  simp only [popPhase, goto, hpc] at hex ⊢
  exact roleAt_move_other h.pop_exclusive hex hbefore hafter

/-- The lane at which thread `t` is in turn afterwards. -/
theorem Turns.pushPhase_self {t : τ} {p : Pc π α} (h' : Turns (s'.goto t p)) {i : Fin nQueue}
    (hafter : p.pushLane = some i) : (s'.goto t p).pushPhase i = p.pushPhase :=
  roleAt_move_self h'.push_exclusive hafter

theorem Turns.popPhase_self {t : τ} {p : Pc π α} (h' : Turns (s'.goto t p)) {i : Fin nQueue}
    (hafter : p.popLane = some i) : (s'.goto t p).popPhase i = p.popPhase :=
  roleAt_move_self h'.pop_exclusive hafter

/-- The lane that thread `t` leaves. -/
theorem Turns.pushPhase_left (h : Turns s) {t : τ} {p : Pc π α} (hpc : s'.pc = s.pc)
    {i : Fin nQueue} (hbefore : (s.pc t).pushLane = some i) (hafter : p.pushLane = none) :
    (s'.goto t p).pushPhase i = .before := by
  simp only [pushPhase, goto, hpc]
  exact roleAt_move_left h.push_exclusive hbefore hafter

theorem Turns.popPhase_left (h : Turns s) {t : τ} {p : Pc π α} (hpc : s'.pc = s.pc)
    {i : Fin nQueue} (hbefore : (s.pc t).popLane = some i) (hafter : p.popLane = none) :
    (s'.goto t p).popPhase i = .before := by
  simp only [popPhase, goto, hpc]
  exact roleAt_move_left h.pop_exclusive hbefore hafter

/-- A thread that enters a lane finds it idle. -/
theorem Turns.pushPhase_entered {t : τ} {p : Pc π α} (h' : Turns (s'.goto t p))
    (hpc : s'.pc = s.pc) {i : Fin nQueue} (hbefore : (s.pc t).pushLane = none)
    (hafter : p.pushLane = some i) : s.pushPhase i = .before := by
  have hex := h'.push_exclusive
  -- another thread in turn would still be in turn after the step, together with this one
  simp only [goto, hpc] at hex
  exact roleAt_move_entered hex hbefore hafter

theorem Turns.popPhase_entered {t : τ} {p : Pc π α} (h' : Turns (s'.goto t p))
    (hpc : s'.pc = s.pc) {i : Fin nQueue} (hbefore : (s.pc t).popLane = none)
    (hafter : p.popLane = some i) : s.popPhase i = .before := by
  have hex := h'.pop_exclusive
  simp only [goto, hpc] at hex
  exact roleAt_move_entered hex hbefore hafter

end Turns

/-! ## Steps that leave the pages with their owners -/

section Steps

variable {itemSize : ℕ} {g : Ghost τ π α} {t : τ} {p : Pc π α}

/-- No two pages in use have one address. -/
theorem Pages.distinct (P : Pages itemSize s g) (i : Fin nQueue) :
    QueueOk.Distinct (g.page i) (s.popped i / itemsPerPage itemSize)
      (reach (itemsPerPage itemSize) (s.pushed i) (s.pushPhase i).linkStep) := by
  intro x y hx hx' hy hy' heq
  -- an address has one owner, and the owner tells the number of the page
  have hox := (P.owned_queue _ i x).mpr ⟨⟨hx, hx'⟩, rfl⟩
  have hoy := (P.owned_queue _ i y).mpr ⟨⟨hy, hy'⟩, rfl⟩
  rw [heq, hoy] at hox
  simpa using hox.symm

/-- A page in use belongs to its micro queue. -/
theorem Pages.owner_page (P : Pages itemSize s g) {i : Fin nQueue} {x : ℕ}
    (hx : s.InUse (itemsPerPage itemSize) i x) : g.owner (g.page i x) = some (.queue i x) :=
  (P.owned_queue _ i x).mpr ⟨hx, rfl⟩

/-- The micro queue of the thread whose turn it is to push. -/
theorem Pages.push_queue (P : Pages itemSize s g) (T : Turns s) {k : ℕ}
    (ht : (s.pc t).stage = .pushes k) :
    QueueOk (itemsPerPage itemSize) (fun j => g.log[ticket (index k) j]?) (g.page (index k))
      s.heap (s.array (index k)) (s.popped (index k)) (k / nQueue) (s.pc t).pushPhase
      (s.popPhase (index k)) := by
  have hlane : (s.pc t).pushLane = some (index k) := by simp [Pc.pushLane, ht, Stage.pushTurn]
  -- the turn is that of the ticket, so as many items have been pushed as come before it
  have hplace : s.pushed (index k) = k / nQueue :=
    T.push.place_eq t k (by simp [ht, Stage.pushTurn])
  rw [← T.pushPhase_eq hlane, ← hplace]
  exact P.queue (index k)

/-- The micro queue of the thread whose turn it is to pop. -/
theorem Pages.pop_queue (P : Pages itemSize s g) (T : Turns s) {k : ℕ}
    (ht : (s.pc t).stage.popTurn = some k) :
    QueueOk (itemsPerPage itemSize) (fun j => g.log[ticket (index k) j]?) (g.page (index k))
      s.heap (s.array (index k)) (k / nQueue) (s.pushed (index k)) (s.pushPhase (index k))
      (s.pc t).popPhase := by
  have hlane : (s.pc t).popLane = some (index k) := by simp [Pc.popLane, ht]
  have hplace : s.popped (index k) = k / nQueue := T.pop.place_eq t k ht
  rw [← T.popPhase_eq hlane, ← hplace]
  exact P.queue (index k)

variable (s') in
/-- A micro queue with which the step has nothing to do. -/
theorem Pages.frame (P : Pages itemSize s g) {i : Fin nQueue} (harray : s'.array i = s.array i)
    (hpush : s'.pushPhase i = s.pushPhase i) (hpop : s'.popPhase i = s.popPhase i)
    (hheap : ∀ x, s.InUse (itemsPerPage itemSize) i x →
      s'.heap (g.page i x) = s.heap (g.page i x)) :
    QueueOk (itemsPerPage itemSize) (fun j => g.log[ticket i j]?) (g.page i) s'.heap
        (s'.array i) (s'.popped i) (s'.pushed i) (s'.pushPhase i) (s'.popPhase i) ∧
      ∀ x, s'.InUse (itemsPerPage itemSize) i x ↔ s.InUse (itemsPerPage itemSize) i x := by
  have hpopped : s'.popped i = s.popped i := by rw [popped, popped, harray]
  have hpushed : s'.pushed i = s.pushed i := by rw [pushed, pushed, harray]
  rw [harray, hpopped, hpushed, hpush, hpop]
  -- nothing of the micro queue has changed, and its pages hold what they held
  refine ⟨(P.queue i).congr_heap (itemsPerPage_pos itemSize) fun x hx hx' => hheap x ⟨hx, hx'⟩,
    fun x => ?_⟩
  unfold InUse
  rw [hpopped, hpushed, hpush]

variable [DecidableEq τ]

/-- Every micro queue is in order behind the step, the same pages are in use, and the thread
has the page that it had. -/
theorem Pages.keep (P : Pages itemSize s g) (hpc : s'.pc = s.pc)
    (htail : s'.tailCounter = s.tailCounter) (hvalid : s'.nInvalidEntries = s.nInvalidEntries)
    (hqueue : ∀ i, QueueOk (itemsPerPage itemSize) (fun j => g.log[ticket i j]?) (g.page i)
      s'.heap (s'.array i) (s'.popped i) (s'.pushed i) ((s'.goto t p).pushPhase i)
      ((s'.goto t p).popPhase i))
    (huse : ∀ i x, (s'.goto t p).InUse (itemsPerPage itemSize) i x ↔
      s.InUse (itemsPerPage itemSize) i x)
    (halloc : ∀ q, s'.heap q = none ↔ s.heap q = none)
    (hheap : ∀ q u, g.owner q = some (.thread u) → s'.heap q = s.heap q)
    (howns : p.owns = (s.pc t).owns) (hopens : ∀ q, p.opens = some q → (s.pc t).opens = some q)
    (hfits : p.Fits (itemsPerPage itemSize) g.log) : Pages itemSize (s'.goto t p) g where
  log_length := P.log_length.trans htail.symm
  queue := hqueue
  fits u := by
    -- the thread that takes the step, or another one
    rcases eq_or_ne u t with rfl | hne
    · simpa [goto] using hfits
    · simpa [goto, Function.update_of_ne hne, hpc] using P.fits u
  fresh u q hu := by
    have hu' : (s.pc u).opens = some q := by
      rcases eq_or_ne u t with rfl | hne
      · exact hopens q (by simpa [goto] using hu)
      · simpa [goto, Function.update_of_ne hne, hpc] using hu
    -- an unlinked page belongs to its thread, and nobody else has written to it
    have howner : g.owner q = some (.thread u) := by
      rw [P.owned_thread]
      exact Pc.owns_of_opens hu'
    exact (hheap q u howner).trans (P.fresh u q hu')
  owned q := (halloc q).trans (P.owned q)
  owned_queue q i x := by
    rw [P.owned_queue, huse]
  owned_thread q u := by
    rw [P.owned_thread]
    rcases eq_or_ne u t with rfl | hne
    · simp [goto, howns]
    · simp [goto, Function.update_of_ne hne, hpc]
  valid := hvalid.trans P.valid

/-- A thread takes a step that touches no page, at lanes that are idle afterwards as
before. -/
theorem Pages.idleStep (P : Pages itemSize s g) (T : Turns s) (T' : Turns (s'.goto t p))
    (hpc : s'.pc = s.pc) (harray : s'.array = s.array) (hheap : s'.heap = s.heap)
    (htail : s'.tailCounter = s.tailCounter) (hvalid : s'.nInvalidEntries = s.nInvalidEntries)
    (hpush : (s.pc t).pushLane = none ∧ p.pushPhase = .before)
    (hpop : p.popLane = (s.pc t).popLane ∧ p.popPhase = (s.pc t).popPhase ∨
      (s.pc t).popLane = none ∧ p.popPhase = .before)
    (howns : p.owns = (s.pc t).owns) (hopens : p.opens = (s.pc t).opens)
    (hfits : p.Fits (itemsPerPage itemSize) g.log) : Pages itemSize (s'.goto t p) g := by
  -- a lane that the thread enters was idle, and is so still
  have hpushPhase : ∀ i, (s'.goto t p).pushPhase i = s.pushPhase i := by
    intro i
    by_cases hafter : p.pushLane = some i
    · rw [T'.pushPhase_self hafter, T'.pushPhase_entered hpc hpush.1 hafter, hpush.2]
    · exact T.pushPhase_other T' hpc (by simp [hpush.1]) hafter
  have hpopPhase : ∀ i, (s'.goto t p).popPhase i = s.popPhase i := by
    intro i
    -- at the pop lane the thread may stay, in the same phase
    by_cases hafter : p.popLane = some i
    · rw [T'.popPhase_self hafter]
      rcases hpop with ⟨hlane, hphase⟩ | ⟨hlane, hphase⟩
      · rw [T.popPhase_eq (hlane ▸ hafter), hphase]
      · rw [T'.popPhase_entered hpc hlane hafter, hphase]
    · refine T.popPhase_other T' hpc ?_ hafter
      rcases hpop with ⟨hlane, -⟩ | ⟨hlane, -⟩
      · rwa [← hlane]
      · simp [hlane]
  have hframe := fun i => P.frame (s'.goto t p) (i := i) (congrFun harray i)
    (hpushPhase i) (hpopPhase i) fun x _ => congrFun hheap _
  exact P.keep hpc htail hvalid (fun i => (hframe i).1) (fun i => (hframe i).2)
    (fun q => by rw [hheap]) (fun q u _ => congrFun hheap q) howns (by simp [hopens]) hfits

/-- What the write of thread `t` to its micro queue may change: nothing of the others. -/
structure Local (s s' : ConcurrentQueue τ π α) (g : Ghost τ π α) (i₀ : Fin nQueue) : Prop where
  pc : s'.pc = s.pc
  tail : s'.tailCounter = s.tailCounter
  valid : s'.nInvalidEntries = s.nInvalidEntries
  array : ∀ i, i ≠ i₀ → s'.array i = s.array i
  popped : s'.popped = s.popped
  pushed : s'.pushed = s.pushed
  alloc : ∀ q, s'.heap q = none ↔ s.heap q = none
  heap : ∀ q, (∀ x, g.owner q ≠ some (.queue i₀ x)) → s'.heap q = s.heap q

/-- A thread whose turn it is to push takes a step at its micro queue. -/
theorem Pages.pushStep (P : Pages itemSize s g) (T : Turns s) (T' : Turns (s'.goto t p))
    {k : ℕ} (hlocal : Local s s' g (index k)) (hbefore : (s.pc t).stage = .pushes k)
    (hafter : p.stage = .pushes k)
    (hok : QueueOk (itemsPerPage itemSize) (fun j => g.log[ticket (index k) j]?)
      (g.page (index k)) s'.heap (s'.array (index k)) (s.popped (index k)) (k / nQueue)
      p.pushPhase (s.popPhase (index k)))
    (hreach : reach (itemsPerPage itemSize) (k / nQueue) p.pushPhase.linkStep =
      reach (itemsPerPage itemSize) (k / nQueue) (s.pc t).pushPhase.linkStep)
    (howns : p.owns = (s.pc t).owns) (hopens : p.opens = (s.pc t).opens)
    (hfits : p.Fits (itemsPerPage itemSize) g.log) : Pages itemSize (s'.goto t p) g := by
  have hlane : (s.pc t).pushLane = some (index k) := by
    simp [Pc.pushLane, hbefore, Stage.pushTurn]
  have hlane' : p.pushLane = some (index k) := by simp [Pc.pushLane, hafter, Stage.pushTurn]
  have hplace : s.pushed (index k) = k / nQueue :=
    T.push.place_eq t k (by simp [hbefore, Stage.pushTurn])
  -- no pop changes, and no other micro queue does
  have hpopPhase : ∀ i, (s'.goto t p).popPhase i = s.popPhase i := fun i =>
    T.popPhase_other T' hlocal.pc (by simp [Pc.popLane, hbefore, Stage.popTurn])
      (by simp [Pc.popLane, hafter, Stage.popTurn])
  have hframe : ∀ i, i ≠ index k → _ := fun i hi =>
    P.frame (s'.goto t p) (i := i) (hlocal.array i hi)
      (T.pushPhase_other T' hlocal.pc (by simpa [hlane] using hi.symm)
        (by simpa [hlane'] using hi.symm)) (hpopPhase i) fun x hx => hlocal.heap _ fun y => by
          rw [P.owner_page hx]
          simp [hi]
  have hpopped : (s'.goto t p).popped = s.popped := hlocal.popped
  have hpushed : (s'.goto t p).pushed = s.pushed := hlocal.pushed
  apply P.keep hlocal.pc hlocal.tail hlocal.valid
  · intro i
    -- the micro queue of the step is in order by `hok`, the others by the frame
    rcases eq_or_ne i (index k) with rfl | hi
    · change QueueOk _ _ _ _ _ ((s'.goto t p).popped _) ((s'.goto t p).pushed _) _ _
      rw [hpopped, hpushed, hplace, T'.pushPhase_self hlane', hpopPhase]
      exact hok
    · exact (hframe i hi).1
  · intro i x
    -- as many pages can be reached as before
    rcases eq_or_ne i (index k) with rfl | hi
    · unfold InUse
      rw [hpopped, hpushed, hplace, T'.pushPhase_self hlane', T.pushPhase_eq hlane, hreach]
    · exact (hframe i hi).2 x
  · exact hlocal.alloc
  · exact fun q u hq => hlocal.heap q fun x => by simp [hq]
  · exact howns
  · simp [hopens]
  · exact hfits

/-- A thread whose turn it is to pop takes a step at its micro queue. -/
theorem Pages.popStep (P : Pages itemSize s g) (T : Turns s) (T' : Turns (s'.goto t p))
    {k : ℕ} (hlocal : Local s s' g (index k)) (hbefore : (s.pc t).stage.popTurn = some k)
    (hafter : p.stage = .pops k) (hpush : (s.pc t).pushLane = none)
    (hok : QueueOk (itemsPerPage itemSize) (fun j => g.log[ticket (index k) j]?)
      (g.page (index k)) s'.heap (s'.array (index k)) (k / nQueue) (s.pushed (index k))
      (s.pushPhase (index k)) p.popPhase)
    (howns : p.owns = (s.pc t).owns) (hopens : p.opens = (s.pc t).opens)
    (hfits : p.Fits (itemsPerPage itemSize) g.log) : Pages itemSize (s'.goto t p) g := by
  have hlane : (s.pc t).popLane = some (index k) := by simp [Pc.popLane, hbefore]
  have hlane' : p.popLane = some (index k) := by simp [Pc.popLane, hafter, Stage.popTurn]
  have hplace : s.popped (index k) = k / nQueue := T.pop.place_eq t k hbefore
  -- no push changes, and no other micro queue does
  have hpushPhase : ∀ i, (s'.goto t p).pushPhase i = s.pushPhase i := fun i =>
    T.pushPhase_other T' hlocal.pc (by simp [hpush])
      (by simp [Pc.pushLane, hafter, Stage.pushTurn])
  have hframe : ∀ i, i ≠ index k → _ := fun i hi =>
    P.frame (s'.goto t p) (i := i) (hlocal.array i hi) (hpushPhase i)
      (T.popPhase_other T' hlocal.pc (by simpa [hlane] using hi.symm)
        (by simpa [hlane'] using hi.symm)) fun x hx => hlocal.heap _ fun y => by
          rw [P.owner_page hx]
          simp [hi]
  have hpopped : (s'.goto t p).popped = s.popped := hlocal.popped
  have hpushed : (s'.goto t p).pushed = s.pushed := hlocal.pushed
  apply P.keep hlocal.pc hlocal.tail hlocal.valid
  · intro i
    rcases eq_or_ne i (index k) with rfl | hi
    · change QueueOk _ _ _ _ _ ((s'.goto t p).popped _) ((s'.goto t p).pushed _) _ _
      rw [hpopped, hpushed, hplace, T'.popPhase_self hlane', hpushPhase]
      exact hok
    · exact (hframe i hi).1
  · intro i x
    -- which pages are in use depends on the pushes and on the items popped only
    unfold InUse
    rw [hpopped, hpushed, hpushPhase]
  · exact hlocal.alloc
  · exact fun q u hq => hlocal.heap q fun x => by simp [hq]
  · exact howns
  · simp [hopens]
  · exact hfits

end Steps

end ConcurrentQueue

end StringSampleSort.Tbb
