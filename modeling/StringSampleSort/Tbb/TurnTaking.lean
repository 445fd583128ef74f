import StringSampleSort.Library.TicketLock
import StringSampleSort.Tbb.ConcurrentQueue

/-!
# Turn taking in the concurrent queue

The counters of a micro queue are two ticket locks, one for the pushes and one for the
pops: `spin_wait_until_my_turn` and `spin_wait_until_eq` wait for the turn of a ticket, and
the store into the counter behind it hands the turn on.

## Main results

- `ConcurrentQueue.Turns`: what the counters and mutexes say in every reachable state
- `ConcurrentQueue.Turns.step`: every step keeps it
-/

namespace StringSampleSort.Tbb

open Library

/-- The lanes are the micro queues. -/
def lanes : Lanes (Fin nQueue) where
  lane := index
  place k := k / nQueue
  ticket := ticket
  lane_ticket := index_ticket
  place_ticket := ticket_div
  ticket_lane := ticket_index
  ticket_lt _ _ _ := ticket_lt_ticket

/-! ## Stages of a call -/

/-- How far a call has come with its ticket. -/
inductive Stage where
  | outside
  | pushWaits (k : ℕ)
  | pushes (k : ℕ)
  | popWaits (k : ℕ)
  /-- in turn, and the item may not be there yet -/
  | popAwaits (k : ℕ)
  /-- in turn, and the item is there -/
  | pops (k : ℕ)

namespace Stage

def pushTicket : Stage → Option ℕ
  | pushWaits k | pushes k => some k
  | _ => none

def pushTurn : Stage → Option ℕ
  | pushes k => some k
  | _ => none

def popTicket : Stage → Option ℕ
  | popWaits k | popAwaits k | pops k => some k
  | _ => none

def popTurn : Stage → Option ℕ
  | popAwaits k | pops k => some k
  | _ => none

end Stage

namespace Pc

variable {π α : Type*}

/-- The stage of a program point. -/
def stage : Pc π α → Stage
  | pushAllocate _ k | pushTurn _ k _ => .pushWaits k
  | pushLock _ k _ | pushReadTail _ k _ | pushLink _ k _ _ | pushSetTail _ k _
  | pushUnlock _ k _ | pushLoadTail _ k | pushCopy _ k _ | pushMask k _ | pushPublish k =>
    .pushes k
  | popTurn k => .popWaits k
  | popFilled k => .popAwaits k
  | popPage k | popMask k _ | popItem k _ | popLock k _ _ | popReadNext k _ _
  | popSetHead k _ _ _ | popSetTail k _ _ _ | popUnlock k _ _ | popPublish k _ _ => .pops k
  | _ => .outside

/-- The micro queue whose `page_mutex` the thread holds. -/
def locked : Pc π α → Option (Fin nQueue)
  | pushReadTail _ k _ | pushLink _ k _ _ | pushSetTail _ k _ | pushUnlock _ k _
  | popReadNext k _ _ | popSetHead k _ _ _ | popSetTail k _ _ _ | popUnlock k _ _ =>
    some (index k)
  | _ => none

/-- What a thread has read of the two counters still bounds them. -/
def Snapshot (head tail : ℕ) : Pc π α → Prop
  | popTail k => k ≤ head
  | popCas k => k ≤ head ∧ k < tail
  | emptyHead tc => tc ≤ tail
  | emptyCheck tc hc | emptyInvalid tc hc => tc ≤ tail ∧ hc ≤ head
  | _ => True

theorem Snapshot.mono {head tail head' tail' : ℕ} (hh : head ≤ head') (ht : tail ≤ tail')
    {p : Pc π α} (h : p.Snapshot head tail) : p.Snapshot head' tail' := by
  cases p with
  | popTail k => exact le_trans h hh
  | popCas k => exact ⟨h.1.trans hh, h.2.trans_le ht⟩
  | emptyHead tc => exact le_trans h ht
  | emptyCheck tc hc => exact ⟨h.1.trans ht, h.2.trans hh⟩
  | emptyInvalid tc hc => exact ⟨h.1.trans ht, h.2.trans hh⟩
  | _ => trivial

@[simp] theorem stage_finalize (itemSize k : ℕ) (p : π) (dst : Option α) :
    (ConcurrentQueue.finalize itemSize k p dst).stage = .pops k := by
  unfold ConcurrentQueue.finalize
  split <;> rfl

@[simp] theorem locked_finalize (itemSize k : ℕ) (p : π) (dst : Option α) :
    (ConcurrentQueue.finalize itemSize k p dst).locked = none := by
  unfold ConcurrentQueue.finalize
  split <;> rfl

@[simp] theorem snapshot_finalize (itemSize k : ℕ) (p : π) (dst : Option α) (head tail : ℕ) :
    (ConcurrentQueue.finalize itemSize k p dst).Snapshot head tail := by
  unfold ConcurrentQueue.finalize
  split <;> trivial

@[simp] theorem stage_afterPop (dst : Option α) :
    (ConcurrentQueue.afterPop dst : Pc π α).stage = .outside := by
  cases dst <;> rfl

@[simp] theorem locked_afterPop (dst : Option α) :
    (ConcurrentQueue.afterPop dst : Pc π α).locked = none := by
  cases dst <;> rfl

@[simp] theorem snapshot_afterPop (dst : Option α) (head tail : ℕ) :
    (ConcurrentQueue.afterPop dst : Pc π α).Snapshot head tail := by
  cases dst <;> trivial

@[simp] theorem stage_afterPublish (p : Option π) (dst : Option α) :
    (ConcurrentQueue.afterPublish p dst).stage = .outside := by
  cases p
  · exact stage_afterPop dst
  · rfl

@[simp] theorem locked_afterPublish (p : Option π) (dst : Option α) :
    (ConcurrentQueue.afterPublish p dst).locked = none := by
  cases p
  · exact locked_afterPop dst
  · rfl

@[simp] theorem snapshot_afterPublish (p : Option π) (dst : Option α) (head tail : ℕ) :
    (ConcurrentQueue.afterPublish p dst).Snapshot head tail := by
  cases p
  · exact snapshot_afterPop dst head tail
  · trivial

end Pc

namespace ConcurrentQueue

variable {τ π α : Type*} {s s' : ConcurrentQueue τ π α}

/-! ## The invariant -/

/-- How many items have been pushed into micro queue `i` and published. -/
def pushed (s : ConcurrentQueue τ π α) (i : Fin nQueue) : ℕ :=
  (s.array i).tailCounter / nQueue

/-- How many items of micro queue `i` have been popped. -/
def popped (s : ConcurrentQueue τ π α) (i : Fin nQueue) : ℕ :=
  (s.array i).headCounter / nQueue

/-- What holds of the counters in every reachable state. -/
structure Turns (s : ConcurrentQueue τ π α) : Prop where
  tail_dvd : ∀ i, nQueue ∣ (s.array i).tailCounter
  head_dvd : ∀ i, nQueue ∣ (s.array i).headCounter
  push : TicketLock lanes s.tailCounter s.pushed (fun t => (s.pc t).stage.pushTicket)
    (fun t => (s.pc t).stage.pushTurn)
  pop : TicketLock lanes s.headCounter s.popped (fun t => (s.pc t).stage.popTicket)
    (fun t => (s.pc t).stage.popTurn)
  head_le : s.headCounter ≤ s.tailCounter
  filled : ∀ t k, (s.pc t).stage = .pops k → k / nQueue < s.pushed (index k)
  popped_le : ∀ i, s.popped i ≤ s.pushed i
  snapshot : ∀ t, (s.pc t).Snapshot s.headCounter s.tailCounter
  mutex : ∀ i t, (s.array i).pageMutex = some t ↔ (s.pc t).locked = some i

/-- All counters of `s'` are those of `s`. -/
structure SameCounters (s s' : ConcurrentQueue τ π α) : Prop where
  head : s'.headCounter = s.headCounter
  tail : s'.tailCounter = s.tailCounter
  micro : ∀ i, (s'.array i).headCounter = (s.array i).headCounter ∧
    (s'.array i).tailCounter = (s.array i).tailCounter

theorem SameCounters.refl (s : ConcurrentQueue τ π α) : SameCounters s s :=
  ⟨rfl, rfl, fun _ => ⟨rfl, rfl⟩⟩

theorem SameCounters.pushed_eq (h : SameCounters s s') : s'.pushed = s.pushed := by
  funext i
  rw [pushed, pushed, (h.micro i).2]

theorem SameCounters.popped_eq (h : SameCounters s s') : s'.popped = s.popped := by
  funext i
  rw [popped, popped, (h.micro i).1]

/-- Only pages or the mutex of a micro queue change. -/
theorem sameCounters_setMicro {k : ℕ} {m : MicroQueue τ π}
    (hhead : m.headCounter = (s.choose k).headCounter)
    (htail : m.tailCounter = (s.choose k).tailCounter) : SameCounters s (s.setMicro k m) where
  head := rfl
  tail := rfl
  micro i := by
    rcases eq_or_ne i (index k) with rfl | hne
    · simp only [setMicro, Function.update_self]
      exact ⟨hhead, htail⟩
    · simp [setMicro, Function.update_of_ne hne]

theorem pushed_setMicro (s : ConcurrentQueue τ π α) (k : ℕ) (m : MicroQueue τ π) :
    (s.setMicro k m).pushed =
      Function.update s.pushed (index k) (m.tailCounter / nQueue) := by
  funext i
  rcases eq_or_ne i (index k) with rfl | hne
  · simp [pushed, setMicro]
  · simp [pushed, setMicro, Function.update_of_ne hne]

theorem popped_setMicro (s : ConcurrentQueue τ π α) (k : ℕ) (m : MicroQueue τ π) :
    (s.setMicro k m).popped =
      Function.update s.popped (index k) (m.headCounter / nQueue) := by
  funext i
  rcases eq_or_ne i (index k) with rfl | hne
  · simp [popped, setMicro]
  · simp [popped, setMicro, Function.update_of_ne hne]

theorem pushed_setMicro_of_eq {k : ℕ} {m : MicroQueue τ π}
    (h : m.tailCounter = (s.choose k).tailCounter) : (s.setMicro k m).pushed = s.pushed := by
  rw [pushed_setMicro, h]
  exact Function.update_eq_self _ _

theorem popped_setMicro_of_eq {k : ℕ} {m : MicroQueue τ π}
    (h : m.headCounter = (s.choose k).headCounter) : (s.setMicro k m).popped = s.popped := by
  rw [popped_setMicro, h]
  exact Function.update_eq_self _ _

/-- What holds of all micro queues and of the new one holds of all afterwards. -/
theorem forall_setMicro {P : MicroQueue τ π → Prop} (h : ∀ i, P (s.array i)) {k : ℕ}
    {m : MicroQueue τ π} (hm : P m) (i : Fin nQueue) : P ((s.setMicro k m).array i) := by
  rcases eq_or_ne i (index k) with rfl | hne
  · simpa [setMicro] using hm
  · simpa [setMicro, Function.update_of_ne hne] using h i

theorem mutex_setMicro {k : ℕ} {m : MicroQueue τ π}
    (h : m.pageMutex = (s.choose k).pageMutex) (i : Fin nQueue) :
    ((s.setMicro k m).array i).pageMutex = (s.array i).pageMutex := by
  rcases eq_or_ne i (index k) with rfl | hne
  · simpa [setMicro, choose] using h
  · simp [setMicro, Function.update_of_ne hne]

private theorem le_update_succ (f : Fin nQueue → ℕ) (i j : Fin nQueue) :
    f j ≤ Function.update f i (f i + 1) j := by
  rcases eq_or_ne j i with rfl | hne
  · simp
  · simp [Function.update_of_ne hne]

variable [DecidableEq τ]

/-- What a function of the stages is behind a step of thread `t`. -/
theorem stage_goto {t : τ} {p : Pc π α} (f : Stage → Option ℕ) (hpc : s'.pc = s.pc)
    (hf : f p.stage = f (s.pc t).stage) (u : τ) :
    f ((s'.goto t p).pc u).stage = f (s.pc u).stage := by
  rcases eq_or_ne u t with rfl | hne
  · simpa [goto] using hf
  · simp [goto, Function.update_of_ne hne, hpc]

theorem stage_goto_of_ne {t u : τ} {p : Pc π α} (f : Stage → Option ℕ) (hpc : s'.pc = s.pc)
    (hne : u ≠ t) : f ((s'.goto t p).pc u).stage = f (s.pc u).stage := by
  simp [goto, Function.update_of_ne hne, hpc]

/-- Behind a step of thread `t`, the others are where they were. -/
theorem Turns.snapshot_goto (h : Turns s) {t : τ} {p : Pc π α} (hpc : s'.pc = s.pc)
    (hhead : s.headCounter ≤ s'.headCounter) (htail : s.tailCounter ≤ s'.tailCounter)
    (hp : p.Snapshot s'.headCounter s'.tailCounter) (u : τ) :
    ((s'.goto t p).pc u).Snapshot s'.headCounter s'.tailCounter := by
  rcases eq_or_ne u t with rfl | hne
  · simpa [goto] using hp
  · simpa [goto, Function.update_of_ne hne, hpc] using (h.snapshot u).mono hhead htail

/-- A pop that has seen its item still sees it while the counters grow. -/
theorem Turns.filled_goto (h : Turns s) {t : τ} {p : Pc π α} (hpc : s'.pc = s.pc)
    (hp : ∀ k, p.stage = .pops k → k / nQueue < s.pushed (index k))
    (hpushed : ∀ i, s.pushed i ≤ s'.pushed i) (u : τ) (k : ℕ)
    (hu : ((s'.goto t p).pc u).stage = .pops k) : k / nQueue < s'.pushed (index k) := by
  -- what has been pushed stays pushed
  refine lt_of_lt_of_le ?_ (hpushed _)
  rcases eq_or_ne u t with rfl | hne
  · exact hp k (by simpa [goto] using hu)
  · exact h.filled u k (by simpa [goto, Function.update_of_ne hne, hpc] using hu)

/-- The thread neither takes a mutex nor gives one back. -/
theorem Turns.mutex_goto (h : Turns s) {t : τ} {p : Pc π α} (hpc : s'.pc = s.pc)
    (hmutex : ∀ i, (s'.array i).pageMutex = (s.array i).pageMutex)
    (hlocked : p.locked = (s.pc t).locked) (i : Fin nQueue) (u : τ) :
    ((s'.goto t p).array i).pageMutex = some u ↔ ((s'.goto t p).pc u).locked = some i := by
  change (s'.array i).pageMutex = some u ↔ (Function.update s'.pc t p u).locked = some i
  rw [hmutex, h.mutex, hpc]
  rcases eq_or_ne u t with rfl | hne
  · rw [Function.update_self, hlocked]
  · rw [Function.update_of_ne hne]

/-- The thread stays at its stage, and no counter changes. -/
theorem Turns.same (h : Turns s) (hc : SameCounters s s') {t : τ} {p : Pc π α}
    (hpc : s'.pc = s.pc) (hstage : p.stage = (s.pc t).stage)
    (hsnap : p.Snapshot s.headCounter s.tailCounter)
    (hmutex : ∀ i u, ((s'.goto t p).array i).pageMutex = some u ↔
      ((s'.goto t p).pc u).locked = some i) : Turns (s'.goto t p) := by
  constructor
  · exact fun i => (hc.micro i).2 ▸ h.tail_dvd i
  · exact fun i => (hc.micro i).1 ▸ h.head_dvd i
  · -- a ticket lock knows the stages only by their tickets and turns
    change TicketLock lanes s'.tailCounter s'.pushed _ _
    rw [hc.tail, hc.pushed_eq]
    apply h.push.congr
    · exact stage_goto _ hpc (by rw [hstage])
    · exact stage_goto _ hpc (by rw [hstage])
  · change TicketLock lanes s'.headCounter s'.popped _ _
    rw [hc.head, hc.popped_eq]
    apply h.pop.congr
    · exact stage_goto _ hpc (by rw [hstage])
    · exact stage_goto _ hpc (by rw [hstage])
  · exact hc.head ▸ hc.tail ▸ h.head_le
  · apply h.filled_goto hpc _ fun i => (congrFun hc.pushed_eq i).ge
    intro k hk
    exact h.filled t k (hstage ▸ hk)
  · exact fun i => hc.pushed_eq ▸ hc.popped_eq ▸ h.popped_le i
  · exact h.snapshot_goto hpc hc.head.ge hc.tail.ge (by rw [hc.head, hc.tail]; exact hsnap)
  · exact hmutex

/-- A step that changes nothing but the program point. -/
theorem Turns.move (h : Turns s) {t : τ} {p : Pc π α} (hstage : p.stage = (s.pc t).stage)
    (hlocked : p.locked = (s.pc t).locked) (hsnap : p.Snapshot s.headCounter s.tailCounter) :
    Turns (s.goto t p) :=
  h.same (.refl s) rfl hstage hsnap (h.mutex_goto rfl (fun _ => rfl) hlocked)

/-- A step that changes pages of a micro queue. -/
theorem Turns.moveMicro (h : Turns s) {t : τ} {p : Pc π α} {k : ℕ} {m : MicroQueue τ π}
    (hm : m.headCounter = (s.choose k).headCounter ∧ m.tailCounter = (s.choose k).tailCounter ∧
      m.pageMutex = (s.choose k).pageMutex) (hstage : p.stage = (s.pc t).stage)
    (hlocked : p.locked = (s.pc t).locked) (hsnap : p.Snapshot s.headCounter s.tailCounter) :
    Turns ((s.setMicro k m).goto t p) :=
  h.same (sameCounters_setMicro hm.1 hm.2.1) rfl hstage hsnap
    (h.mutex_goto rfl (mutex_setMicro hm.2.2) hlocked)

/-- A step that changes a page. -/
theorem Turns.movePage [DecidableEq π] (h : Turns s) {t : τ} {p : Pc π α} {q : π}
    {page : Option (Page π α)} (hstage : p.stage = (s.pc t).stage)
    (hlocked : p.locked = (s.pc t).locked) (hsnap : p.Snapshot s.headCounter s.tailCounter) :
    Turns ((s.setPage q page).goto t p) := by
  have hc : SameCounters s (s.setPage q page) := ⟨rfl, rfl, fun _ => ⟨rfl, rfl⟩⟩
  exact h.same hc rfl hstage hsnap (h.mutex_goto rfl (fun _ => rfl) hlocked)

/-- The thread takes a free mutex. -/
theorem Turns.lock (h : Turns s) {t : τ} {p : Pc π α} {k : ℕ}
    (hfree : (s.choose k).pageMutex = none) (hstage : p.stage = (s.pc t).stage)
    (hbefore : (s.pc t).locked = none) (hlocked : p.locked = some (index k))
    (hsnap : p.Snapshot s.headCounter s.tailCounter) :
    Turns ((s.setMicro k { s.choose k with pageMutex := some t }).goto t p) := by
  refine h.same (sameCounters_setMicro (by rfl) (by rfl)) rfl hstage hsnap ?_
  intro i u
  simp only [goto, setMicro]
  rcases eq_or_ne i (index k) with rfl | hi <;> rcases eq_or_ne u t with rfl | hu
  · simp [hlocked]
  · -- nobody else had the mutex
    have hnot : ¬ (s.pc u).locked = some (index k) := by
      rw [← h.mutex, show (s.array (index k)).pageMutex = none from hfree]
      simp
    simp [Function.update_of_ne hu, hnot, Ne.symm hu]
  · have hnot : ¬ (s.array i).pageMutex = some u := by
      rw [h.mutex, hbefore]
      simp
    simp [Function.update_of_ne hi, hlocked, hnot, Ne.symm hi]
  · rw [Function.update_of_ne hi, Function.update_of_ne hu]
    exact h.mutex i u

/-- The thread gives the mutex back. -/
theorem Turns.unlock (h : Turns s) {t : τ} {p : Pc π α} {k : ℕ}
    (hstage : p.stage = (s.pc t).stage) (hbefore : (s.pc t).locked = some (index k))
    (hlocked : p.locked = none) (hsnap : p.Snapshot s.headCounter s.tailCounter) :
    Turns ((s.setMicro k { s.choose k with pageMutex := none }).goto t p) := by
  refine h.same (sameCounters_setMicro (by rfl) (by rfl)) rfl hstage hsnap ?_
  intro i u
  simp only [goto, setMicro]
  rcases eq_or_ne i (index k) with rfl | hi <;> rcases eq_or_ne u t with rfl | hu
  · simp [hlocked]
  · -- the mutex was with `t`
    have hmutex := (h.mutex (index k) t).mpr hbefore
    have hnot : ¬ (s.pc u).locked = some (index k) := by
      rw [← h.mutex, hmutex]
      simpa using Ne.symm hu
    simp [Function.update_of_ne hu, hnot]
  · have hnot : ¬ (s.array i).pageMutex = some u := by
      rw [h.mutex, hbefore]
      simpa using Ne.symm hi
    simp [Function.update_of_ne hi, hlocked, hnot]
  · rw [Function.update_of_ne hi, Function.update_of_ne hu]
    exact h.mutex i u

/-! ## The steps between the stages -/

/-- `k = r.tail_counter++` -/
theorem Turns.drawPush (h : Turns s) {t : τ} {p : Pc π α} (ht : (s.pc t).stage = .outside)
    (hp : p.stage = .pushWaits s.tailCounter) (hlocked : p.locked = (s.pc t).locked)
    (hsnap : ∀ head tail, p.Snapshot head tail) :
    Turns ({ s with tailCounter := s.tailCounter + 1 }.goto t p) where
  tail_dvd := h.tail_dvd
  head_dvd := h.head_dvd
  push := by
    apply h.push.draw t
    · simp [ht, Stage.pushTicket]
    · simp [goto, hp, Stage.pushTicket]
    · exact fun u hu => stage_goto_of_ne _ rfl hu
    · simp [goto, hp, Stage.pushTurn]
    · exact fun u hu => stage_goto_of_ne _ rfl hu
  -- pops have no part in it
  pop := by
    apply h.pop.congr
    · exact stage_goto _ rfl (by rw [hp, ht]; rfl)
    · exact stage_goto _ rfl (by rw [hp, ht]; rfl)
  head_le := Nat.le_succ_of_le h.head_le
  filled := by
    apply h.filled_goto rfl _ fun _ => le_rfl
    simp [hp]
  popped_le := h.popped_le
  snapshot := h.snapshot_goto rfl le_rfl (Nat.le_succ _) (hsnap _ _)
  mutex := h.mutex_goto rfl (fun _ => rfl) hlocked

/-- The wait of a push is over. -/
theorem Turns.enterPush (h : Turns s) {t : τ} {p : Pc π α} {k : ℕ}
    (ht : (s.pc t).stage = .pushWaits k) (hp : p.stage = .pushes k)
    (hturn : s.pushed (index k) = k / nQueue) (hlocked : p.locked = (s.pc t).locked)
    (hsnap : ∀ head tail, p.Snapshot head tail) :
    Turns (s.goto t p) where
  tail_dvd := h.tail_dvd
  head_dvd := h.head_dvd
  push := by
    apply h.push.enter t
    · exact funext (stage_goto _ rfl (by rw [hp, ht]; rfl))
    · exact fun u hu => stage_goto_of_ne _ rfl hu
    · intro k' hk'
      -- the lane serves `k` now, so the thread that has drawn `k` may enter
      obtain rfl : k = k' := by simpa [goto, hp, Stage.pushTurn] using hk'
      exact ⟨by simp [ht, Stage.pushTicket], hturn⟩
  pop := by
    apply h.pop.congr
    · exact stage_goto _ rfl (by rw [hp, ht]; rfl)
    · exact stage_goto _ rfl (by rw [hp, ht]; rfl)
  head_le := h.head_le
  filled := by
    apply h.filled_goto rfl _ fun _ => le_rfl
    simp [hp]
  popped_le := h.popped_le
  snapshot := h.snapshot_goto rfl le_rfl le_rfl (hsnap _ _)
  mutex := h.mutex_goto rfl (fun _ => rfl) hlocked

/-- `tail_counter += n_queue` -/
theorem Turns.servePush (h : Turns s) {t : τ} {p : Pc π α} {k : ℕ}
    (ht : (s.pc t).stage = .pushes k) (hp : p.stage = .outside)
    (hlocked : p.locked = (s.pc t).locked)
    (hsnap : ∀ head tail, p.Snapshot head tail) :
    Turns ((s.setMicro k { s.choose k with
      tailCounter := (s.choose k).tailCounter + nQueue }).goto t p) := by
  -- while `k` is served, it is the next item of its micro queue
  have hturn : s.pushed (index k) = k / nQueue :=
    h.push.place_eq t k (by simp [ht, Stage.pushTurn])
  set s' := s.setMicro k { s.choose k with
    tailCounter := (s.choose k).tailCounter + nQueue } with hs'
  have hpc : s'.pc = s.pc := rfl
  have hpopped : s'.popped = s.popped := popped_setMicro_of_eq rfl
  have hpushed : s'.pushed = Function.update s.pushed (index k) (k / nQueue + 1) := by
    rw [hs', pushed_setMicro, ← hturn]
    congr 1
    exact Nat.add_div_right _ (by decide)
  -- one micro queue has an item more, and no other one changes
  have hgrow : ∀ i, s.pushed i ≤ s'.pushed i := by
    rw [hpushed, ← hturn]
    exact le_update_succ _ _
  constructor
  · exact forall_setMicro (P := fun m => nQueue ∣ m.tailCounter) h.tail_dvd
      (Nat.dvd_add (h.tail_dvd _) (dvd_refl _))
  · exact forall_setMicro (P := fun m => nQueue ∣ m.headCounter) h.head_dvd (h.head_dvd _)
  · change TicketLock lanes s.tailCounter s'.pushed _ _
    rw [hpushed]
    apply h.push.serve t (k := k)
    · simp [ht, Stage.pushTurn]
    · simp [goto, hp, Stage.pushTicket]
    · exact fun u hu => stage_goto_of_ne _ hpc hu
    · simp [goto, hp, Stage.pushTurn]
    · exact fun u hu => stage_goto_of_ne _ hpc hu
  · change TicketLock lanes s.headCounter s'.popped _ _
    rw [hpopped]
    apply h.pop.congr
    · exact stage_goto _ hpc (by rw [hp, ht]; rfl)
    · exact stage_goto _ hpc (by rw [hp, ht]; rfl)
  · exact h.head_le
  · exact h.filled_goto hpc (by simp [hp]) hgrow
  · -- no more can have been popped than before
    intro i
    calc s'.popped i = s.popped i := by rw [hpopped]
      _ ≤ s.pushed i := h.popped_le i
      _ ≤ s'.pushed i := hgrow i
  · exact h.snapshot_goto hpc le_rfl le_rfl (hsnap _ _)
  · exact h.mutex_goto hpc (mutex_setMicro rfl) hlocked

/-- The compare-and-swap of `head_counter` succeeds. -/
theorem Turns.drawPop (h : Turns s) {t : τ} {p : Pc π α} {k : ℕ}
    (ht : (s.pc t).stage = .outside) (hk : s.headCounter = k) (hlt : k < s.tailCounter)
    (hp : p.stage = .popWaits k) (hlocked : p.locked = (s.pc t).locked)
    (hsnap : ∀ head tail, p.Snapshot head tail) :
    Turns ({ s with headCounter := k + 1 }.goto t p) where
  tail_dvd := h.tail_dvd
  head_dvd := h.head_dvd
  push := by
    apply h.push.congr
    · exact stage_goto _ rfl (by rw [hp, ht]; rfl)
    · exact stage_goto _ rfl (by rw [hp, ht]; rfl)
  pop := by
    obtain rfl := hk
    apply h.pop.draw t
    · simp [ht, Stage.popTicket]
    · simp [goto, hp, Stage.popTicket]
    · exact fun u hu => stage_goto_of_ne _ rfl hu
    · simp [goto, hp, Stage.popTurn]
    · exact fun u hu => stage_goto_of_ne _ rfl hu
  -- the ticket was compared with `tail_counter`, which has only grown since
  head_le := hlt
  filled := by
    apply h.filled_goto rfl _ fun _ => le_rfl
    simp [hp]
  popped_le := h.popped_le
  snapshot := h.snapshot_goto rfl (hk ▸ Nat.le_succ _) le_rfl (hsnap _ _)
  mutex := h.mutex_goto rfl (fun _ => rfl) hlocked

/-- A wait of a pop is over: the first one with its turn, the second with its item. -/
theorem Turns.enterPop (h : Turns s) {t : τ} {p : Pc π α} {k : ℕ}
    (ht : (s.pc t).stage = .popWaits k ∧ p.stage = .popAwaits k ∨
      (s.pc t).stage = .popAwaits k ∧ p.stage = .pops k ∧ k / nQueue < s.pushed (index k))
    (hturn : s.popped (index k) = k / nQueue) (hlocked : p.locked = (s.pc t).locked)
    (hsnap : ∀ head tail, p.Snapshot head tail) :
    Turns (s.goto t p) := by
  -- in both cases the thread keeps its ticket for a pop, and has none for a push
  have hpush : p.stage.pushTicket = none ∧ (s.pc t).stage.pushTicket = none := by
    rcases ht with ⟨ht, hp⟩ | ⟨ht, hp, -⟩ <;> rw [ht, hp] <;> exact ⟨rfl, rfl⟩
  have hpushTurn : p.stage.pushTurn = none ∧ (s.pc t).stage.pushTurn = none := by
    rcases ht with ⟨ht, hp⟩ | ⟨ht, hp, -⟩ <;> rw [ht, hp] <;> exact ⟨rfl, rfl⟩
  have hpop : p.stage.popTicket = some k ∧ (s.pc t).stage.popTicket = some k := by
    rcases ht with ⟨ht, hp⟩ | ⟨ht, hp, -⟩ <;> rw [ht, hp] <;> exact ⟨rfl, rfl⟩
  have hpopTurn : p.stage.popTurn = some k := by
    rcases ht with ⟨-, hp⟩ | ⟨-, hp, -⟩ <;> rw [hp] <;> rfl
  constructor
  · exact h.tail_dvd
  · exact h.head_dvd
  · apply h.push.congr
    · exact stage_goto _ rfl (by rw [hpush.1, hpush.2])
    · exact stage_goto _ rfl (by rw [hpushTurn.1, hpushTurn.2])
  · apply h.pop.enter t
    · exact funext (stage_goto _ rfl (by rw [hpop.1, hpop.2]))
    · exact fun u hu => stage_goto_of_ne _ rfl hu
    · intro k' hk'
      obtain rfl : k = k' := by simpa [goto, hpopTurn] using hk'
      exact ⟨hpop.2, hturn⟩
  · exact h.head_le
  · apply h.filled_goto rfl _ fun _ => le_rfl
    intro k' hk'
    rcases ht with ⟨-, hp⟩ | ⟨-, hp, hlt⟩
    · simp [hp] at hk'
    · obtain rfl : k = k' := by simpa [hp] using hk'
      exact hlt
  · exact h.popped_le
  · exact h.snapshot_goto rfl le_rfl le_rfl (hsnap _ _)
  · exact h.mutex_goto rfl (fun _ => rfl) hlocked

/-- The finalizer stores its ticket into `head_counter`. -/
theorem Turns.servePop (h : Turns s) {t : τ} {p : Pc π α} {k : ℕ}
    (ht : (s.pc t).stage = .pops k) (hp : p.stage = .outside)
    (hlocked : p.locked = (s.pc t).locked)
    (hsnap : ∀ head tail, p.Snapshot head tail) :
    Turns ((s.setMicro k { s.choose k with headCounter := base k + nQueue }).goto t p) := by
  have hturn : s.popped (index k) = k / nQueue :=
    h.pop.place_eq t k (by simp [ht, Stage.popTurn])
  -- the item that is given out had been pushed
  have hfilled := h.filled t k ht
  set s' := s.setMicro k { s.choose k with headCounter := base k + nQueue } with hs'
  have hpc : s'.pc = s.pc := rfl
  have hpushed : s'.pushed = s.pushed := pushed_setMicro_of_eq rfl
  have hpopped : s'.popped = Function.update s.popped (index k) (k / nQueue + 1) := by
    rw [hs', popped_setMicro, base_add_div]
  constructor
  · exact forall_setMicro (P := fun m => nQueue ∣ m.tailCounter) h.tail_dvd (h.tail_dvd _)
  · exact forall_setMicro (P := fun m => nQueue ∣ m.headCounter) h.head_dvd
      (Nat.dvd_add (dvd_base k) (dvd_refl _))
  · change TicketLock lanes s.tailCounter s'.pushed _ _
    rw [hpushed]
    apply h.push.congr
    · exact stage_goto _ hpc (by rw [hp, ht]; rfl)
    · exact stage_goto _ hpc (by rw [hp, ht]; rfl)
  · change TicketLock lanes s.headCounter s'.popped _ _
    rw [hpopped]
    apply h.pop.serve t (k := k)
    · simp [ht, Stage.popTurn]
    · simp [goto, hp, Stage.popTicket]
    · exact fun u hu => stage_goto_of_ne _ hpc hu
    · simp [goto, hp, Stage.popTurn]
    · exact fun u hu => stage_goto_of_ne _ hpc hu
  · exact h.head_le
  · exact h.filled_goto hpc (by simp [hp]) fun i => (congrFun hpushed i).ge
  · intro i
    change s'.popped i ≤ s'.pushed i
    rw [hpushed, hpopped]
    rcases eq_or_ne i (index k) with rfl | hne
    · rw [Function.update_self]
      exact hfilled
    · simpa [Function.update_of_ne hne] using h.popped_le i
  · exact h.snapshot_goto hpc le_rfl le_rfl (hsnap _ _)
  · exact h.mutex_goto hpc (mutex_setMicro rfl) hlocked

/-! ## All steps -/

/-- Thread `t` gets at the page it wants. -/
theorem access_eq {t : τ} {p : π} {f : Page π α → ConcurrentQueue τ π α}
    (hok : (s.access t p f).pc t ≠ .fault) :
    ∃ page, s.heap p = some page ∧ s.access t p f = f page := by
  unfold ConcurrentQueue.access at hok ⊢
  cases hp : s.heap p with
  | some page => exact ⟨page, rfl, rfl⟩
  | none =>
    rw [hp] at hok
    simp [goto] at hok

section Steps

variable [DecidableEq π] {itemSize : ℕ} {t : τ} {fresh : π}

/-- Every step that does not end in `fault` keeps the turns. -/
theorem Turns.step (h : Turns s) (hs : s.threadStep itemSize t fresh = some s')
    (hok : s'.pc t ≠ .fault) : Turns s' := by
  unfold threadStep at hs
  -- by the program point: most steps change pages or nothing, and stay at their stage
  cases hp : s.pc t with
  | idle | returned | fault => simp [hp] at hs
  | fetchTail item =>
    simp only [hp, Option.some_inj] at hs
    subst hs
    exact h.drawPush (by rw [hp]; rfl) rfl (by rw [hp]; rfl) fun _ _ => trivial
  | pushAllocate item k =>
    simp only [hp] at hs
    split at hs
    · split at hs
      · -- the first item of a page: one is allocated
        simp only [Option.some_inj] at hs
        subst hs
        exact h.movePage (by rw [hp]; rfl) (by rw [hp]; rfl) (by trivial)
      · simp at hs
    · -- another thread was faster, and this one starts again
      simp only [Option.some_inj] at hs
      subst hs
      exact h.move (by rw [hp]; rfl) (by rw [hp]; rfl) (by trivial)
  | pushTurn item k p =>
    simp only [hp] at hs
    split at hs
    · next hturn =>
      -- the awaited value of the counter says that `k` is served now
      -- the awaited value of the counter says that `k` is served now
      have hturn' : s.pushed (index k) = k / nQueue :=
        (base_eq_iff (h.tail_dvd (index k))).mp hturn
      -- the page that has been allocated, if any, decides what comes next
      cases p with
      | some p =>
        simp only [Option.some_inj] at hs
        subst hs
        exact h.enterPush (by rw [hp]; rfl) rfl hturn' (by rw [hp]; rfl) fun _ _ => trivial
      | none =>
        simp only [Option.some_inj] at hs
        subst hs
        exact h.enterPush (by rw [hp]; rfl) rfl hturn' (by rw [hp]; rfl) fun _ _ => trivial
    · split at hs
      · simp only [Option.some_inj] at hs
        subst hs
        simp [goto] at hok
      · simp at hs
  | pushLock item k p =>
    simp only [hp, Option.ite_none_right_eq_some, Option.some_inj] at hs
    obtain ⟨hfree, rfl⟩ := hs
    exact h.lock hfree (by rw [hp]; rfl) (by rw [hp]; rfl) rfl (by trivial)
  | pushReadTail item k p =>
    simp only [hp, Option.some_inj] at hs
    subst hs
    exact h.move (by rw [hp]; rfl) (by rw [hp]; rfl) (by trivial)
  | pushLink item k p q =>
    cases q with
    | some q =>
      simp only [hp, Option.some_inj] at hs
      subst hs
      obtain ⟨page, -, heq⟩ := access_eq hok
      rw [heq]
      exact h.movePage (by rw [hp]; rfl) (by rw [hp]; rfl) (by trivial)
    | none =>
      simp only [hp, Option.some_inj] at hs
      subst hs
      exact h.moveMicro ⟨by rfl, by rfl, by rfl⟩ (by rw [hp]; rfl) (by rw [hp]; rfl)
        (by trivial)
  | pushSetTail item k p =>
    simp only [hp, Option.some_inj] at hs
    subst hs
    exact h.moveMicro ⟨by rfl, by rfl, by rfl⟩ (by rw [hp]; rfl) (by rw [hp]; rfl) (by trivial)
  | pushUnlock item k p =>
    simp only [hp, Option.some_inj] at hs
    subst hs
    exact h.unlock (by rw [hp]; rfl) (by rw [hp]; rfl) rfl (by trivial)
  | pushLoadTail item k =>
    simp only [hp] at hs
    split at hs
    · simp only [Option.some_inj] at hs
      subst hs
      exact h.move (by rw [hp]; rfl) (by rw [hp]; rfl) (by trivial)
    · -- no tail page: this would be a fault
      simp only [Option.some_inj] at hs
      subst hs
      simp [goto] at hok
  | pushCopy item k p =>
    simp only [hp, Option.some_inj] at hs
    subst hs
    obtain ⟨page, -, heq⟩ := access_eq hok
    rw [heq]
    exact h.movePage (by rw [hp]; rfl) (by rw [hp]; rfl) (by trivial)
  | pushMask k p =>
    simp only [hp, Option.some_inj] at hs
    subst hs
    obtain ⟨page, -, heq⟩ := access_eq hok
    rw [heq]
    exact h.movePage (by rw [hp]; rfl) (by rw [hp]; rfl) (by trivial)
  | pushPublish k =>
    simp only [hp, Option.some_inj] at hs
    subst hs
    exact h.servePush (by rw [hp]; rfl) rfl (by rw [hp]; rfl) fun _ _ => trivial
  | popHead =>
    simp only [hp, Option.some_inj] at hs
    subst hs
    exact h.move (by rw [hp]; rfl) (by rw [hp]; rfl) le_rfl
  | popTail k =>
    -- what has been read of `head_counter` is still below it
    have hsnap : k ≤ s.headCounter := by simpa [hp, Pc.Snapshot] using h.snapshot t
    simp only [hp] at hs
    split at hs
    · simp only [Option.some_inj] at hs
      subst hs
      exact h.move (by rw [hp]; rfl) (by rw [hp]; rfl) (by trivial)
    · next hlt =>
      simp only [Option.some_inj] at hs
      subst hs
      exact h.move (by rw [hp]; rfl) (by rw [hp]; rfl) ⟨hsnap, not_le.mp hlt⟩
  | popCas k =>
    have hsnap : k ≤ s.headCounter ∧ k < s.tailCounter := by
      simpa [hp, Pc.Snapshot] using h.snapshot t
    simp only [hp] at hs
    split at hs
    · next hk =>
      simp only [Option.some_inj] at hs
      subst hs
      exact h.drawPop (by rw [hp]; rfl) hk hsnap.2 rfl (by rw [hp]; rfl) fun _ _ => trivial
    · simp only [Option.some_inj] at hs
      subst hs
      exact h.move (by rw [hp]; rfl) (by rw [hp]; rfl) le_rfl
  | popTurn k =>
    simp only [hp, Option.ite_none_right_eq_some, Option.some_inj] at hs
    obtain ⟨hturn, rfl⟩ := hs
    have hturn' : s.popped (index k) = k / nQueue :=
      (base_eq_iff (h.head_dvd (index k))).mp hturn
    exact h.enterPop (Or.inl ⟨by rw [hp]; rfl, rfl⟩) hturn' (by rw [hp]; rfl) fun _ _ => trivial
  | popFilled k =>
    simp only [hp, Option.ite_none_left_eq_some, Option.some_inj] at hs
    obtain ⟨htail, rfl⟩ := hs
    have hturn : s.popped (index k) = k / nQueue :=
      h.pop.place_eq t k (by rw [hp]; rfl)
    -- as many items have been pushed as popped, or more; the counter excludes equality
    have hne : s.pushed (index k) ≠ k / nQueue := fun heq =>
      htail ((base_eq_iff (h.tail_dvd (index k))).mpr heq)
    have hlt : k / nQueue < s.pushed (index k) :=
      lt_of_le_of_ne (hturn ▸ h.popped_le (index k)) hne.symm
    exact h.enterPop (Or.inr ⟨by rw [hp]; rfl, rfl, hlt⟩) hturn (by rw [hp]; rfl)
      fun _ _ => trivial
  | popPage k =>
    simp only [hp] at hs
    split at hs
    · simp only [Option.some_inj] at hs
      subst hs
      exact h.move (by rw [hp]; rfl) (by rw [hp]; rfl) (by trivial)
    · simp only [Option.some_inj] at hs
      subst hs
      simp [goto] at hok
  | popMask k p =>
    simp only [hp, Option.some_inj] at hs
    subst hs
    obtain ⟨page, -, heq⟩ := access_eq hok
    rw [heq]
    -- an item that is not valid is skipped, so its ticket is given up
    split
    · exact h.move (by rw [hp]; rfl) (by rw [hp]; rfl) (by trivial)
    · have hc : SameCounters s { s with nInvalidEntries := s.nInvalidEntries - 1 } :=
        ⟨rfl, rfl, fun _ => ⟨rfl, rfl⟩⟩
      exact h.same hc rfl (by rw [hp, Pc.stage_finalize]; rfl) (by simp)
        (h.mutex_goto rfl (fun _ => rfl) (by rw [hp, Pc.locked_finalize]; rfl))
  | popItem k p =>
    simp only [hp, Option.some_inj] at hs
    subst hs
    obtain ⟨page, -, heq⟩ := access_eq hok
    rw [heq] at hok ⊢
    split
    · exact h.movePage (by rw [hp, Pc.stage_finalize]; rfl)
        (by rw [hp, Pc.locked_finalize]; rfl) (by simp)
    · next hitem => simp [hitem, goto] at hok
  | popLock k p dst =>
    simp only [hp, Option.ite_none_right_eq_some, Option.some_inj] at hs
    obtain ⟨hfree, rfl⟩ := hs
    exact h.lock hfree (by rw [hp]; rfl) (by rw [hp]; rfl) rfl (by trivial)
  | popReadNext k p dst =>
    simp only [hp, Option.some_inj] at hs
    subst hs
    obtain ⟨page, -, heq⟩ := access_eq hok
    rw [heq]
    exact h.move (by rw [hp]; rfl) (by rw [hp]; rfl) (by trivial)
  | popSetHead k p q dst =>
    simp only [hp, Option.some_inj] at hs
    subst hs
    exact h.moveMicro ⟨by rfl, by rfl, by rfl⟩ (by rw [hp]; rfl) (by rw [hp]; rfl) (by trivial)
  | popSetTail k p q dst =>
    cases q with
    | some q =>
      simp only [hp, Option.some_inj] at hs
      subst hs
      exact h.move (by rw [hp]; rfl) (by rw [hp]; rfl) (by trivial)
    | none =>
      simp only [hp, Option.some_inj] at hs
      subst hs
      exact h.moveMicro ⟨by rfl, by rfl, by rfl⟩ (by rw [hp]; rfl) (by rw [hp]; rfl)
        (by trivial)
  | popUnlock k p dst =>
    simp only [hp, Option.some_inj] at hs
    subst hs
    exact h.unlock (by rw [hp]; rfl) (by rw [hp]; rfl) rfl (by trivial)
  | popPublish k p dst =>
    simp only [hp, Option.some_inj] at hs
    subst hs
    exact h.servePop (by rw [hp]; rfl) (by simp) (by rw [hp, Pc.locked_afterPublish]; rfl) (by simp)
  | popFree p dst =>
    simp only [hp, Option.some_inj] at hs
    subst hs
    obtain ⟨page, -, heq⟩ := access_eq hok
    rw [heq]
    exact h.movePage (by rw [hp, Pc.stage_afterPop]; rfl)
      (by rw [hp, Pc.locked_afterPop]; rfl) (by simp)
  | emptyTail =>
    simp only [hp, Option.some_inj] at hs
    subst hs
    exact h.move (by rw [hp]; rfl) (by rw [hp]; rfl) le_rfl
  | emptyHead tc =>
    have hsnap : tc ≤ s.tailCounter := by simpa [hp, Pc.Snapshot] using h.snapshot t
    simp only [hp, Option.some_inj] at hs
    subst hs
    exact h.move (by rw [hp]; rfl) (by rw [hp]; rfl) ⟨hsnap, le_rfl⟩
  | emptyCheck tc hc =>
    have hsnap : tc ≤ s.tailCounter ∧ hc ≤ s.headCounter := by
      simpa [hp, Pc.Snapshot] using h.snapshot t
    simp only [hp] at hs
    split at hs
    · simp only [Option.some_inj] at hs
      subst hs
      exact h.move (by rw [hp]; rfl) (by rw [hp]; rfl) hsnap
    · simp only [Option.some_inj] at hs
      subst hs
      exact h.move (by rw [hp]; rfl) (by rw [hp]; rfl) (by trivial)
  | emptyInvalid tc hc =>
    simp only [hp, Option.some_inj] at hs
    subst hs
    exact h.move (by rw [hp]; rfl) (by rw [hp]; rfl) (by trivial)

end Steps

end ConcurrentQueue

end StringSampleSort.Tbb
