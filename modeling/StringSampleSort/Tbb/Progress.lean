import StringSampleSort.Tbb.PageSteps
import Mathlib.Algebra.Order.BigOperators.Group.Finset

/-!
# Progress of the concurrent queue

A thread waits for its turn, for an item, for a mutex or for memory.  While there is memory,
the threads never all wait for each other: the push whose turn it is at a micro queue waits
only for the mutex, the pop whose turn it is waits for the mutex or for that push, and who
has the mutex does not wait.

A `try_pop` starts again when another thread has snatched its item, so the steps of one call
are not bounded, but those of all calls together are.

## Main results

- `ConcurrentQueue.progress`: while a thread is inside a call, some thread can take a step
- `ConcurrentQueue.steps_le`: how many steps a number of calls takes, at most
-/

namespace StringSampleSort.Tbb

open Library

/-! ## Who waits -/

namespace Pc

variable {π α : Type*}

/-- The thread has called and is not about to return. -/
def inCall : Pc π α → Bool
  | idle | returned _ | fault => false
  | _ => true

/-- The next step of the thread may have to wait, or there is none. -/
def waits : Pc π α → Bool
  | idle | returned _ | fault | pushAllocate _ _ | pushTurn _ _ _ | pushLock _ _ _ | popTurn _
  | popFilled _ | popLock _ _ _ => true
  | _ => false

/-- Who has a mutex does not wait. -/
theorem waits_of_locked {p : Pc π α} {i : Fin nQueue} (h : p.locked = some i) :
    p.waits = false := by
  cases p with
  | pushReadTail | pushLink | pushSetTail | pushUnlock => rfl
  | popReadNext | popSetHead | popSetTail | popUnlock => rfl
  | _ => simp [locked] at h

end Pc

namespace ConcurrentQueue

variable {τ π α : Type*} [DecidableEq τ] [DecidableEq π] {s s' : ConcurrentQueue τ π α}
  {itemSize : ℕ} {t : τ} {fresh : π}

/-- Some thread can take a step, and gets the memory at `fresh` if it allocates. -/
def CanStep (itemSize : ℕ) (s : ConcurrentQueue τ π α) (fresh : π) : Prop :=
  ∃ t s', s.threadStep itemSize t fresh = some s'

theorem canStep_of_isSome (h : (s.threadStep itemSize t fresh).isSome = true) :
    CanStep itemSize s fresh :=
  ⟨t, Option.isSome_iff_exists.mp h⟩

/-- A thread that does not wait takes its step, whatever the others do. -/
theorem isSome_of_not_waits (h : (s.pc t).waits = false) (fresh : π) :
    (s.threadStep itemSize t fresh).isSome = true := by
  unfold threadStep
  cases hp : s.pc t with
  | idle | returned | fault | pushAllocate | pushTurn | pushLock | popTurn | popFilled
  | popLock => simp [hp, Pc.waits] at h
  | pushLink item k p q => cases q <;> rfl
  | popSetTail k p q => cases q <;> rfl
  | pushLoadTail item k => dsimp only; split <;> rfl
  | popPage k => dsimp only; split <;> rfl
  | popTail k => dsimp only; split <;> rfl
  | popCas k => dsimp only; split <;> rfl
  | emptyCheck k => dsimp only; split <;> rfl
  | _ => rfl

/-- Nobody waits for memory: if a thread is to allocate a page, it gets `fresh`. -/
def HasMemory (s : ConcurrentQueue τ π α) (fresh : π) : Prop :=
  ∀ t item k, s.pc t = .pushAllocate item k → s.heap fresh = none

/-- A thread at a mutex takes it, or the thread that has it takes a step. -/
theorem canStep_of_lock (T : Turns s) {k : ℕ} (fresh : π)
    (h : (s.choose k).pageMutex = none → CanStep itemSize s fresh) : CanStep itemSize s fresh := by
  cases hmutex : (s.choose k).pageMutex with
  | none => exact h hmutex
  | some u =>
    have hlocked := (T.mutex (index k) u).mp hmutex
    exact canStep_of_isSome (isSome_of_not_waits (Pc.waits_of_locked hlocked) fresh)

/-- The push whose turn it is waits at most for the mutex. -/
theorem canStep_of_push (T : Turns s) (hmem : HasMemory s fresh) {k : ℕ}
    (ht : (s.pc t).stage.pushTicket = some k) (hturn : s.pushed (index k) = k / nQueue) :
    CanStep itemSize s fresh := by
  have hbase : (s.choose k).tailCounter = base k := (base_eq_iff (T.tail_dvd _)).mpr hturn
  cases hp : s.pc t with
  | pushAllocate item k' =>
    apply canStep_of_isSome (t := t)
    unfold threadStep
    rw [hp]
    dsimp only
    split
    · rw [hmem t item k' hp]
      rfl
    · rfl
  | pushTurn item k' p =>
    obtain rfl : k' = k := by simpa [hp, Pc.stage, Stage.pushTicket] using ht
    apply canStep_of_isSome (t := t)
    unfold threadStep
    rw [hp]
    cases p <;> simp [hbase]
  | pushLock item k' p =>
    apply canStep_of_lock T (k := k') fresh
    intro hfree
    apply canStep_of_isSome (t := t)
    simp [threadStep, hp, hfree]
  | pushReadTail | pushLink | pushSetTail | pushUnlock | pushLoadTail | pushCopy | pushMask
  | pushPublish => exact canStep_of_isSome (isSome_of_not_waits (by rw [hp]; rfl) fresh)
  | _ => simp [hp, Pc.stage, Stage.pushTicket] at ht

/-- A micro queue with a waiting push has one whose turn it is. -/
theorem canStep_of_pushTicket (T : Turns s) (hmem : HasMemory s fresh) {k : ℕ}
    (ht : (s.pc t).stage.pushTicket = some k) : CanStep itemSize s fresh := by
  -- of all tickets drawn in this lane, the first that has not been served has an owner
  obtain ⟨u, k', hu, hlane, hplace⟩ := T.push.exists_served ht
  have hlane' : index k' = index k := hlane
  exact canStep_of_push T hmem hu (by rw [hlane']; exact hplace.symm)

/-- The pop whose turn it is waits for the mutex, or for the push of its item. -/
theorem canStep_of_pop (T : Turns s) (hmem : HasMemory s fresh) {k : ℕ}
    (ht : (s.pc t).stage.popTicket = some k) (hturn : s.popped (index k) = k / nQueue) :
    CanStep itemSize s fresh := by
  have hbase : (s.choose k).headCounter = base k := (base_eq_iff (T.head_dvd _)).mpr hturn
  cases hp : s.pc t with
  | popTurn k' =>
    obtain rfl : k' = k := by simpa [hp, Pc.stage, Stage.popTicket] using ht
    apply canStep_of_isSome (t := t)
    simp [threadStep, hp, hbase]
  | popFilled k' =>
    obtain rfl : k' = k := by simpa [hp, Pc.stage, Stage.popTicket] using ht
    by_cases hfilled : (s.choose k').tailCounter = base k'
    · -- the ticket of the pop has been drawn by a push, and that push is the next one
      have hpushed : s.pushed (index k') = k' / nQueue :=
        (base_eq_iff (T.tail_dvd _)).mp hfilled
      have hdrawn := ((T.pop.holds_iff k').mp ⟨t, ht⟩).1
      obtain ⟨u, hu⟩ := (T.push.holds_iff k').mpr ⟨hdrawn.trans_le T.head_le, hpushed.le⟩
      exact canStep_of_push T hmem hu hpushed
    · apply canStep_of_isSome (t := t)
      simp [threadStep, hp, hfilled]
  | popLock k' p dst =>
    -- the owner of the mutex can go on, or there is none
    apply canStep_of_lock T (k := k') fresh
    intro hfree
    apply canStep_of_isSome (t := t)
    simp [threadStep, hp, hfree]
  | popPage | popMask | popItem | popReadNext | popSetHead | popSetTail | popUnlock
  | popPublish => exact canStep_of_isSome (isSome_of_not_waits (by rw [hp]; rfl) fresh)
  | _ => simp [hp, Pc.stage, Stage.popTicket] at ht

theorem canStep_of_popTicket (T : Turns s) (hmem : HasMemory s fresh) {k : ℕ}
    (ht : (s.pc t).stage.popTicket = some k) : CanStep itemSize s fresh := by
  obtain ⟨u, k', hu, hlane, hplace⟩ := T.pop.exists_served ht
  have hlane' : index k' = index k := hlane
  exact canStep_of_pop T hmem hu (by rw [hlane']; exact hplace.symm)

theorem Turns.canStep (T : Turns s) (hmem : HasMemory s fresh)
    (ht : (s.pc t).inCall = true) : CanStep itemSize s fresh := by
  cases hp : s.pc t with
  | idle | returned | fault => simp [hp, Pc.inCall] at ht
  | pushAllocate item k | pushTurn item k p | pushLock item k p =>
    -- this thread may have to wait, but not the one whose turn it is
    exact canStep_of_pushTicket T hmem (by rw [hp]; rfl)
  | popTurn k | popFilled k | popLock k p dst =>
    exact canStep_of_popTicket T hmem (by rw [hp]; rfl)
  | _ => exact canStep_of_isSome (isSome_of_not_waits (by rw [hp]; rfl) fresh)

/-- There is no deadlock: while a thread is inside a call, and memory is left if a page is to
be allocated, some thread can take a step, whatever has happened so far. -/
theorem progress (h : (system τ π α itemSize).Reachable s) (hmem : HasMemory s fresh)
    (ht : (s.pc t).inCall = true) : CanStep itemSize s fresh := by
  have : Nonempty π := ⟨fresh⟩
  obtain ⟨g, T, -⟩ := reachable_invariant h
  exact T.canStep hmem ht

theorem progress_two : CanStep 8 (((start : ConcurrentQueue (Fin 2) ℕ ℕ).goto 0
    (.fetchTail 7)).goto 1 .popHead) 0 :=
  progress (t := 1) reachable_two (fun _ _ _ _ => rfl) rfl

end ConcurrentQueue

/-! ## How long calls take -/

namespace Pc

variable {π α : Type*} {n head : ℕ}

/-- How many steps a thread takes at most until it has returned, if `head_counter` stays at
`head`.  What a thread has to spare for the others, `n` threads may make fail once each. -/
def rank (n head : ℕ) : Pc π α → ℕ
  | idle | fault => 0
  | returned _ => 1
  | fetchTail _ => 12
  | pushAllocate _ _ => 11
  | pushTurn _ _ _ => 10
  | pushLock _ _ _ => 9
  | pushReadTail _ _ _ => 8
  | pushLink _ _ _ _ => 7
  | pushSetTail _ _ _ => 6
  | pushUnlock _ _ _ | pushLoadTail _ _ => 5
  | pushCopy _ _ _ => 4
  | pushMask _ _ => 3
  | pushPublish _ => 2
  | popHead => 2 * n + 16
  -- a value of `head_counter` that is not the present one costs another round
  | popTail k => 2 * n + 15 + if k = head then 0 else 2
  | popCas k => 2 * n + 14 + if k = head then 0 else 2
  | popTurn _ => 13
  | popFilled _ => 12
  | popPage _ => 11
  | popMask _ _ => 10
  | popItem _ _ => 9
  | popLock _ _ _ => 8
  | popReadNext _ _ _ => 7
  | popSetHead _ _ _ _ => 6
  | popSetTail _ _ _ _ => 5
  | popUnlock _ _ _ => 4
  | popPublish _ _ _ => 3
  | popFree _ _ => 2
  | emptyTail => 5
  | emptyHead _ => 4
  | emptyCheck _ _ => 3
  | emptyInvalid _ _ => 2

/-- A new `head_counter` costs a thread at most one more round. -/
theorem rank_le_add (n head head' : ℕ) (p : Pc π α) : p.rank n head' ≤ p.rank n head + 2 := by
  cases p with
  | popTail k | popCas k =>
    simp only [rank]
    split_ifs <;> simp
  | _ => exact Nat.le_add_right _ _

theorem rank_pos (n head : ℕ) {p : Pc π α} (hidle : p ≠ .idle) (hok : p ≠ .fault) :
    0 < p.rank n head := by
  cases p with
  | idle => exact absurd rfl hidle
  | fault => exact absurd rfl hok
  | _ => simp [rank]

theorem rank_entry_le (n head : ℕ) (op : Op α) :
    (ConcurrentQueue.entry op : Pc π α).rank n head ≤ 2 * n + 16 := by
  cases op <;> simp [ConcurrentQueue.entry, rank]

@[simp] theorem rank_finalize_lt (n head itemSize k : ℕ) (p : π) (dst : Option α) :
    (ConcurrentQueue.finalize itemSize k p dst).rank n head < 9 := by
  unfold ConcurrentQueue.finalize
  split <;> simp [rank]

theorem rank_afterPop (n head : ℕ) {dst : Option α} (h : dst ≠ none) :
    (ConcurrentQueue.afterPop dst : Pc π α).rank n head = 1 := by
  obtain ⟨item, rfl⟩ := Option.ne_none_iff_exists'.mp h
  rfl

theorem rank_afterPublish_lt (n head : ℕ) (p : Option π) {dst : Option α} (h : dst ≠ none) :
    (ConcurrentQueue.afterPublish p dst).rank n head < 3 := by
  cases p with
  | none =>
    rw [ConcurrentQueue.afterPublish, rank_afterPop n head h]
    decide
  | some p => simp [ConcurrentQueue.afterPublish, rank]

end Pc

namespace ConcurrentQueue

variable {τ π α : Type*} [DecidableEq τ] {s s' : ConcurrentQueue τ π α}
  {itemSize : ℕ} {t : τ} {fresh : π} {n : ℕ}

/-- Thread `t` comes closer to its return, and either the others do not notice or it has drawn
the ticket that they want. -/
def Advances (n : ℕ) (s s' : ConcurrentQueue τ π α) (t : τ) : Prop :=
  ∃ p, s'.pc = Function.update s.pc t p ∧
    (s'.headCounter = s.headCounter ∧
        p.rank n s.headCounter < (s.pc t).rank n s.headCounter ∨
      s'.headCounter = s.headCounter + 1 ∧ s.pc t = .popCas s.headCounter ∧
        p = .popTurn s.headCounter)

theorem advances_goto {u : ConcurrentQueue τ π α} {p : Pc π α} (hpc : u.pc = s.pc)
    (hhead : u.headCounter = s.headCounter)
    (hp : p.rank n s.headCounter < (s.pc t).rank n s.headCounter) :
    Advances n s (u.goto t p) t :=
  ⟨p, by rw [goto, hpc], Or.inl ⟨hhead, hp⟩⟩

variable [DecidableEq π]

/-- Every step of a thread brings it closer to its return. -/
theorem step_advances (n : ℕ) {m : ℕ} {log : List α} (hfits : (s.pc t).Fits m log)
    (hs : s.threadStep itemSize t fresh = some s') (hok : s'.pc t ≠ .fault) :
    Advances n s s' t := by
  unfold threadStep at hs
  cases hp : s.pc t with
  | idle | returned | fault => simp [hp] at hs
  | pushAllocate item k =>
    simp only [hp] at hs
    split at hs
    · split at hs
      · simp only [Option.some_inj] at hs
        subst hs
        exact advances_goto rfl rfl (by simp [hp, Pc.rank])
      · simp at hs
    · simp only [Option.some_inj] at hs
      subst hs
      exact advances_goto rfl rfl (by simp [hp, Pc.rank])
  | pushTurn item k p =>
    simp only [hp] at hs
    split at hs
    · cases p with
      | some p | none =>
        simp only [Option.some_inj] at hs
        subst hs
        exact advances_goto rfl rfl (by simp [hp, Pc.rank])
    · simp only [Option.ite_none_right_eq_some, Option.some_inj] at hs
      obtain ⟨-, rfl⟩ := hs
      simp [goto] at hok
  | pushLock | popLock | popTurn | popFilled =>
    simp only [hp, Option.ite_none_right_eq_some, Option.ite_none_left_eq_some,
      Option.some_inj] at hs
    obtain ⟨-, rfl⟩ := hs
    exact advances_goto rfl rfl (by simp [hp, Pc.rank])
  | pushLink item k p q =>
    cases q with
    | none =>
      simp only [hp, Option.some_inj] at hs
      subst hs
      exact advances_goto rfl rfl (by simp [hp, Pc.rank])
    | some q =>
      simp only [hp, Option.some_inj] at hs
      subst hs
      obtain ⟨page, -, heq⟩ := access_eq hok
      rw [heq]
      exact advances_goto rfl rfl (by simp [hp, Pc.rank])
  | pushLoadTail | popPage =>
    simp only [hp] at hs
    split at hs <;> simp only [Option.some_inj] at hs <;> subst hs
    · exact advances_goto rfl rfl (by simp [hp, Pc.rank])
    · simp [goto] at hok
  | pushCopy | pushMask | popReadNext =>
    simp only [hp, Option.some_inj] at hs
    subst hs
    obtain ⟨page, -, heq⟩ := access_eq hok
    rw [heq]
    exact advances_goto rfl rfl (by simp [hp, Pc.rank])
  | popTail k =>
    simp only [hp] at hs
    split at hs <;> simp only [Option.some_inj] at hs <;> subst hs
    · -- the queue is empty
      exact advances_goto rfl rfl (by simp [hp, Pc.rank]; omega)
    · exact advances_goto rfl rfl (by simp [hp, Pc.rank])
  | popCas k =>
    simp only [hp] at hs
    split at hs <;> simp only [Option.some_inj] at hs <;> subst hs
    · -- the ticket is drawn, for which `popCas` has set two steps aside for each thread
      next hhead => exact ⟨.popTurn k, rfl, Or.inr ⟨by subst hhead; rfl, by rw [hhead, hp], by rw [hhead]⟩⟩
    · next hhead =>
      -- the failure has been paid for by the thread that has moved `head_counter`
      apply advances_goto (s := s) rfl rfl
      simp [hp, Pc.rank, Ne.symm hhead]
  | popMask k p =>
    simp only [hp, Option.some_inj] at hs
    subst hs
    obtain ⟨page, -, heq⟩ := access_eq hok
    rw [heq]
    split
    · exact advances_goto rfl rfl (by simp [hp, Pc.rank])
    · apply advances_goto (s := s) rfl rfl
      rw [hp]
      exact (Pc.rank_finalize_lt ..).trans (by simp [Pc.rank])
  | popItem k p =>
    simp only [hp, Option.some_inj] at hs
    subst hs
    obtain ⟨page, -, heq⟩ := access_eq hok
    rw [heq] at hok ⊢
    split
    · apply advances_goto (s := s) rfl rfl
      rw [hp]
      exact Pc.rank_finalize_lt ..
    · next hitem => simp [hitem, goto] at hok
  | popSetTail k p q dst =>
    cases q with
    | none | some q =>
      simp only [hp, Option.some_inj] at hs
      subst hs
      exact advances_goto rfl rfl (by simp [hp, Pc.rank])
  | popPublish k p dst =>
    rw [hp] at hfits
    simp only [hp, Option.some_inj] at hs
    subst hs
    apply advances_goto (s := s) rfl rfl
    rw [hp]
    exact Pc.rank_afterPublish_lt _ _ p hfits.2
  | popFree p dst =>
    rw [hp] at hfits
    simp only [hp, Option.some_inj] at hs
    subst hs
    obtain ⟨page, -, heq⟩ := access_eq hok
    rw [heq]
    apply advances_goto (s := s) rfl rfl
    rw [hp, Pc.rank_afterPop _ _ hfits]
    simp [Pc.rank]
  | emptyCheck tc hc =>
    simp only [hp] at hs
    split at hs <;> simp only [Option.some_inj] at hs <;> subst hs
    all_goals exact advances_goto rfl rfl (by simp [hp, Pc.rank])
  | _ =>
    simp only [hp, Option.some_inj] at hs
    subst hs
    exact advances_goto rfl rfl (by simp [hp, Pc.rank])

/-! ## Runs -/

section Runs

variable [Fintype τ]

/-- What is left to do in all calls. -/
def work (s : ConcurrentQueue τ π α) : ℕ :=
  ∑ t, (s.pc t).rank (Fintype.card τ) s.headCounter

omit [DecidableEq π] in
/-- Thread `t` moves to `p`. -/
theorem work_goto (s' : ConcurrentQueue τ π α) {p : Pc π α}
    (hpc : s'.pc = Function.update s.pc t p)
    (hhead : s'.headCounter = s.headCounter) :
    s'.work + (s.pc t).rank (Fintype.card τ) s.headCounter =
      s.work + p.rank (Fintype.card τ) s.headCounter := by
  have hsum := sum_update_add Finset.univ
    (fun p : Pc π α => p.rank (Fintype.card τ) s.headCounter) s.pc (Finset.mem_univ t) p
  simpa [work, hpc, hhead] using hsum

omit [DecidableEq τ] [DecidableEq π] in
/-- With another `head_counter`, every thread may need another round. -/
theorem work_le_add (head : ℕ) :
    ({ s with headCounter := head } : ConcurrentQueue τ π α).work ≤
      s.work + 2 * Fintype.card τ := by
  calc ∑ t, (s.pc t).rank (Fintype.card τ) head
      ≤ ∑ t, ((s.pc t).rank (Fintype.card τ) s.headCounter + 2) :=
        Finset.sum_le_sum fun t _ => Pc.rank_le_add _ _ _ _
    _ = s.work + 2 * Fintype.card τ := by
        simp [Finset.sum_add_distrib, work, Nat.mul_comm]

omit [DecidableEq π] in
/-- A step leaves less to do. -/
theorem Advances.work_lt (h : Advances (Fintype.card τ) s s' t) : s'.work < s.work := by
  obtain ⟨p, hpc, ⟨hhead, hlt⟩ | ⟨hhead, hcas, rfl⟩⟩ := h
  · have hgoto := work_goto _ hpc hhead
    omega
  · -- first `head_counter` changes for all threads, then the one that has changed it moves
    set u : ConcurrentQueue τ π α := { s with headCounter := s.headCounter + 1 } with hu
    have hothers : u.work ≤ s.work + 2 * Fintype.card τ := work_le_add _
    have hgoto : s'.work + (u.pc t).rank (Fintype.card τ) u.headCounter =
        u.work + (Pc.popTurn s.headCounter : Pc π α).rank (Fintype.card τ) u.headCounter :=
      work_goto _ hpc hhead
    have hbefore : (u.pc t).rank (Fintype.card τ) u.headCounter =
        2 * Fintype.card τ + 14 + 2 := by
      simp [hu, hcas, Pc.rank]
    have hafter : (Pc.popTurn s.headCounter : Pc π α).rank (Fintype.card τ) u.headCounter =
        13 := rfl
    omega

/-- How many calls have been made in a run. -/
def calls (tr : List (ConcurrentQueue τ π α × Label τ π α)) : ℕ :=
  tr.countP fun x => match x.2 with
    | .event (.call _ _) => true
    | _ => false

/-- The steps of a run are paid for by its calls: no thread makes the others try for ever. -/
theorem length_add_work_le [Nonempty π] {tr : List (ConcurrentQueue τ π α × Label τ π α)}
    (h : (system τ π α itemSize).Run tr s) :
    tr.length + s.work ≤ calls tr * (2 * Fintype.card τ + 17) := by
  induction h with
  | start hinit =>
    obtain rfl := hinit
    simp [work, start, Pc.rank]
  | @step tr s s' l hrun hs ih =>
    obtain ⟨g, hg⟩ := reachable_invariant ⟨tr, hrun⟩
    cases l with
    | event e =>
      cases e with
      | call t op =>
        obtain ⟨hpc, rfl⟩ := hs
        have hgoto := work_goto (s.goto t (entry op)) rfl rfl
        -- a call brings the work that its entry point needs
        have hentry : (entry op : Pc π α).rank (Fintype.card τ) s.headCounter ≤ _ :=
          Pc.rank_entry_le _ _ op
        have hcalls : calls ((s, .event (.call t op)) :: tr) = calls tr + 1 := by
          simp [calls]
        rw [hcalls, Nat.add_mul, Nat.one_mul, List.length_cons]
        omega
      | ret t r =>
        obtain ⟨hpc, rfl⟩ := hs
        have hgoto := work_goto (s.goto t .idle) rfl rfl
        -- a return takes the last step of its call
        have hbefore : (s.pc t).rank (Fintype.card τ) s.headCounter = 1 := by rw [hpc]; rfl
        have hafter : (Pc.idle : Pc π α).rank (Fintype.card τ) s.headCounter = 0 := rfl
        have hcalls : calls ((s, .event (.ret t r)) :: tr) = calls tr := by
          simp [calls]
        rw [hcalls, List.length_cons]
        omega
    | step t fresh =>
      obtain ⟨g', hg', -⟩ := hg.next (l := .step t fresh) hs
      -- a step leaves less work, for all threads together
      have hlt := (step_advances (Fintype.card τ) (hg.2.fits t) hs (hg'.pc_ne_fault t)).work_lt
      have hcalls : calls ((s, .step t fresh) :: tr) = calls tr := by
        simp [calls]
      rw [hcalls, List.length_cons]
      omega

/-- A run takes at most a fixed number of steps for each call, and the number depends on the
number of threads only. -/
theorem steps_le [Nonempty π] {tr : List (ConcurrentQueue τ π α × Label τ π α)}
    (h : (system τ π α itemSize).Run tr s) :
    tr.length ≤ calls tr * (2 * Fintype.card τ + 17) :=
  (Nat.le_add_right _ _).trans (length_add_work_le h)

theorem steps_le_two : ∃ tr : List (ConcurrentQueue (Fin 2) ℕ ℕ × Label (Fin 2) ℕ ℕ),
    tr ≠ [] ∧ tr.length ≤ calls tr * (2 * Fintype.card (Fin 2) + 17) := by
  have hstart : (system (Fin 2) ℕ ℕ 8).Run [] start := .start rfl
  have hcall : (system (Fin 2) ℕ ℕ 8).Run [(start, .event (.call 1 .tryPop))]
      (start.goto 1 .popHead) := hstart.step ⟨rfl, rfl⟩
  have hread : (system (Fin 2) ℕ ℕ 8).Run
      [(start.goto 1 .popHead, .step 1 0), (start, .event (.call 1 .tryPop))]
      ((start.goto 1 .popHead).goto 1 (.popTail 0)) := hcall.step rfl
  exact ⟨_, by simp, steps_le hread⟩

end Runs

end ConcurrentQueue

end StringSampleSort.Tbb
