import StringSampleSort.Tbb.PageSteps
import Mathlib.Data.Set.Finite.Basic

/-!
# The concurrent queue is linearizable

A forward simulation to the atomic queue.  The list of the atomic queue is what has been
pushed in the order of the tickets, without what has been popped:

- a `push` takes effect when it draws its ticket, long before its item is in a page;
- a `try_pop` takes effect when it draws its ticket, or when it sees `tail_counter` at or
  below the `head_counter` that it has read;
- an `empty` that returns `true` takes effect when it reads `tail_counter` for the second
  time.  One that returns `false` takes effect when it reads `head_counter`, if the queue
  is not empty at that time, or else with the push that moves `tail_counter` away.

## Main results

- `ConcurrentQueue.simulation`: the forward simulation
- `ConcurrentQueue.linearizable`: every history is a history of the atomic queue
-/

namespace StringSampleSort.Tbb

open Library

/-! ## The calls in progress -/

namespace Pc

variable {π α : Type*}

/-- What is to be seen of a thread when the items pushed so far are `log`. -/
def status (log : List α) : Pc π α → Call (Op α) (Result α)
  | idle | fault => .idle
  | returned r => .done r
  | fetchTail item => .called (.push item)
  | pushAllocate _ _ | pushTurn _ _ _ | pushLock _ _ _ | pushReadTail _ _ _ | pushLink _ _ _ _
  | pushSetTail _ _ _ | pushUnlock _ _ _ | pushLoadTail _ _ | pushCopy _ _ _ | pushMask _ _
  | pushPublish _ => .done .pushed
  | popHead | popTail _ | popCas _ => .called .tryPop
  | popTurn k | popFilled k | popPage k | popMask k _ | popItem k _ => .done (.popped log[k]?)
  | popLock _ _ dst | popReadNext _ _ dst | popSetHead _ _ _ dst | popSetTail _ _ _ dst
  | popUnlock _ _ dst | popPublish _ _ dst | popFree _ dst => .done (.popped dst)
  | emptyTail => .called .empty
  | emptyHead tc => if tc = log.length then .called .empty else .done (.isEmpty false)
  | emptyCheck tc hc =>
    if tc = log.length ∧ hc = tc then .called .empty else .done (.isEmpty false)
  | emptyInvalid tc hc => .done (.isEmpty (decide (tc = hc)))

/-- An `empty` that has found the queue empty so far, and may still return `false`. -/
def Awaits (log : List α) : Pc π α → Prop
  | emptyHead tc => tc = log.length
  | emptyCheck tc hc => tc = log.length ∧ hc = tc
  | _ => False

theorem status_of_awaits {log : List α} {p : Pc π α} (h : p.Awaits log) :
    p.status log = .called .empty := by
  cases p with
  | emptyHead tc => exact if_pos h
  | emptyCheck tc hc => exact if_pos h
  | _ => exact h.elim

/-- A push by another thread: who awaits the end of `empty` will return `false`, and nobody
else notices. -/
theorem status_append {log : List α} {head : ℕ} {p : Pc π α} (hsnap : p.Snapshot head log.length)
    (hticket : ∀ k, p.stage.popTicket = some k → k < log.length) (x : α) :
    (p.Awaits log → p.status (log ++ [x]) = .done (.isEmpty false)) ∧
      (¬ p.Awaits log → p.status (log ++ [x]) = p.status log) := by
  cases p with
  | popTurn k | popFilled k | popPage k | popMask k | popItem k =>
    have hk : k < log.length := hticket k rfl
    simp [status, Awaits, List.getElem?_append_left hk]
  | emptyHead tc =>
    have htc : tc ≤ log.length := hsnap
    have hne : tc ≠ log.length + 1 := (Nat.lt_succ_of_le htc).ne
    simp +contextual [status, Awaits, hne]
  | emptyCheck tc hc =>
    have htc : tc ≤ log.length := hsnap.1
    have hne : tc ≠ log.length + 1 := (Nat.lt_succ_of_le htc).ne
    simp +contextual [status, Awaits, hne]
  | _ => exact ⟨False.elim, fun _ => rfl⟩

@[simp] theorem status_entry (log : List α) (op : Op α) :
    (ConcurrentQueue.entry op : Pc π α).status log = .called op := by
  cases op <;> rfl

/-- The item in a finalizer is the one to be returned. -/
@[simp] theorem status_finalize (log : List α) (itemSize k : ℕ) (p : π) (dst : Option α) :
    (ConcurrentQueue.finalize itemSize k p dst).status log = .done (.popped dst) := by
  unfold ConcurrentQueue.finalize
  split <;> rfl

theorem fits_finalize {n : ℕ} {log : List α} {itemSize k : ℕ} {p : π} {dst : Option α}
    (h : (ConcurrentQueue.finalize itemSize k p dst).Fits n log) : dst = log[k]? := by
  unfold ConcurrentQueue.finalize at h
  split at h <;> exact h.1

theorem status_afterPop (log : List α) {dst : Option α} (h : dst ≠ none) :
    (ConcurrentQueue.afterPop dst : Pc π α).status log = .done (.popped dst) := by
  obtain ⟨item, rfl⟩ := Option.ne_none_iff_exists'.mp h
  rfl

theorem status_afterPublish (log : List α) (p : Option π) {dst : Option α} (h : dst ≠ none) :
    (ConcurrentQueue.afterPublish p dst).status log = .done (.popped dst) := by
  cases p
  · exact status_afterPop log h
  · rfl

end Pc

namespace ConcurrentQueue

variable {τ π α : Type*} {s s' : ConcurrentQueue τ π α}

/-! ## The atomic queue behind a state -/

/-- The atomic queue and the calls in progress. -/
def view (s : ConcurrentQueue τ π α) (log : List α) :
    AtomicState τ (List α) (Op α) (Result α) where
  state := log.drop s.headCounter
  calls t := (s.pc t).status log

section View

variable [DecidableEq τ] {t : τ} {p : Pc π α} {log : List α}

/-- Thread `t` moves on, and the others are seen as before. -/
theorem view_goto (u : ConcurrentQueue τ π α) (hpc : u.pc = s.pc) :
    (u.goto t p).view log = ⟨log.drop u.headCounter,
      Function.update (s.view log).calls t (p.status log)⟩ := by
  simp only [view, goto, hpc, AtomicState.mk.injEq, true_and]
  funext v
  rcases eq_or_ne v t with rfl | hne
  · simp
  · simp [Function.update_of_ne hne]

/-- A step that is not seen. -/
theorem view_silent {u : ConcurrentQueue τ π α} (hpc : u.pc = s.pc)
    (hhead : u.headCounter = s.headCounter) (hp : p.status log = (s.pc t).status log) :
    ((fifo α).atomic τ).Path AtomicLabel.visible (s.view log) [] ((u.goto t p).view log) := by
  have hsame : (u.goto t p).view log = s.view log := by
    rw [view_goto u hpc, hhead, hp]
    exact congrArg _ (Function.update_eq_self t (s.view log).calls)
  rw [hsame]
  exact .refl _

/-- The step with which the call of thread `t` takes effect. -/
theorem view_effect (op : Op α) {u : ConcurrentQueue τ π α} {r : Result α} (hpc : u.pc = s.pc)
    (hcall : (s.pc t).status log = .called op) (hp : p.status log = .done r)
    (happly : (fifo α).apply op (log.drop s.headCounter) = (r, log.drop u.headCounter)) :
    ((fifo α).atomic τ).Path AtomicLabel.visible (s.view log) [] ((u.goto t p).view log) := by
  have heffect : (fifo α).takeEffect (s.view log) t op = (u.goto t p).view log := by
    rw [view_goto u hpc, hp]
    simp only [SequentialObject.takeEffect]
    rw [show (s.view log).state = log.drop s.headCounter from rfl, happly]
  rw [← heffect]
  exact SequentialObject.path_effect hcall

end View

/-! ## The simulation -/

section Simulation

variable [DecidableEq τ] [DecidableEq π] {itemSize : ℕ} {g g' : Ghost τ π α} {t : τ} {fresh : π}

omit [DecidableEq τ] [DecidableEq π] in
/-- Whose ticket has been drawn will get an item. -/
theorem Invariant.popTicket_lt (h : Invariant itemSize s g) {u : τ} {k : ℕ}
    (hu : (s.pc u).stage.popTicket = some k) : k < g.log.length := by
  -- a ticket is drawn below `tail_counter` only
  have hdrawn := ((h.1.pop.holds_iff k).mp ⟨u, hu⟩).1
  rw [h.2.log_length]
  exact hdrawn.trans_le h.1.head_le

omit [DecidableEq τ] [DecidableEq π] in
/-- A thread that is seen to be in no call is in no call. -/
theorem Invariant.idle_of_status (h : Invariant itemSize s g) {u : τ}
    (hu : (s.pc u).status g.log = .idle) : s.pc u = .idle := by
  have hok := h.pc_ne_fault u
  cases hp : s.pc u with
  | idle => rfl
  | fault => exact absurd hp hok
  | emptyHead | emptyCheck =>
    rw [hp] at hu
    simp only [Pc.status] at hu
    split at hu <;> simp at hu
  | _ => simp [hp, Pc.status] at hu

omit [DecidableEq π] in
/-- A push takes effect, and behind it every `empty` that it keeps from returning `true`. -/
theorem view_push [Finite τ] (h : Invariant itemSize s g) {item : α}
    (hp : s.pc t = .fetchTail item) {u : ConcurrentQueue τ π α} (hpc : u.pc = s.pc)
    (hhead : u.headCounter = s.headCounter) {k : ℕ} :
    ((fifo α).atomic τ).Path AtomicLabel.visible (s.view g.log) []
      ((u.goto t (.pushAllocate item k)).view (g.log ++ [item])) := by
  have hle : s.headCounter ≤ g.log.length := h.2.log_length ▸ h.1.head_le
  have hcall : (s.view g.log).calls t = .called (.push item) := by
    simp [view, hp, Pc.status]
  have hpush := SequentialObject.path_effect (O := fifo α) hcall
  set a := (fifo α).takeEffect (s.view g.log) t (.push item) with ha
  have hstate : a.state = (g.log ++ [item]).drop s.headCounter := by
    rw [List.drop_append_of_le_length hle]
    rfl
  -- behind the push the queue is not empty, so an undecided `empty` is to return false
  have hnonempty : a.state ≠ [] := by
    rw [hstate, List.drop_append_of_le_length hle]
    simp
  have hfalse : (fifo α).apply .empty a.state = (.isEmpty false, a.state) := by
    simp [fifo, hnonempty]
  set P := (Set.toFinite {v | (s.pc v).Awaits g.log}).toFinset with hP
  have hmem : ∀ v, v ∈ P ↔ (s.pc v).Awaits g.log := fun v => by simp [hP]
  have hothers : ∀ v, v ≠ t → a.calls v = (s.pc v).status g.log := fun v hv => by
    simp [ha, SequentialObject.takeEffect, Function.update_of_ne hv, view]
  -- the pushing thread is not one of those
  have hself : ¬ (s.pc t).Awaits g.log := by simp [hp, Pc.Awaits]
  have hpending : ∀ v ∈ P, a.calls v = .called .empty := by
    intro v hv
    have hawaits := (hmem v).mp hv
    rw [hothers v fun heq => hself (heq ▸ hawaits)]
    exact Pc.status_of_awaits hawaits
  have hempty := hpush.trans (SequentialObject.path_effects hfalse P hpending)
  have hview : (u.goto t (.pushAllocate item k)).view (g.log ++ [item]) =
      { a with calls := fun v => if v ∈ P then .done (.isEmpty false) else a.calls v } := by
    rw [view_goto u hpc, hhead]
    simp only [AtomicState.mk.injEq]
    refine ⟨hstate.symm, funext fun v => ?_⟩
    rcases eq_or_ne v t with rfl | hne
    · rw [if_neg (by rwa [hmem])]
      simp [ha, SequentialObject.takeEffect, Pc.status, fifo]
    · -- a thread that is not undecided keeps its status when the log grows
      have hsnap := h.1.snapshot v
      rw [← h.2.log_length] at hsnap
      have hstatus := Pc.status_append hsnap (fun _ => h.popTicket_lt) item
      rw [Function.update_of_ne hne, hothers v hne]
      by_cases hv : (s.pc v).Awaits g.log
      · rw [if_pos ((hmem v).mpr hv)]
        exact hstatus.1 hv
      · rw [if_neg (by rwa [hmem])]
        exact hstatus.2 hv
  rwa [hview]

/-- Every step of a thread is a step of the atomic queue, several, or none. -/
theorem view_step [Finite τ] (h : Invariant itemSize s g) (h' : Invariant itemSize s' g')
    (hlog : g'.log = (s.pc t).logs g.log) (hs : s.threadStep itemSize t fresh = some s') :
    ((fifo α).atomic τ).Path AtomicLabel.visible (s.view g.log) [] (s'.view g'.log) := by
  have hok := h'.pc_ne_fault t
  have hfits := h.2.fits t
  have hfits' := h'.2.fits t
  have hsnap := h.1.snapshot t
  unfold threadStep at hs
  -- by the program point: only few steps are moments at which a call takes effect
  cases hp : s.pc t with
  | idle | returned | fault => simp [hp] at hs
  | fetchTail item =>
    simp only [hp, Option.some_inj] at hs
    subst hs
    rw [hlog, hp]
    exact view_push h hp rfl rfl
  | pushAllocate item k =>
    rw [hlog, hp]
    simp only [hp] at hs
    split at hs
    · split at hs
      · simp only [Option.some_inj] at hs
        subst hs
        exact view_silent rfl rfl (by rw [hp]; rfl)
      · simp at hs
    · simp only [Option.some_inj] at hs
      subst hs
      exact view_silent rfl rfl (by rw [hp]; rfl)
  | pushTurn item k p =>
    rw [hlog, hp]
    simp only [hp] at hs
    split at hs
    · cases p with
      | some p | none =>
        simp only [Option.some_inj] at hs
        subst hs
        exact view_silent rfl rfl (by rw [hp]; rfl)
    · simp only [Option.ite_none_right_eq_some, Option.some_inj] at hs
      obtain ⟨-, rfl⟩ := hs
      simp [goto] at hok
  | pushLock item k p | popLock k p dst =>
    rw [hlog, hp]
    simp only [hp, Option.ite_none_right_eq_some, Option.some_inj] at hs
    obtain ⟨-, rfl⟩ := hs
    exact view_silent rfl rfl (by rw [hp]; rfl)
  | pushLink item k p q =>
    rw [hlog, hp]
    cases q with
    | none =>
      simp only [hp, Option.some_inj] at hs
      subst hs
      exact view_silent rfl rfl (by rw [hp]; rfl)
    | some q =>
      simp only [hp, Option.some_inj] at hs
      subst hs
      obtain ⟨page, -, heq⟩ := access_eq hok
      rw [heq]
      exact view_silent rfl rfl (by rw [hp]; rfl)
  | pushLoadTail item k =>
    rw [hlog, hp]
    simp only [hp] at hs
    split at hs <;> simp only [Option.some_inj] at hs <;> subst hs
    · exact view_silent rfl rfl (by rw [hp]; rfl)
    · simp [goto] at hok
  | pushCopy item k p | pushMask k p =>
    rw [hlog, hp]
    simp only [hp, Option.some_inj] at hs
    subst hs
    obtain ⟨page, -, heq⟩ := access_eq hok
    rw [heq]
    exact view_silent rfl rfl (by rw [hp]; rfl)
  | popTail k =>
    rw [hlog, hp]
    rw [hp] at hsnap
    simp only [hp] at hs
    split at hs <;> simp only [Option.some_inj] at hs <;> subst hs
    · next hle =>
      -- what the thread has read of `head_counter` bounds it from below
      have hempty : g.log.drop s.headCounter = [] := by
        rw [List.drop_eq_nil_iff, h.2.log_length]
        exact hle.trans hsnap
      refine view_effect .tryPop (by rfl) (by rw [hp]; rfl) (by rfl) ?_
      simp [fifo, hempty]
    · exact view_silent rfl rfl (by rw [hp]; rfl)
  | popCas k =>
    rw [hlog, hp]
    simp only [hp] at hs
    split at hs <;> simp only [Option.some_inj] at hs <;> subst hs
    · next hhead =>
      -- the first item of the log that is left has ticket `k`
      refine view_effect .tryPop (by rfl) (by rw [hp]; rfl) (by rfl) ?_
      simp [fifo, hhead]
    · exact view_silent rfl rfl (by rw [hp]; rfl)
  | popTurn k | popFilled k =>
    rw [hlog, hp]
    simp only [hp, Option.ite_none_right_eq_some, Option.ite_none_left_eq_some,
      Option.some_inj] at hs
    obtain ⟨-, rfl⟩ := hs
    exact view_silent rfl rfl (by rw [hp]; rfl)
  | popPage k =>
    rw [hlog, hp]
    simp only [hp] at hs
    split at hs <;> simp only [Option.some_inj] at hs <;> subst hs
    · exact view_silent rfl rfl (by rw [hp]; rfl)
    · simp [goto] at hok
  | popMask k p =>
    rw [hlog, hp]
    simp only [hp, Option.some_inj] at hs
    subst hs
    obtain ⟨page, -, heq⟩ := access_eq hok
    rw [heq] at hfits' ⊢
    split
    · exact view_silent rfl rfl (by rw [hp]; rfl)
    · next hmask =>
      -- a finalizer without an item would have to be that of a ticket without an item
      rw [if_neg hmask, hlog, hp] at hfits'
      have hnone : none = g.log[k]? := Pc.fits_finalize (by simpa [goto, Pc.logs] using hfits')
      apply view_silent rfl rfl
      rw [hp, Pc.status_finalize, hnone]
      rfl
  | popItem k p =>
    rw [hlog, hp]
    simp only [hp, Option.some_inj] at hs
    subst hs
    obtain ⟨page, -, heq⟩ := access_eq hok
    rw [heq] at hok hfits' ⊢
    split
    · next item hitem =>
      simp only [hitem, hlog, hp] at hfits'
      have hsome : some item = g.log[k]? := Pc.fits_finalize (by simpa [goto, Pc.logs] using hfits')
      apply view_silent rfl rfl
      rw [hp, Pc.status_finalize, hsome]
      rfl
    · next hitem =>
      simp [hitem, goto] at hok
  | popReadNext k p dst =>
    rw [hlog, hp]
    simp only [hp, Option.some_inj] at hs
    subst hs
    obtain ⟨page, -, heq⟩ := access_eq hok
    rw [heq]
    exact view_silent rfl rfl (by rw [hp]; rfl)
  | popSetTail k p q dst =>
    rw [hlog, hp]
    cases q with
    | none | some q =>
      simp only [hp, Option.some_inj] at hs
      subst hs
      exact view_silent rfl rfl (by rw [hp]; rfl)
  | popPublish k p dst =>
    rw [hlog, hp]
    rw [hp] at hfits
    simp only [hp, Option.some_inj] at hs
    subst hs
    -- the pop took effect when it drew its ticket
    apply view_silent rfl rfl
    rw [hp, Pc.status_afterPublish _ _ hfits.2]
    rfl
  | popFree p dst =>
    rw [hlog, hp]
    rw [hp] at hfits
    simp only [hp, Option.some_inj] at hs
    subst hs
    obtain ⟨page, -, heq⟩ := access_eq hok
    rw [heq]
    apply view_silent rfl rfl
    rw [hp, Pc.status_afterPop _ hfits]
    rfl
  | emptyTail =>
    rw [hlog, hp]
    simp only [hp, Option.some_inj] at hs
    subst hs
    -- the present value of `tail_counter` leaves the answer open
    apply view_silent rfl rfl
    rw [hp]
    exact if_pos h.2.log_length.symm
  | emptyHead tc =>
    rw [hlog, hp]
    rw [hp] at hsnap
    simp only [hp, Option.some_inj] at hs
    subst hs
    by_cases htc : tc = g.log.length
    · by_cases hhead : s.headCounter = tc
      · -- still undecided: the queue is empty, and `tail_counter` is to be read again
        apply view_silent rfl rfl
        rw [hp]
        simp [Pc.status, htc, hhead]
      · have hnonempty : g.log.drop s.headCounter ≠ [] := by
          rw [Ne, List.drop_eq_nil_iff, not_le, ← htc]
          exact lt_of_le_of_ne (htc ▸ h.2.log_length ▸ h.1.head_le) hhead
        -- an item that has not been popped yet: the answer is false, from now on
        refine view_effect .empty (by rfl) (r := .isEmpty false) ?_ ?_ ?_
        · rw [hp]
          exact if_pos htc
        · exact if_neg fun hand => hhead hand.2
        · simp [fifo, hnonempty]
    · apply view_silent rfl rfl
      rw [hp]
      simp [Pc.status, htc]
  | emptyCheck tc hc =>
    rw [hlog, hp]
    rw [hp] at hsnap
    simp only [hp] at hs
    split at hs <;> simp only [Option.some_inj] at hs <;> subst hs
    · next htc =>
      rw [← h.2.log_length] at htc
      by_cases hhc : hc = tc
      · have hempty : g.log.drop s.headCounter = [] := by
          rw [List.drop_eq_nil_iff, ← htc, ← hhc]
          exact hsnap.2
        -- nothing has been pushed since `head_counter` was read, so the queue is empty now
        refine view_effect .empty (by rfl) (r := .isEmpty true) ?_ ?_ ?_
        · rw [hp]
          exact if_pos ⟨htc, hhc⟩
        · simp [Pc.status, hhc]
        · simp [fifo, hempty]
      · apply view_silent rfl rfl
        rw [hp]
        simp [Pc.status, hhc, Ne.symm hhc]
    · next htc =>
      rw [← h.2.log_length] at htc
      apply view_silent rfl rfl
      rw [hp]
      simp [Pc.status, htc]
  | emptyInvalid tc hc =>
    rw [hlog, hp]
    simp only [hp, Option.some_inj] at hs
    subst hs
    apply view_silent rfl rfl
    simp [hp, Pc.status, h.2.valid]
  | _ =>
    rw [hlog, hp]
    simp only [hp, Option.some_inj] at hs
    subst hs
    exact view_silent rfl rfl (by rw [hp]; rfl)

/-- The relation of the simulation. -/
def Represents (itemSize : ℕ) (s : ConcurrentQueue τ π α)
    (a : AtomicState τ (List α) (Op α) (Result α)) : Prop :=
  ∃ g : Ghost τ π α, Invariant itemSize s g ∧ a = s.view g.log

/-- The concurrent queue does what the atomic queue can do. -/
theorem simulation [Finite τ] [Nonempty π] :
    Transition.Simulation (system τ π α itemSize) Label.visible ((fifo α).atomic τ)
      AtomicLabel.visible (Represents itemSize) where
  init := by
    rintro _ rfl
    refine ⟨⟨[], fun _ => .idle⟩, ⟨rfl, fun _ => rfl⟩, ⟨[], fun _ _ => Classical.arbitrary π,
      fun _ => none⟩, ⟨turns_start, pages_start _⟩, ?_⟩
    simp [view, start, Pc.status]
  step := by
    rintro s l s' _ - - ⟨g, hg, rfl⟩ hs
    obtain ⟨g', hg', hlog⟩ := hg.next hs
    -- the atomic queue is always in the state that is seen
    refine ⟨s'.view g'.log, ?_, g', hg', rfl⟩
    cases l with
    | event e =>
      cases e with
      | call t op =>
        obtain ⟨hpc, rfl⟩ := hs
        rw [hlog, view_goto s rfl, Pc.status_entry]
        apply SequentialObject.path_call
        simp [view, hpc, Pc.status]
      | ret t r =>
        obtain ⟨hpc, rfl⟩ := hs
        rw [hlog, view_goto s rfl]
        apply SequentialObject.path_ret
        simp [view, hpc, Pc.status]
    | step t fresh => exact view_step hg hg' hlog hs

/-- Every history of calls and returns is one of the atomic queue, for any number of threads
in any order. -/
theorem linearizable [Finite τ] [Nonempty π] :
    Transition.Refines (system τ π α itemSize) Label.visible ((fifo α).atomic τ)
      AtomicLabel.visible :=
  simulation.refines

theorem linearizable_two : Transition.Refines (system (Fin 2) ℕ ℕ 8) Label.visible
    ((fifo ℕ).atomic (Fin 2)) AtomicLabel.visible :=
  linearizable

end Simulation

end ConcurrentQueue

end StringSampleSort.Tbb
