import StringSampleSort.Library.Transition
import Mathlib.Data.BitVec

/-!
# The lazy counter

Model of `lazy_counter` of `src/tools/lockfree.hpp`: any number of threads that call `add` and
`update`, interleaved by their atomic loads, stores and fetch operations.

What has been added is never lost altogether: it is in the counter, in a slot, or in the hands
of an `update`.  But `update` clears `m_changed` at its end, and a slot that has been added to
after it was scanned is then no longer looked at.

## Main results

- `LazyCounter.reachable_total`: what has been added is in the counter, a slot, or under way
- `LazyCounter.get_update_iff`: when all calls have returned, the next `update` finds it if and only
  if `m_changed` is set or the slots add up to zero
- `noUpdateLost`: nothing is lost when no `update` clears `m_changed` over a slot
-/

namespace StringSampleSort

open Library

/-! ## Model -/

/-- `ssize_t`. -/
abbrev SSize := BitVec 64

/-- The members of a `lazy_counter`. -/
structure LazyCounter where
  /-- `m_thr[t].delta` -/
  delta : ℕ → SSize
  /-- `m_counter` -/
  counter : SSize
  /-- `m_changed` -/
  changed : Bool
  /-- `m_nthr` -/
  nthr : ℕ

namespace LazyCounter

/-- The constructor. -/
def create (initial : SSize) (nthr : ℕ) : LazyCounter := ⟨fun _ => 0, initial, false, nthr⟩

/-- `get()`. -/
def get (c : LazyCounter) : SSize := c.counter

/-- The loop of `update()` up to slot `k`: the slots and `agg_delta`. -/
def scan (c : LazyCounter) : ℕ → (ℕ → SSize) × SSize
  | 0 => (c.delta, 0)
  | k + 1 =>
    let s := c.scan k
    if s.1 k = 0 then s else (Function.update s.1 k (s.1 k - s.1 k), s.2 + s.1 k)

/-- `update()` while no other call is active. -/
def update (c : LazyCounter) : LazyCounter :=
  if !c.changed then c
  else
    let s := c.scan c.nthr
    { c with delta := s.1, counter := c.counter + s.2, changed := false }

/-- The calls that threads make. -/
inductive Call where
  | add (delta : SSize) (thr : ℕ)
  | update

/-- Program points of `add` and `update`. -/
inductive Pc where
  /-- no call is active -/
  | idle
  /-- at `m_thr[thr].delta.fetch_add(delta)` -/
  | addDelta (delta : SSize) (thr : ℕ)
  /-- at `m_changed.store(true)` -/
  | addChanged
  /-- at `if (!m_changed)` -/
  | updateTest
  /-- at `delta = m_thr[t].delta`, or behind the loop -/
  | updateLoad (t : ℕ) (agg_delta : SSize)
  /-- at `m_thr[t].delta.fetch_sub(delta)` -/
  | updateSub (t : ℕ) (delta agg_delta : SSize)
  /-- at `m_counter.fetch_add(agg_delta)` -/
  | updateAdd (agg_delta : SSize)
  /-- at `m_changed.store(false)` -/
  | updateClear
  deriving DecidableEq

/-- A counter in use by `n` threads.  `added` lists the deltas of all calls of `add`. -/
structure Use (n : ℕ) where
  shared : LazyCounter
  pc : Fin n → Pc
  added : List SSize

namespace Use

variable {n : ℕ}

/-- Thread `t` moves to another program point. -/
def goto (s : Use n) (t : Fin n) (p : Pc) : Use n := { s with pc := Function.update s.pc t p }

/-- The next atomic step of thread `t`, which makes `call` when it is idle. -/
def threadStep (s : Use n) (t : Fin n) (call : Call) : Option (Use n) :=
  let c := s.shared
  match s.pc t with
  | .idle =>
    match call with
    | .add delta thr =>
      if thr < c.nthr then some ({ s with added := s.added ++ [delta] }.goto t (.addDelta delta thr))
      else none
    | .update => some (s.goto t .updateTest)
  | .addDelta delta thr =>
    some ({ s with
      shared := { c with delta := Function.update c.delta thr (c.delta thr + delta) } }.goto t
        .addChanged)
  | .addChanged => some ({ s with shared := { c with changed := true } }.goto t .idle)
  | .updateTest => some (s.goto t (if !c.changed then .idle else .updateLoad 0 0))
  | .updateLoad k agg_delta =>
    if k < c.nthr then
      if c.delta k = 0 then some (s.goto t (.updateLoad (k + 1) agg_delta))
      else some (s.goto t (.updateSub k (c.delta k) agg_delta))
    else some (s.goto t (.updateAdd agg_delta))
  | .updateSub k delta agg_delta =>
    some ({ s with
      shared := { c with delta := Function.update c.delta k (c.delta k - delta) } }.goto t
        (.updateLoad (k + 1) (agg_delta + delta)))
  | .updateAdd agg_delta =>
    some ({ s with shared := { c with counter := c.counter + agg_delta } }.goto t .updateClear)
  | .updateClear => some ({ s with shared := { c with changed := false } }.goto t .idle)

/-- The state before the first call. -/
def start (n : ℕ) (initial : SSize) (nthr : ℕ) : Use n := ⟨create initial nthr, fun _ => .idle, []⟩

/-- All interleavings of the threads. -/
def system (n : ℕ) (initial : SSize) (nthr : ℕ) : Transition (Use n) (Fin n) where
  init s := s = start n initial nthr
  step s t s' := ∃ call, s.threadStep t call = some s'

/-- One interleaving, given by the threads that take the next steps and the calls they make: the
steps taken, latest first, and the state reached. -/
def runSchedule : List (Use n × Fin n) → Use n → List (Fin n × Call) → List (Use n × Fin n) × Use n
  | tr, s, [] => (tr, s)
  | tr, s, (t, call) :: rest =>
    match s.threadStep t call with
    | some s' => runSchedule ((s, t) :: tr) s' rest
    | none => (tr, s)

/-- All calls have returned. -/
def Returned (s : Use n) : Prop := ∀ t, s.pc t = .idle

instance (s : Use n) : Decidable s.Returned := inferInstanceAs (Decidable (∀ _, _))

end Use

/-! ## Sums of the slots -/

/-- What the slots add up to. -/
def slotSum (c : LazyCounter) : SSize := ∑ t ∈ Finset.range c.nthr, c.delta t

theorem sum_update_slot (delta : ℕ → SSize) {k m : ℕ} (hk : k < m) (x : SSize) :
    ∑ t ∈ Finset.range m, Function.update delta k x t =
      ∑ t ∈ Finset.range m, delta t - delta k + x := by
  have hsum := sum_update_add (Finset.range m) id delta (Finset.mem_range.mpr hk) x
  simp only [id] at hsum
  rw [eq_sub_iff_add_eq.mpr hsum]
  abel

/-- The loop moves the slots into `agg_delta`. -/
theorem scan_spec (c : LazyCounter) (k : ℕ) :
    (∀ t < k, (c.scan k).1 t = 0) ∧ (∀ t, k ≤ t → (c.scan k).1 t = c.delta t) ∧
      (c.scan k).2 = ∑ t ∈ Finset.range k, c.delta t := by
  induction k with
  | zero => exact ⟨fun t ht => absurd ht (Nat.not_lt_zero t), fun _ _ => rfl, rfl⟩
  | succ k ih =>
    obtain ⟨hzero, hkeep, hagg⟩ := ih
    have hk := hkeep k (le_refl k)
    rw [scan, Finset.sum_range_succ]
    by_cases h : (c.scan k).1 k = 0
    · rw [if_pos h]
      refine ⟨fun t ht => ?_, fun t ht => hkeep t (by omega), ?_⟩
      · rcases Nat.eq_or_lt_of_le (Nat.lt_succ_iff.mp ht) with rfl | hlt
        · exact h
        · exact hzero t hlt
      · rw [hagg, ← hk, h, add_zero]
    · rw [if_neg h]
      refine ⟨fun t ht => ?_, fun t ht => ?_, ?_⟩
      · rcases Nat.eq_or_lt_of_le (Nat.lt_succ_iff.mp ht) with rfl | hlt
        · exact (Function.update_self ..).trans (sub_self _)
        · exact (Function.update_of_ne hlt.ne _ _).trans (hzero t hlt)
      · exact (Function.update_of_ne (by omega) _ _).trans (hkeep t (by omega))
      · exact congrArg₂ (· + ·) hagg hk

/-- What `update().get()` returns. -/
theorem get_update (c : LazyCounter) :
    c.update.get = if c.changed then c.counter + c.slotSum else c.counter := by
  rw [update, get]
  cases c.changed with
  | false => rfl
  | true => exact congrArg (c.counter + ·) (c.scan_spec c.nthr).2.2

/-! ## What is under way -/

/-- What a thread has taken from its caller or from a slot and not yet passed on. -/
def Pc.inFlight : Pc → SSize
  | .addDelta delta _ => delta
  | .updateLoad _ agg_delta | .updateSub _ _ agg_delta | .updateAdd agg_delta => agg_delta
  | _ => 0

/-- The slot that a thread is about to change exists. -/
def Pc.InBounds (nthr : ℕ) : Pc → Prop
  | .addDelta _ thr => thr < nthr
  | .updateSub k _ _ => k < nthr
  | _ => True

/-- The thread will still set `m_changed`, or is in an `update` that has found it set. -/
def Pc.willSettle : Pc → Bool
  | .addChanged | .updateLoad _ _ | .updateSub _ _ _ | .updateAdd _ | .updateClear => true
  | _ => false

namespace Use

variable {n : ℕ} {initial : SSize} {nthr : ℕ}

/-- Nothing that has been added is lost from the state. -/
structure Invariant (initial : SSize) (nthr : ℕ) (s : Use n) : Prop where
  nthr_eq : s.shared.nthr = nthr
  bounds : ∀ t, (s.pc t).InBounds nthr
  total : s.shared.counter + s.shared.slotSum + ∑ t, (s.pc t).inFlight = initial + s.added.sum

/-- Thread `t` moves to `p`.  The premise says what it does to what it had under way. -/
theorem Invariant.move {s u : Use n} (h : Invariant initial nthr s) (t : Fin n) {p : Pc}
    (hpc : u.pc = s.pc) (hnthr : u.shared.nthr = nthr) (hp : p.InBounds nthr)
    (htotal : u.shared.counter + u.shared.slotSum + p.inFlight + s.added.sum =
      s.shared.counter + s.shared.slotSum + (s.pc t).inFlight + u.added.sum) :
    Invariant initial nthr (u.goto t p) := by
  have hsum := sum_update_add _ Pc.inFlight s.pc (Finset.mem_univ t) p
  refine ⟨hnthr, fun v => ?_, ?_⟩
  · show (Function.update u.pc t p v).InBounds nthr
    rw [hpc]
    by_cases hv : v = t
    · rw [hv, Function.update_self]
      exact hp
    · rw [Function.update_of_ne hv]
      exact h.bounds v
  · show u.shared.counter + u.shared.slotSum + ∑ v, (Function.update u.pc t p v).inFlight =
      initial + u.added.sum
    rw [hpc]
    -- both sides agree after adding what the premise and the exchange of summands say
    refine add_right_cancel (b := (s.pc t).inFlight + s.added.sum) ?_
    calc u.shared.counter + u.shared.slotSum + ∑ v, (Function.update s.pc t p v).inFlight +
          ((s.pc t).inFlight + s.added.sum)
        = (u.shared.counter + u.shared.slotSum + s.added.sum) +
            ((∑ v, (Function.update s.pc t p v).inFlight) + (s.pc t).inFlight) := by abel
      _ = (u.shared.counter + u.shared.slotSum + p.inFlight + s.added.sum) +
            ∑ v, (s.pc v).inFlight := by rw [hsum]; abel
      _ = (s.shared.counter + s.shared.slotSum + ∑ v, (s.pc v).inFlight) +
            ((s.pc t).inFlight + u.added.sum) := by rw [htotal]; abel
      _ = initial + u.added.sum + ((s.pc t).inFlight + s.added.sum) := by rw [h.total]; abel

/-- Every step of a thread keeps the invariant. -/
theorem Invariant.step {s s' : Use n} (h : Invariant initial nthr s) {t : Fin n} {call : Call}
    (hs : s.threadStep t call = some s') : Invariant initial nthr s' := by
  have hbounds := h.bounds t
  have hn := h.nthr_eq
  unfold threadStep at hs
  -- by the program point: a delta goes from the call to a slot, and from a slot to the counter
  cases hp : s.pc t with
  | idle =>
    rw [hp] at hs
    cases call with
    | add delta thr =>
      by_cases hthr : thr < s.shared.nthr
      · simp only [hthr, if_true, Option.some_inj] at hs
        subst hs
        refine h.move t rfl hn (hn ▸ hthr) ?_
        rw [hp]
        simp only [Pc.inFlight, List.sum_append, List.sum_singleton]
        abel
      · simp only [hthr, if_false, reduceCtorEq] at hs
    | update =>
      simp only [Option.some_inj] at hs
      subst hs
      exact h.move t rfl hn trivial (by rw [hp]; rfl)
  | addDelta delta thr =>
    rw [hp] at hbounds
    simp only [hp, Option.some_inj] at hs
    subst hs
    -- `fetch_add`: the delta is in the slot now
    refine h.move t rfl hn trivial ?_
    rw [hp]
    simp only [slotSum, Pc.inFlight]
    rw [sum_update_slot _ (hn.symm ▸ hbounds)]
    abel
  | addChanged =>
    simp only [hp, Option.some_inj] at hs
    subst hs
    exact h.move t rfl hn trivial (by rw [hp]; rfl)
  | updateTest =>
    simp only [hp, Option.some_inj] at hs
    subst hs
    refine h.move t rfl hn ?_ ?_
    · split <;> trivial
    · rw [hp]
      split <;> rfl
  | updateLoad k agg_delta =>
    rw [hp] at hs
    by_cases hk : k < s.shared.nthr
    · by_cases hzero : s.shared.delta k = 0
      · simp only [hk, hzero, if_true, Option.some_inj] at hs
        subst hs
        exact h.move t rfl hn trivial (by rw [hp]; rfl)
      · simp only [hk, hzero, if_true, if_false, Option.some_inj] at hs
        subst hs
        exact h.move t rfl hn (hn ▸ hk) (by rw [hp]; rfl)
    · simp only [hk, if_false, Option.some_inj] at hs
      subst hs
      exact h.move t rfl hn trivial (by rw [hp]; rfl)
  | updateSub k delta agg_delta =>
    rw [hp] at hbounds
    simp only [hp, Option.some_inj] at hs
    subst hs
    -- `fetch_sub`: what has been read leaves the slot, whatever has been added meanwhile
    refine h.move t rfl hn trivial ?_
    rw [hp]
    simp only [slotSum, Pc.inFlight]
    rw [sum_update_slot _ (hn.symm ▸ hbounds)]
    abel
  | updateAdd agg_delta =>
    simp only [hp, Option.some_inj] at hs
    subst hs
    -- what has been collected reaches the counter
    refine h.move t rfl hn trivial ?_
    rw [hp]
    simp only [slotSum, Pc.inFlight]
    abel
  | updateClear =>
    simp only [hp, Option.some_inj] at hs
    subst hs
    exact h.move t rfl hn trivial (by rw [hp]; rfl)

theorem reachable_invariant {s : Use n} (h : (system n initial nthr).Reachable s) :
    Invariant initial nthr s := by
  refine h.invariant (fun s hs => ?_) fun s t s' _ hinv hstep => ?_
  · subst hs
    exact ⟨rfl, fun _ => trivial, by simp [start, create, slotSum, Pc.inFlight]⟩
  · obtain ⟨call, hcall⟩ := hstep
    exact hinv.step hcall

theorem run_runSchedule {sched : List (Fin n × Call)} {tr : List (Use n × Fin n)} {s : Use n}
    (h : (system n initial nthr).Run tr s) :
    (system n initial nthr).Run (runSchedule tr s sched).1 (runSchedule tr s sched).2 := by
  induction sched generalizing tr s with
  | nil => exact h
  | cons c rest ih =>
    rw [runSchedule]
    split
    · next s' hs => exact ih (h.step ⟨c.2, hs⟩)
    · exact h

/-- What has been added is in the counter or in a slot when all calls have returned. -/
theorem reachable_total {s : Use n} (h : (system n initial nthr).Reachable s) (hr : s.Returned) :
    s.shared.counter + s.shared.slotSum = initial + s.added.sum := by
  rw [← (reachable_invariant h).total]
  simp [hr _, Pc.inFlight]

/-- The next `update` finds it if and only if `m_changed` is set or the slots add up to zero. -/
theorem get_update_iff {s : Use n} (h : (system n initial nthr).Reachable s) (hr : s.Returned) :
    s.shared.update.get = initial + s.added.sum ↔
      s.shared.changed = true ∨ s.shared.slotSum = 0 := by
  rw [get_update, ← reachable_total h hr]
  cases s.shared.changed with
  | false => simp
  | true => simp

/-! ## Clearing the flag -/

/-- Thread `t` clears `m_changed` while the slots add up to zero, or while another thread will
still set it or clear it. -/
def ClearsInTime (s : Use n) (t : Fin n) : Prop :=
  s.shared.slotSum = 0 ∨ ∃ u, u ≠ t ∧ (s.pc u).willSettle = true

instance (s : Use n) (t : Fin n) : Decidable (s.ClearsInTime t) :=
  inferInstanceAs (Decidable (_ ∨ _))

/-- The slots will be looked at again, or need not be. -/
def Seen (s : Use n) : Prop :=
  s.shared.changed = true ∨ s.shared.slotSum = 0 ∨ ∃ u, (s.pc u).willSettle = true

/-- A thread that will settle the slots does so after the step, too. -/
theorem seen_of_willSettle {s : Use n} {t : Fin n} {p : Pc} (hp : p.willSettle = true) :
    (s.goto t p).Seen := by
  refine Or.inr (Or.inr ⟨t, ?_⟩)
  show (Function.update s.pc t p t).willSettle = true
  rwa [Function.update_self]

/-- A thread that does not touch the slots and will not settle them makes no difference. -/
theorem Seen.move {s u : Use n} (h : s.Seen) {t : Fin n} {p : Pc} (hpc : u.pc = s.pc)
    (hshared : u.shared = s.shared) (ht : (s.pc t).willSettle = false) : (u.goto t p).Seen := by
  rcases h with h | h | ⟨v, hv⟩
  · exact Or.inl (hshared ▸ h)
  · exact Or.inr (Or.inl (hshared ▸ h))
  · refine Or.inr (Or.inr ⟨v, ?_⟩)
    show (Function.update u.pc t p v).willSettle = true
    -- thread `v` settles, so it is not thread `t`
    rw [Function.update_of_ne, hpc]
    · exact hv
    · rintro rfl
      rw [ht] at hv
      exact absurd hv (by simp)

/-- Only a thread that clears `m_changed` can hide a slot. -/
theorem Seen.step {s s' : Use n} (h : s.Seen) {t : Fin n} {call : Call}
    (hs : s.threadStep t call = some s')
    (hclear : s.pc t = .updateClear → s.ClearsInTime t) : s'.Seen := by
  unfold threadStep at hs
  -- a step that changes a slot is taken by a thread that will settle; others change nothing
  cases hp : s.pc t with
  | idle =>
    rw [hp] at hs
    have ht : (s.pc t).willSettle = false := by rw [hp]; rfl
    cases call with
    | add delta thr =>
      by_cases hthr : thr < s.shared.nthr
      · simp only [hthr, if_true, Option.some_inj] at hs
        subst hs
        exact h.move rfl rfl ht
      · simp only [hthr, if_false, reduceCtorEq] at hs
    | update =>
      simp only [Option.some_inj] at hs
      subst hs
      exact h.move rfl rfl ht
  | addDelta delta thr =>
    simp only [hp, Option.some_inj] at hs
    subst hs
    exact seen_of_willSettle rfl
  | addChanged =>
    simp only [hp, Option.some_inj] at hs
    subst hs
    exact Or.inl rfl
  | updateTest =>
    simp only [hp, Option.some_inj] at hs
    subst hs
    exact h.move rfl rfl (by rw [hp]; rfl)
  | updateLoad k agg_delta =>
    rw [hp] at hs
    by_cases hk : k < s.shared.nthr
    · by_cases hzero : s.shared.delta k = 0
      · simp only [hk, hzero, if_true, Option.some_inj] at hs
        subst hs
        exact seen_of_willSettle rfl
      · simp only [hk, hzero, if_true, if_false, Option.some_inj] at hs
        subst hs
        exact seen_of_willSettle rfl
    · simp only [hk, if_false, Option.some_inj] at hs
      subst hs
      exact seen_of_willSettle rfl
  | updateSub k delta agg_delta =>
    simp only [hp, Option.some_inj] at hs
    subst hs
    exact seen_of_willSettle rfl
  | updateAdd agg_delta =>
    simp only [hp, Option.some_inj] at hs
    subst hs
    exact seen_of_willSettle rfl
  | updateClear =>
    simp only [hp, Option.some_inj] at hs
    subst hs
    -- the flag is cleared here, so the slots add up to zero or another thread will look at them
    rcases hclear hp with hzero | ⟨u, hu, hsettle⟩
    · exact Or.inr (Or.inl hzero)
    · refine Or.inr (Or.inr ⟨u, ?_⟩)
      show (Function.update s.pc t .idle u).willSettle = true
      rwa [Function.update_of_ne hu]

/-- In a run in which `m_changed` is always cleared in time, the slots are always looked at
again. -/
theorem run_seen {tr : List (Use n × Fin n)} {s : Use n} (h : (system n initial nthr).Run tr s)
    (hclear : ∀ u t, (u, t) ∈ tr → u.pc t = .updateClear → u.ClearsInTime t) : s.Seen := by
  induction h with
  | start hs =>
    subst hs
    -- at the start there is nothing in the slots
    exact Or.inr (Or.inl (by simp [start, create, slotSum]))
  | step _ hstep ih =>
    obtain ⟨call, hcall⟩ := hstep
    refine (ih fun u t hmem => hclear u t (List.mem_cons_of_mem _ hmem)).step hcall ?_
    exact hclear _ _ (List.mem_cons_self ..)

end Use

end LazyCounter

/-! ## Main results -/

open LazyCounter in
/-- In every run in which `m_changed` is cleared only while the slots add up to zero or another
call is about to set it or to clear it, nothing is lost. -/
theorem noUpdateLost {n : ℕ} {initial : SSize} {nthr : ℕ} {tr : List (Use n × Fin n)} {s : Use n}
    (h : (Use.system n initial nthr).Run tr s)
    (hclear : ∀ u t, (u, t) ∈ tr → u.pc t = .updateClear → u.ClearsInTime t) (hr : s.Returned) :
    s.shared.update.get = initial + s.added.sum := by
  rw [Use.get_update_iff ⟨tr, h⟩ hr]
  rcases Use.run_seen h hclear with hc | hzero | ⟨u, hu⟩
  · exact Or.inl hc
  · exact Or.inr hzero
  · rw [hr u] at hu
    exact absurd hu Bool.false_ne_true

open LazyCounter in
/-- Thread `t` adds 5 and updates the counter.  Thread `u` adds 7 to its slot behind the scan
and sets `m_changed` after thread `t` has cleared it, then it updates the counter, too. -/
def addUpdate (t u : Fin n) : List (Fin n × Call) :=
  (t, .add 5 0) :: List.replicate 5 (t, .update) ++ (u, .add 7 1) ::
    List.replicate 4 (t, .update) ++ (u, .update) :: (t, .update) ::
    List.replicate 9 (u, .update)

open LazyCounter in
theorem noUpdateLost_addUpdate :
    let run := Use.runSchedule [] (Use.start 2 0 2) (addUpdate 0 1)
    run.2.Returned ∧ run.2.added = [5, 7] ∧ run.2.shared.update.get = 0 + run.2.added.sum := by
  intro run
  have hclear : ∀ p ∈ run.1, p.1.pc p.2 = .updateClear → p.1.ClearsInTime p.2 := by decide
  have hr : run.2.Returned := by decide
  refine ⟨hr, by decide,
    noUpdateLost (Use.run_runSchedule (.start rfl)) (fun u t hmem => ?_) hr⟩
  exact hclear (u, t) hmem

open LazyCounter in
/-- Thread `t` adds 5.  Thread `u` updates the counter and has scanned the slot when thread `t`
adds 7 to it and sets `m_changed`, which thread `u` then clears. -/
def lostUpdate (t u : Fin n) : List (Fin n × Call) :=
  [(t, .add 5 0), (t, .update), (t, .update), (u, .update), (u, .update), (u, .update),
    (u, .update), (t, .add 7 0), (t, .update), (t, .update), (u, .update), (u, .update),
    (u, .update)]

open LazyCounter in
/-- The second delta is lost. -/
theorem update_lost : ∃ s, (Use.system 2 0 1).Reachable s ∧ s.Returned ∧
    s.shared.update.get ≠ 0 + s.added.sum :=
  ⟨(Use.runSchedule [] (Use.start 2 0 1) (lostUpdate 0 1)).2,
    ⟨_, Use.run_runSchedule (.start rfl)⟩, by decide, by decide⟩

end StringSampleSort
