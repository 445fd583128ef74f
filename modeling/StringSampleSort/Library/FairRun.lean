import StringSampleSort.Library.Transition
import Mathlib.Order.WellFounded

/-!
# Fair runs

Infinite runs of processes that are all scheduled again and again.  What a safety proof says about
every reachable state holds at all times of such a run; what it adds is that waiting for a process
that can go on comes to an end.

The argument is by a rank that no step raises.  It does not go down forever, so from some time on
only steps remain that keep it, and it is to be shown that those come to nothing else than the goal.

## Main results

- `FairRun.reachable`: a fair run stays in the reachable states
- `FairRun.eventually_const`: a rank that does not grow stops changing
- `FairRun.exists_next`: the next step of a process finds what the others leave alone
-/

namespace StringSampleSort.Library

/-- A run in which all processes take turns.  A process that is scheduled takes a step, unless it
cannot take any. -/
structure FairRun {σ ι : Type*} (T : Transition σ ι) where
  state : ℕ → σ
  scheduled : ℕ → ι
  init : T.init (state 0)
  step : ∀ k, T.step (state k) (scheduled k) (state (k + 1)) ∨
    state (k + 1) = state k ∧ ∀ s, ¬ T.step (state k) (scheduled k) s
  fair : ∀ i k, ∃ k' ≥ k, scheduled k' = i

namespace FairRun

variable {σ ι : Type*} {T : Transition σ ι} (r : FairRun T)

theorem reachable (k : ℕ) : T.Reachable (r.state k) := by
  induction k with
  | zero => exact .start r.init
  | succ k ih =>
    rcases r.step k with hstep | ⟨heq, -⟩
    · exact ih.step hstep
    · rw [heq]
      exact ih

/-- A rank that never grows does not change any more from some time on. -/
theorem eventually_const (rank : σ → ℕ)
    (hle : ∀ k, rank (r.state (k + 1)) ≤ rank (r.state k)) :
    ∃ K, ∀ k ≥ K, rank (r.state k) = rank (r.state K) := by
  have hanti : Antitone fun k => rank (r.state k) := antitone_nat_of_succ_le hle
  -- the time at which the rank is least
  refine ⟨Function.argmin fun k => rank (r.state k), fun k hk => ?_⟩
  exact le_antisymm (hanti hk) (Function.argmin_le (fun k => rank (r.state k)) k)

/-- What the others do not change is still there when a process is scheduled next. -/
theorem exists_next {α : Type*} (f : σ → α) (i : ι) {K : ℕ}
    (hkeep : ∀ k ≥ K, r.scheduled k ≠ i → f (r.state (k + 1)) = f (r.state k)) {k : ℕ}
    (hk : K ≤ k) : ∃ k' ≥ k, r.scheduled k' = i ∧ f (r.state k') = f (r.state k) := by
  obtain ⟨later, hlater, hi⟩ := r.fair i k
  -- by induction on how long it takes
  obtain ⟨d, rfl⟩ := Nat.exists_eq_add_of_le hlater
  clear hlater
  induction d generalizing k with
  | zero => exact ⟨k, le_refl k, hi, rfl⟩
  | succ d ih =>
    by_cases hnow : r.scheduled k = i
    · exact ⟨k, le_refl k, hnow, rfl⟩
    · obtain ⟨k', hk', hi', heq⟩ := ih (Nat.le_succ_of_le hk) (by rwa [Nat.succ_add_eq_add_succ])
      exact ⟨k', Nat.le_of_succ_le hk', hi', heq.trans (hkeep k hk hnow)⟩

/-- Processes whose steps are determined, in the order of a schedule. -/
def ofSchedule (next : σ → ι → Option σ)
    (hnext : ∀ s i s', next s i = some s' → T.step s i s')
    (hstuck : ∀ s i, next s i = none → ∀ s', ¬ T.step s i s') (s₀ : σ) (hinit : T.init s₀)
    (scheduled : ℕ → ι) (hfair : ∀ i k, ∃ k' ≥ k, scheduled k' = i) : FairRun T where
  state k := k.rec s₀ fun k s => (next s (scheduled k)).getD s
  scheduled := scheduled
  init := hinit
  step k := by
    dsimp only
    cases hs : next (Nat.rec s₀ (fun k s => (next s (scheduled k)).getD s) k) (scheduled k) with
    | some s' => exact Or.inl (hnext _ _ _ hs)
    | none => exact Or.inr ⟨rfl, hstuck _ _ hs⟩
  fair := hfair

end FairRun

end StringSampleSort.Library
