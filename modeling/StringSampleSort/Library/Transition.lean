import Mathlib.Algebra.BigOperators.Group.Finset.Basic
import Mathlib.Tactic.Abel

/-!
# Labelled transition systems

Runs of a system that takes one labelled step after the other, the induction rule for
invariants, and sums over the components of a state when one component changes.

## Main results

- `Transition.Run.invariant`: what holds at first and is kept by every step holds in
  every state of a run
- `Transition.Run.length_le`: a rank that goes down in every step bounds the runs
- `Transition.exists_reachable_of_bounded`: bounded runs that need not stop elsewhere come to a
  goal
- `sum_update_add`: exchanging one summand
-/

namespace StringSampleSort.Library

/-- A system that starts in a state of `init` and moves along `step`. -/
structure Transition (σ ℓ : Type*) where
  init : σ → Prop
  step : σ → ℓ → σ → Prop

namespace Transition

variable {σ ℓ : Type*} (T : Transition σ ℓ)

/-- A run and the state it has reached.  The list holds, latest first, every step with the
state in which it was taken. -/
inductive Run : List (σ × ℓ) → σ → Prop
  | start {s : σ} : T.init s → Run [] s
  | step {tr : List (σ × ℓ)} {s s' : σ} {l : ℓ} :
      Run tr s → T.step s l s' → Run ((s, l) :: tr) s'

/-- A state that some run reaches. -/
def Reachable (s : σ) : Prop := ∃ tr, T.Run tr s

variable {T}

theorem Reachable.start {s : σ} (h : T.init s) : T.Reachable s := ⟨[], .start h⟩

theorem Reachable.step {s s' : σ} {l : ℓ} (h : T.Reachable s) (hs : T.step s l s') :
    T.Reachable s' := by
  obtain ⟨tr, hrun⟩ := h
  exact ⟨(s, l) :: tr, hrun.step hs⟩

/-- The induction rule: an invariant may use that the state it is kept from is reachable. -/
theorem Reachable.invariant {P : σ → Prop} (hinit : ∀ s, T.init s → P s)
    (hstep : ∀ s l s', T.Reachable s → P s → T.step s l s' → P s') {s : σ}
    (h : T.Reachable s) : P s := by
  obtain ⟨tr, hrun⟩ := h
  induction hrun with
  | start hi => exact hinit _ hi
  | step hrun hs ih => exact hstep _ _ _ ⟨_, hrun⟩ ih hs

/-- Every state in which a step of a run was taken is reachable. -/
theorem Run.reachable_of_mem {tr : List (σ × ℓ)} {s u : σ} {l : ℓ} (h : T.Run tr s)
    (hmem : (u, l) ∈ tr) : T.Reachable u := by
  induction h with
  | start => simp at hmem
  | step hrun _ ih =>
    rcases List.mem_cons.mp hmem with heq | htail
    · rw [(Prod.mk.inj heq).1]
      exact ⟨_, hrun⟩
    · exact ih htail

/-- A rank that goes down in every step pays for the steps of a run. -/
theorem Run.length_le (rank : σ → ℕ) {bound : ℕ} (hinit : ∀ s, T.init s → rank s ≤ bound)
    (hstep : ∀ s l s', T.Reachable s → T.step s l s' → rank s' < rank s) {tr : List (σ × ℓ)}
    {s : σ} (h : T.Run tr s) : tr.length + rank s ≤ bound := by
  induction h with
  | start hi => simpa using hinit _ hi
  | step hrun hs ih =>
    have := hstep _ _ _ ⟨_, hrun⟩ hs
    rw [List.length_cons]
    omega

/-- A system whose runs are bounded comes to a state from which it does not have to go on. -/
theorem exists_reachable_of_bounded {P : σ → Prop} (hinit : ∃ s, T.init s)
    (hbounded : ∃ bound, ∀ tr s, T.Run tr s → tr.length ≤ bound)
    (hgo : ∀ s, T.Reachable s → ¬ P s → ∃ l s', T.step s l s') : ∃ s, T.Reachable s ∧ P s := by
  by_contra hnone
  push Not at hnone
  -- else there are runs of every length
  have hrun : ∀ k, ∃ tr s, T.Run tr s ∧ tr.length = k := by
    intro k
    induction k with
    | zero =>
      obtain ⟨s, hs⟩ := hinit
      exact ⟨[], s, .start hs, rfl⟩
    | succ k ih =>
      obtain ⟨tr, s, hrun, rfl⟩ := ih
      obtain ⟨l, s', hs⟩ := hgo s ⟨tr, hrun⟩ (hnone s ⟨tr, hrun⟩)
      exact ⟨(s, l) :: tr, s', hrun.step hs, rfl⟩
  obtain ⟨bound, hle⟩ := hbounded
  obtain ⟨tr, s, hlong, hlen⟩ := hrun (bound + 1)
  have := hle tr s hlong
  omega

end Transition

/-! ## One component changes -/

section Components

variable {ι α M : Type*} [DecidableEq ι] [AddCommMonoid M]

/-- Exchanging one summand. -/
theorem sum_update_add (s : Finset ι) (f : α → M) (g : ι → α) {t : ι} (ht : t ∈ s) (x : α) :
    (∑ i ∈ s, f (Function.update g t x i)) + f (g t) = (∑ i ∈ s, f (g i)) + f x := by
  have hrest : ∑ i ∈ s.erase t, f (Function.update g t x i) = ∑ i ∈ s.erase t, f (g i) :=
    Finset.sum_congr rfl fun i hi => by
      rw [Function.update_of_ne (Finset.ne_of_mem_erase hi)]
  rw [← Finset.add_sum_erase _ (fun i => f (Function.update g t x i)) ht,
    ← Finset.add_sum_erase _ (fun i => f (g i)) ht, hrest, Function.update_self]
  abel

end Components

end StringSampleSort.Library
