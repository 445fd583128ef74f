import StringSampleSort.Library.Transition

/-!
# Refinement of transition systems

Some labels of a system are visible from outside.  A system refines another when every
history of visible labels of the first is one of the second; a forward simulation proves
it.  A client cannot tell a component from one that it refines.

## Main results

- `Transition.Simulation.reaches`: a forward simulation carries over the histories
- `Transition.reachable_sync_iff`: the runs of two systems side by side are the pairs of
  runs with one history
- `Transition.Simulation.reachable_sync`: what a client reaches with a component, it reaches
  with every component that simulates this one
-/

namespace StringSampleSort.Library

namespace Transition

variable {σ σ' κ ℓ ℓ' ε : Type*}

/-! ## Histories -/

/-- State `s'` is reached from `s` by steps whose visible labels are `es`. -/
inductive Path (T : Transition σ ℓ) (vis : ℓ → Option ε) : σ → List ε → σ → Prop
  | refl (s : σ) : Path T vis s [] s
  | step {s s' s'' : σ} {es : List ε} {l : ℓ} :
      Path T vis s es s' → T.step s' l s'' → Path T vis s (es ++ (vis l).toList) s''

/-- State `s` is reached by a run whose visible labels are `es`. -/
def Reaches (T : Transition σ ℓ) (vis : ℓ → Option ε) (es : List ε) (s : σ) : Prop :=
  ∃ s₀, T.init s₀ ∧ T.Path vis s₀ es s

/-- Every history of `C` is a history of `A`. -/
def Refines (C : Transition σ ℓ) (vis : ℓ → Option ε) (A : Transition σ' ℓ')
    (vis' : ℓ' → Option ε) : Prop :=
  ∀ es s, C.Reaches vis es s → ∃ a, A.Reaches vis' es a

variable {T : Transition σ ℓ} {vis : ℓ → Option ε}

/-- One step is a path. -/
theorem Path.single {s s' : σ} {l : ℓ} (h : T.step s l s') :
    T.Path vis s (vis l).toList s' := by
  have hstart : T.Path vis s [] s := .refl s
  simpa using hstart.step h

theorem Path.trans {s s' s'' : σ} {es es' : List ε} (h : T.Path vis s es s')
    (h' : T.Path vis s' es' s'') : T.Path vis s (es ++ es') s'' := by
  induction h' with
  | refl => simpa using h
  | step _ hs ih =>
    rw [← List.append_assoc]
    exact ih.step hs

theorem Reaches.path {s s' : σ} {es es' : List ε} (h : T.Reaches vis es s)
    (hp : T.Path vis s es' s') : T.Reaches vis (es ++ es') s' := by
  obtain ⟨s₀, hinit, hpath⟩ := h
  exact ⟨s₀, hinit, hpath.trans hp⟩

theorem Reaches.reachable {s : σ} {es : List ε} (h : T.Reaches vis es s) : T.Reachable s := by
  obtain ⟨s₀, hinit, hpath⟩ := h
  induction hpath with
  | refl => exact .start hinit
  | step _ hs ih => exact ih.step hs

/-- Every reachable state is reached with some history. -/
theorem Reachable.reaches (vis : ℓ → Option ε) {s : σ} (h : T.Reachable s) :
    ∃ es, T.Reaches vis es s := by
  apply h.invariant (P := fun s => ∃ es, T.Reaches vis es s)
  · exact fun s hs => ⟨[], s, hs, .refl s⟩
  · rintro s l s' - ⟨es, s₀, hinit, hpath⟩ hs
    exact ⟨_, s₀, hinit, hpath.step hs⟩

/-- The last visible step of a path, and the invisible ones behind it. -/
theorem Path.last_visible {s s' : σ} {es : List ε} {e : ε}
    (h : T.Path vis s (es ++ [e]) s') :
    ∃ u l u', T.Path vis s es u ∧ vis l = some e ∧ T.step u l u' ∧ T.Path vis u' [] s' := by
  generalize heq : es ++ [e] = all at h
  induction h with
  | refl => simp at heq
  | @step u u' es' l hpath hs ih =>
    cases hl : vis l with
    | none =>
      -- the last step is invisible: the one looked for lies in the path before it
      rw [hl, Option.toList_none, List.append_nil] at heq
      obtain ⟨v, m, v', hbefore, hvis, hstep, hafter⟩ := ih heq
      have hlast : T.Path vis v' ([] ++ (vis l).toList) u' := hafter.step hs
      rw [hl] at hlast
      exact ⟨v, m, v', hbefore, hvis, hstep, by simpa using hlast⟩
    | some e' =>
      rw [hl, Option.toList_some] at heq
      obtain ⟨rfl, heq'⟩ := List.append_inj' heq rfl
      obtain rfl : e = e' := by simpa using heq'
      exact ⟨u, l, u', hpath, hl, hs, .refl u'⟩

/-! ## Forward simulation -/

/-- Every step of `C` is matched by a path of `A` with the same visible labels, and the
relation is kept. -/
structure Simulation (C : Transition σ ℓ) (vis : ℓ → Option ε) (A : Transition σ' ℓ')
    (vis' : ℓ' → Option ε) (R : σ → σ' → Prop) : Prop where
  init : ∀ s, C.init s → ∃ a, A.init a ∧ R s a
  step : ∀ s l s' a, C.Reachable s → A.Reachable a → R s a → C.step s l s' →
    ∃ a', A.Path vis' a (vis l).toList a' ∧ R s' a'

variable {C : Transition σ ℓ} {A : Transition σ' ℓ'} {vis' : ℓ' → Option ε}
  {R : σ → σ' → Prop}

theorem Simulation.reaches (h : Simulation C vis A vis' R) {es : List ε} {s : σ}
    (hs : C.Reaches vis es s) : ∃ a, A.Reaches vis' es a ∧ R s a := by
  obtain ⟨s₀, hinit, hpath⟩ := hs
  induction hpath with
  | refl =>
    obtain ⟨a, ha, hR⟩ := h.init _ hinit
    exact ⟨a, ⟨a, ha, .refl a⟩, hR⟩
  | step hpath hs ih =>
    obtain ⟨a, ha, hR⟩ := ih
    have hreach : C.Reaches vis _ _ := ⟨_, hinit, hpath⟩
    obtain ⟨a', hp, hR'⟩ := h.step _ _ _ _ hreach.reachable ha.reachable hR hs
    exact ⟨a', ha.path hp, hR'⟩

theorem Simulation.refines (h : Simulation C vis A vis' R) : Refines C vis A vis' := by
  intro es s hs
  obtain ⟨a, ha, -⟩ := h.reaches hs
  exact ⟨a, ha⟩

/-- The related state of a reachable one is reachable. -/
theorem Simulation.reachable (h : Simulation C vis A vis' R) {s : σ} (hs : C.Reachable s) :
    ∃ a, A.Reachable a ∧ R s a := by
  obtain ⟨es, hreach⟩ := hs.reaches vis
  obtain ⟨a, ha, hR⟩ := h.reaches hreach
  exact ⟨a, ha.reachable, hR⟩

/-! ## A client and a component -/

/-- A step of two systems side by side: of one alone, or of both together. -/
inductive SyncLabel (ℓ ℓ' : Type*) where
  | client (l : ℓ)
  | component (l : ℓ')
  | both (l : ℓ) (l' : ℓ')

/-- Two systems side by side.  They take their visible steps together, and the others
alone. -/
def sync (K : Transition κ ℓ) (vis : ℓ → Option ε) (C : Transition σ ℓ')
    (vis' : ℓ' → Option ε) : Transition (κ × σ) (SyncLabel ℓ ℓ') where
  init s := K.init s.1 ∧ C.init s.2
  step s l s' :=
    match l with
    | .client l => vis l = none ∧ K.step s.1 l s'.1 ∧ s'.2 = s.2
    | .component l => vis' l = none ∧ C.step s.2 l s'.2 ∧ s'.1 = s.1
    | .both l l' =>
      ∃ e, vis l = some e ∧ vis' l' = some e ∧ K.step s.1 l s'.1 ∧ C.step s.2 l' s'.2

section Sync

variable {K : Transition κ ℓ} {C : Transition σ ℓ'} {vis' : ℓ' → Option ε}

/-- Invisible steps of the component are steps of the whole. -/
theorem Reachable.component_path {k : κ} {s s' : σ}
    (h : (K.sync vis C vis').Reachable (k, s)) (hp : C.Path vis' s [] s') :
    (K.sync vis C vis').Reachable (k, s') := by
  generalize hes : ([] : List ε) = es at hp
  induction hp with
  | refl => exact h
  | @step u u' es l _ hs ih =>
    have hnil := List.append_eq_nil_iff.mp hes.symm
    refine (ih hnil.1.symm).step (l := .component l) ⟨?_, hs, rfl⟩
    simpa using hnil.2

/-- Two runs with one history make a run of the whole. -/
theorem reachable_sync {k : κ} {s : σ} {es : List ε} (hk : K.Reaches vis es k)
    (hs : C.Reaches vis' es s) : (K.sync vis C vis').Reachable (k, s) := by
  obtain ⟨k₀, hk₀, hpath⟩ := hk
  induction hpath generalizing s with
  | refl =>
    obtain ⟨s₀, hs₀, hp⟩ := hs
    exact (Reachable.start (T := K.sync vis C vis') (s := (k₀, s₀)) ⟨hk₀, hs₀⟩).component_path hp
  | @step k k' es l _ hstep ih =>
    cases hl : vis l with
    | none =>
      rw [hl, Option.toList_none, List.append_nil] at hs
      exact (ih hs).step (l := .client l) ⟨hl, hstep, rfl⟩
    | some e =>
      -- the component's last visible step is the one to take together
      rw [hl, Option.toList_some] at hs
      obtain ⟨s₀, hs₀, hp⟩ := hs
      obtain ⟨u, m, u', hbefore, hm, hu, hafter⟩ := hp.last_visible
      have htogether : (K.sync vis C vis').step (k, u) (.both l m) (k', u') :=
        ⟨e, hl, hm, hstep, hu⟩
      exact ((ih ⟨s₀, hs₀, hbefore⟩).step htogether).component_path hafter

/-- A run of the whole is a run of each part, with one history. -/
theorem Reachable.split {p : κ × σ} (h : (K.sync vis C vis').Reachable p) :
    ∃ es, K.Reaches vis es p.1 ∧ C.Reaches vis' es p.2 := by
  apply h.invariant (P := fun p => ∃ es, K.Reaches vis es p.1 ∧ C.Reaches vis' es p.2)
  · exact fun p hp => ⟨[], ⟨p.1, hp.1, .refl _⟩, ⟨p.2, hp.2, .refl _⟩⟩
  · rintro ⟨k, s⟩ l ⟨k', s'⟩ - ⟨es, hk, hs⟩ hstep
    cases l with
    | client l =>
      obtain ⟨hl, hK, rfl⟩ := hstep
      refine ⟨es, ?_, hs⟩
      simpa [hl] using hk.path (.single hK)
    | component l =>
      obtain ⟨hl, hC, rfl⟩ := hstep
      refine ⟨es, hk, ?_⟩
      simpa [hl] using hs.path (.single hC)
    | both l l' =>
      obtain ⟨e, hl, hl', hK, hC⟩ := hstep
      refine ⟨es ++ [e], ?_, ?_⟩
      · simpa [hl] using hk.path (.single hK)
      · simpa [hl'] using hs.path (.single hC)

theorem reachable_sync_iff {k : κ} {s : σ} : (K.sync vis C vis').Reachable (k, s) ↔
    ∃ es, K.Reaches vis es k ∧ C.Reaches vis' es s :=
  ⟨Reachable.split, fun ⟨_, hk, hs⟩ => reachable_sync hk hs⟩

/-- A client reaches with a component only what it reaches with the other one of the
simulation. -/
theorem Simulation.reachable_sync {σ'' m : Type*} {A : Transition σ'' m} {visA : m → Option ε}
    {R : σ → σ'' → Prop} (h : Simulation C vis' A visA R) {k : κ} {s : σ}
    (hs : (K.sync vis C vis').Reachable (k, s)) :
    ∃ a, (K.sync vis A visA).Reachable (k, a) ∧ R s a := by
  obtain ⟨es, hk, hc⟩ := reachable_sync_iff.mp hs
  obtain ⟨a, ha, hR⟩ := h.reaches hc
  exact ⟨a, Transition.reachable_sync hk ha, hR⟩

end Sync

end Transition

end StringSampleSort.Library
