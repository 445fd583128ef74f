import StringSampleSort.Library.Refinement
import Mathlib.Data.Finset.Basic
import Mathlib.Data.Finite.Defs
import Mathlib.Data.Fintype.Defs

/-!
# Atomic objects

Threads call the operations of a sequential object and return with their results; each
operation takes effect in one step between its call and its return.  An implementation is
linearizable when it refines the atomic object.

## Main results

- `SequentialObject.path_effect`: an operation takes effect
- `SequentialObject.path_effects`: several pending operations that do not change the object
  take effect one after the other
- `SequentialObject.Alone.path`: an operation that is called alone has its sequential result
-/

namespace StringSampleSort.Library

/-- An object used by one thread: an operation has a result and leads to the next state. -/
structure SequentialObject (S Op Res : Type*) where
  start : S
  apply : Op → S → Res × S

/-- What a thread is doing with the object. -/
inductive Call (Op Res : Type*) where
  | idle
  /-- called, and not yet taken effect -/
  | called (op : Op)
  /-- taken effect, and not yet returned -/
  | done (r : Res)
  deriving DecidableEq

/-- The visible events: calls and returns. -/
inductive ObjectEvent (τ Op Res : Type*) where
  | call (t : τ) (op : Op)
  | ret (t : τ) (r : Res)
  deriving DecidableEq

/-- The object and the calls in progress. -/
structure AtomicState (τ S Op Res : Type*) where
  state : S
  calls : τ → Call Op Res

/-- A call, a return, or an operation that takes effect. -/
inductive AtomicLabel (τ Op Res : Type*) where
  | event (e : ObjectEvent τ Op Res)
  | effect (t : τ)

/-- The event that is seen of a step. -/
def AtomicLabel.visible {τ Op Res : Type*} : AtomicLabel τ Op Res → Option (ObjectEvent τ Op Res)
  | .event e => some e
  | .effect _ => none

namespace SequentialObject

variable {τ S Op Res : Type*} [DecidableEq τ] (O : SequentialObject S Op Res)

/-- The operation called by `t` takes effect on the object. -/
def takeEffect (a : AtomicState τ S Op Res) (t : τ) (op : Op) : AtomicState τ S Op Res where
  state := (O.apply op a.state).2
  calls := Function.update a.calls t (.done (O.apply op a.state).1)

/-- The steps of the threads at the atomic object. -/
inductive Step : AtomicState τ S Op Res → AtomicLabel τ Op Res → AtomicState τ S Op Res → Prop
  | call {a : AtomicState τ S Op Res} {t : τ} (op : Op) :
      a.calls t = .idle →
        Step a (.event (.call t op)) { a with calls := Function.update a.calls t (.called op) }
  | effect {a : AtomicState τ S Op Res} {t : τ} {op : Op} :
      a.calls t = .called op → Step a (.effect t) (O.takeEffect a t op)
  | ret {a : AtomicState τ S Op Res} {t : τ} {r : Res} :
      a.calls t = .done r →
        Step a (.event (.ret t r)) { a with calls := Function.update a.calls t .idle }

/-- All threads at the atomic object. -/
def atomic (τ : Type*) [DecidableEq τ] :
    Transition (AtomicState τ S Op Res) (AtomicLabel τ Op Res) where
  init a := a.state = O.start ∧ ∀ t, a.calls t = .idle
  step := O.Step

variable {O} {a : AtomicState τ S Op Res} {t : τ}

theorem path_call (op : Op) (h : a.calls t = .idle) :
    (O.atomic τ).Path AtomicLabel.visible a [.call t op]
      { a with calls := Function.update a.calls t (.called op) } :=
  .single (T := O.atomic τ) (l := .event (.call t op)) (.call op h)

theorem path_ret {r : Res} (h : a.calls t = .done r) :
    (O.atomic τ).Path AtomicLabel.visible a [.ret t r]
      { a with calls := Function.update a.calls t .idle } :=
  .single (T := O.atomic τ) (l := .event (.ret t r)) (.ret h)

/-- One operation takes effect. -/
theorem path_effect {op : Op} (h : a.calls t = .called op) :
    (O.atomic τ).Path AtomicLabel.visible a [] (O.takeEffect a t op) :=
  .single (T := O.atomic τ) (l := .effect t) (.effect h)

/-- The threads of a finite set, all calling `op`, let it take effect one after the other.
The operation leaves the object as it is, so each gets the same result. -/
theorem path_effects {op : Op} {r : Res} (hop : O.apply op a.state = (r, a.state))
    (P : Finset τ) (h : ∀ t ∈ P, a.calls t = .called op) :
    (O.atomic τ).Path AtomicLabel.visible a []
      { a with calls := fun t => if t ∈ P then .done r else a.calls t } := by
  induction P using Finset.induction_on with
  | empty => simpa using Transition.Path.refl a
  | @insert t P ht ih =>
    have hbefore := ih fun u hu => h u (Finset.mem_insert_of_mem hu)
    set b : AtomicState τ S Op Res :=
      { a with calls := fun t => if t ∈ P then .done r else a.calls t } with hb
    have hcall : b.calls t = .called op := by
      simp [hb, ht, h t (Finset.mem_insert_self t P)]
    have hlast := hbefore.trans (path_effect hcall)
    have hstate : O.takeEffect b t op =
        { a with calls := fun u => if u ∈ insert t P then .done r else a.calls u } := by
      simp only [takeEffect, hb, hop, AtomicState.mk.injEq, true_and]
      funext u
      rcases eq_or_ne u t with rfl | hne
      · simp
      · simp [hne]
    rwa [hstate] at hlast

/-! ## One thread alone -/

variable (O) in
/-- Thread `t` has called `op` on the object in state `x`, and no other thread is in a
call. -/
structure Alone (a : AtomicState τ S Op Res) (t : τ) (op : Op) (x : S) : Prop where
  others : ∀ u, u ≠ t → a.calls u = .idle
  self : a.calls t = .called op ∧ a.state = x ∨
    a.calls t = .done (O.apply op x).1 ∧ a.state = (O.apply op x).2

/-- Until it returns, nothing else happens to the object. -/
theorem Alone.path {a' : AtomicState τ S Op Res} {op : Op} {x : S} (h : O.Alone a t op x)
    (hp : (O.atomic τ).Path AtomicLabel.visible a [] a') : O.Alone a' t op x := by
  generalize hes : ([] : List (ObjectEvent τ Op Res)) = es at hp
  induction hp with
  | refl => exact h
  | @step a a' es l _ hs ih =>
    obtain ⟨rfl, hl⟩ := List.append_eq_nil_iff.mp hes.symm
    obtain ⟨hothers, hself⟩ := ih rfl
    cases hs with
    | call | ret => simp [AtomicLabel.visible] at hl
    | @effect u op' hu =>
      -- only the call of `t` can take effect, and it has not done so before
      obtain rfl : u = t := by
        by_contra hne
        rw [hothers u hne] at hu
        simp at hu
      refine ⟨fun v hv => ?_, Or.inr ?_⟩
      · simpa [takeEffect, Function.update_of_ne hv] using hothers v hv
      · obtain ⟨hcalled, hstate⟩ | ⟨hdone, -⟩ := hself
        · obtain rfl : op = op' := by simpa [hcalled] using hu
          simp [takeEffect, hstate]
        · simp [hdone] at hu

end SequentialObject

end StringSampleSort.Library
