import StringSampleSort.Library.Buckets

/-!
# Bounds-checked arrays

Accesses to the `n` elements of an array, and differences of unsigned indices, that have no result
outside of their range.  An algorithm that is written with them has a result only if all its
accesses are within bounds.

## Main results

- `readAt_of_lt`, `writeAt_of_lt`, `exchangeAt_of_lt`, `decrement_of_pos`: accesses within bounds
-/

namespace StringSampleSort.Library

variable {α : Type*}

/-- `A[i]`. -/
def readAt (n : ℕ) (A : ℕ → α) (i : ℕ) : Option α := if i < n then some (A i) else none

/-- `A[i] = x;` -/
def writeAt (n : ℕ) (A : ℕ → α) (i : ℕ) (x : α) : Option (ℕ → α) :=
  if i < n then some (Function.update A i x) else none

/-- `std::swap(A[i], A[j]);` -/
def exchangeAt (n : ℕ) (A : ℕ → α) (i j : ℕ) : Option (ℕ → α) :=
  if i < n ∧ j < n then some (A ∘ Equiv.swap i j) else none

/-- `--x`, for an unsigned number that must not wrap. -/
def decrement (x : ℕ) : Option ℕ := if x = 0 then none else some (x - 1)

/-- `x - y`, for unsigned numbers that must not wrap. -/
def subtract (x y : ℕ) : Option ℕ := if y ≤ x then some (x - y) else none

section Bounds

variable {n i j x : ℕ}

theorem readAt_of_lt (A : ℕ → α) (hi : i < n) : readAt n A i = some (A i) := if_pos hi

theorem writeAt_of_lt (A : ℕ → α) (hi : i < n) (x : α) :
    writeAt n A i x = some (Function.update A i x) := if_pos hi

theorem exchangeAt_of_lt (A : ℕ → α) (hi : i < n) (hj : j < n) :
    exchangeAt n A i j = some (A ∘ Equiv.swap i j) := if_pos ⟨hi, hj⟩

theorem decrement_of_pos (hx : 0 < x) : decrement x = some (x - 1) := if_neg hx.ne'

theorem subtract_of_le {y : ℕ} (hy : y ≤ x) : subtract x y = some (x - y) := if_pos hy

theorem readAt_of_ge (A : ℕ → α) (hi : n ≤ i) : readAt n A i = none := if_neg (not_lt.mpr hi)

theorem readAt_eq_some_iff {A : ℕ → α} {x : α} : readAt n A i = some x ↔ i < n ∧ A i = x := by
  rw [readAt, Option.ite_none_right_eq_some, Option.some_inj]

theorem decrement_eq_some_iff {y : ℕ} : decrement x = some y ↔ 0 < x ∧ x - 1 = y := by
  rw [decrement, Option.ite_none_left_eq_some, Option.some_inj, Nat.pos_iff_ne_zero]

theorem readAt_comp {β : Type*} (f : α → β) (A : ℕ → α) :
    readAt n (f ∘ A) i = (readAt n A i).map f := by
  rw [readAt, readAt, Option.map_if]
  rfl

theorem writeAt_comp {β : Type*} (f : α → β) (A : ℕ → α) (y : α) :
    writeAt n (f ∘ A) i (f y) = (writeAt n A i y).map (f ∘ ·) := by
  rw [writeAt, writeAt, Option.map_if, Function.comp_update]

end Bounds

end StringSampleSort.Library
