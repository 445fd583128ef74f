import StringSampleSort.Library.CheckedArray
import StringSampleSort.Library.Slice

/-!
# Insertion sort

The loops of insertion sort on an array.  The comparison need only be right for the elements
of the array, as when strings are compared from a depth that they all reach.

## Main results

- `insertDown_spec`: one element is inserted into a sorted front
- `insertionSort_spec`: the array is sorted and rearranged, and nothing behind it changes
- `insertionRounds_filter`, `insertionRounds_stable`: elements of one class keep their order
- `insertionLoopChecked_eq`: all accesses are within bounds
-/

namespace StringSampleSort.Library

variable {α ι : Type*}

/-- `while (j != 0) { if (leq(A[j - 1], tmp)) break; A[j] = A[j - 1]; --j; } A[j] = tmp;` -/
def insertDown (leq : α → α → Bool) (tmp : α) : ℕ → (ℕ → α) → ℕ → α
  | 0, A => Function.update A 0 tmp
  | j + 1, A =>
    if leq (A j) tmp then Function.update A (j + 1) tmp
    else insertDown leq tmp j (Function.update A (j + 1) (A j))

/-- So many rounds of the outer loop, each of which inserts one more element. -/
def insertionRounds (leq : α → α → Bool) : ℕ → (ℕ → α) → ℕ → α
  | 0, A => A
  | r + 1, A =>
    let A := insertionRounds leq r A
    insertDown leq (A (r + 1)) (r + 1) A

/-- How often `--n != 0` holds for a `size_t`, which wraps at zero. -/
def decrementRounds (n : ℕ) : ℕ := if n = 0 then 2 ^ 64 - 1 else n - 1

/-- `for (i = 1; --n != 0; ++i)` around the insertion. -/
def insertionSort (leq : α → α → Bool) (n : ℕ) (A : ℕ → α) : ℕ → α :=
  insertionRounds leq (decrementRounds n) A

section Spec

variable [LinearOrder ι] {leq : α → α → Bool} {f : α → ι} {D : α → Prop}

/-- The comparison follows the order of `f` on the elements in `D`. -/
def Decides (leq : α → α → Bool) (f : α → ι) (D : α → Prop) : Prop :=
  ∀ x y, D x → D y → (leq x y = true → f x ≤ f y) ∧ (leq x y = false → f y ≤ f x)

/-- The place `j` is free for `tmp` or an element below it: the other elements up to `i` are
sorted, and those behind the place are not below `tmp`. -/
structure FreePlace (f : α → ι) (D : α → Prop) (tmp : α) (i j : ℕ) (A : ℕ → α) : Prop where
  le : j ≤ i
  mem : ∀ p ≤ i, p ≠ j → D (A p)
  sorted : ∀ p q, p < q → q ≤ i → p ≠ j → q ≠ j → f (A p) ≤ f (A q)
  high : ∀ k, j < k → k ≤ i → f tmp ≤ f (A k)

/-- Filling the place finishes the insertion once nothing before it is above `tmp`. -/
theorem FreePlace.fill {tmp : α} {i j : ℕ} {A : ℕ → α} (h : FreePlace f D tmp i j A)
    (hlow : ∀ p < j, f (A p) ≤ f tmp) {p q : ℕ} (hpq : p ≤ q) (hq : q ≤ i) :
    f (Function.update A j tmp p) ≤ f (Function.update A j tmp q) := by
  rcases Nat.eq_or_lt_of_le hpq with rfl | hlt
  · exact le_refl _
  · by_cases hp : p = j
    · subst hp
      rw [Function.update_self, Function.update_of_ne (by omega)]
      exact h.high q hlt hq
    · rw [Function.update_of_ne hp]
      by_cases hqj : q = j
      · subst hqj
        rw [Function.update_self]
        exact hlow p hlt
      · rw [Function.update_of_ne hqj]
        exact h.sorted p q hlt hq hp hqj

/-- An element that is not below `tmp` moves up, and its place becomes free. -/
theorem FreePlace.shift {tmp : α} {i j : ℕ} {A : ℕ → α} (h : FreePlace f D tmp i (j + 1) A)
    (hgt : f tmp ≤ f (A j)) :
    FreePlace f D tmp i j (Function.update A (j + 1) (A j)) := by
  have hle := h.le
  refine ⟨by omega, fun p hpi hp => ?_, fun p q hpq hqi hp hq => ?_, fun k hjk hki => ?_⟩
  · by_cases hp' : p = j + 1
    · rw [hp', Function.update_self]
      exact h.mem j (by omega) (by omega)
    · rw [Function.update_of_ne hp']
      exact h.mem p hpi hp'
  · by_cases hp' : p = j + 1
    · rw [hp', Function.update_self, Function.update_of_ne (by omega)]
      exact h.sorted j q (by omega) hqi (by omega) (by omega)
    · rw [Function.update_of_ne hp']
      by_cases hq' : q = j + 1
      · rw [hq', Function.update_self]
        exact h.sorted p j (by omega) (by omega) hp' (by omega)
      · rw [Function.update_of_ne hq']
        exact h.sorted p q hpq hqi hp' hq'
  · by_cases hk : k = j + 1
    · rw [hk, Function.update_self]
      exact hgt
    · rw [Function.update_of_ne hk]
      exact h.high k (by omega) hki

/-- One element is inserted into a sorted front. -/
theorem insertDown_spec (hleq : Decides leq f D) {A : ℕ → α} {tmp : α} {n i j : ℕ} (hi : i < n)
    (htmp : D tmp) (h : FreePlace f D tmp i j A) :
    (∀ p q, p ≤ q → q ≤ i → f (insertDown leq tmp j A p) ≤ f (insertDown leq tmp j A q)) ∧
      (contents (insertDown leq tmp j A) n).Perm (contents (Function.update A j tmp) n) ∧
      ∀ p, i < p → insertDown leq tmp j A p = A p := by
  induction j generalizing A with
  | zero =>
    exact ⟨fun p q hpq hq => h.fill (by omega) hpq hq, List.Perm.refl _,
      fun p hp => Function.update_of_ne (by omega) _ _⟩
  | succ j ih =>
    have hji := h.le
    have hcmp := hleq (A j) tmp (h.mem j (by omega) (by omega)) htmp
    rw [insertDown]
    split
    · next hle =>
      refine ⟨fun p q hpq hq => h.fill (fun p hp => ?_) hpq hq, List.Perm.refl _,
        fun p hp => Function.update_of_ne (by omega) _ _⟩
      rcases Nat.eq_or_lt_of_le (Nat.lt_succ_iff.mp hp) with rfl | hlt
      · exact hcmp.1 hle
      · exact (h.sorted p j hlt (by omega) (by omega) (by omega)).trans (hcmp.1 hle)
    · next hgt =>
      obtain ⟨h₁, h₂, h₃⟩ := ih (h.shift (hcmp.2 (Bool.not_eq_true _ ▸ hgt)))
      refine ⟨h₁, h₂.trans ?_, fun p hp => ?_⟩
      · -- filling the lower place is filling the upper one and an exchange
        rw [Function.update_comm (Nat.succ_ne_self j), update_swap A tmp (Nat.succ_ne_self j)]
        exact perm_swap _ (by omega) (by omega)
      · rw [h₃ p hp, Function.update_of_ne (by omega)]

/-- After `r` rounds the first `r + 1` elements are sorted. -/
theorem insertionRounds_spec (hleq : Decides leq f D) {A : ℕ → α} {n r : ℕ} (hr : r < n)
    (hD : ∀ p < n, D (A p)) :
    (∀ p q, p ≤ q → q ≤ r → f (insertionRounds leq r A p) ≤ f (insertionRounds leq r A q)) ∧
      (contents (insertionRounds leq r A) n).Perm (contents A n) ∧
      ∀ p, r < p → insertionRounds leq r A p = A p := by
  induction r with
  | zero =>
    refine ⟨fun p q hpq hq => ?_, List.Perm.refl _, fun _ _ => rfl⟩
    rw [show p = q by omega]
  | succ r ih =>
    obtain ⟨h₁, h₂, h₃⟩ := ih (by omega)
    have hmem : ∀ p < n, D (insertionRounds leq r A p) := by
      intro p hp
      obtain ⟨q, hq, heq⟩ := mem_contents.mp (h₂.mem_iff.mp (mem_contents.mpr ⟨p, hp, rfl⟩))
      rw [← heq]
      exact hD q hq
    have hfree : FreePlace f D (insertionRounds leq r A (r + 1)) (r + 1) (r + 1)
        (insertionRounds leq r A) :=
      ⟨le_refl _, fun p hp _ => hmem p (by omega),
        fun p q hpq hq _ hqr => h₁ p q hpq.le (by omega), fun k h h' => by omega⟩
    obtain ⟨g₁, g₂, g₃⟩ := insertDown_spec hleq hr (hmem _ hr) hfree
    refine ⟨g₁, g₂.trans ?_, fun p hp => ?_⟩
    · rw [Function.update_eq_self]
      exact h₂
    · rw [insertionRounds, g₃ p hp, h₃ p (by omega)]

/-- The array is sorted and rearranged, and nothing behind it changes. -/
theorem insertionSort_spec (hleq : Decides leq f D) {A : ℕ → α} {n : ℕ} (hn : 0 < n)
    (hD : ∀ p < n, D (A p)) :
    Slice.MonotoneIn (f ∘ insertionSort leq n A) 0 n ∧
      (contents (insertionSort leq n A) n).Perm (contents A n) ∧
      ∀ p, n ≤ p → insertionSort leq n A p = A p := by
  have hrounds : decrementRounds n = n - 1 := if_neg hn.ne'
  obtain ⟨h₁, h₂, h₃⟩ := insertionRounds_spec hleq (r := n - 1) (by omega) hD
  rw [insertionSort, hrounds]
  refine ⟨fun p q hp hq hpq => h₁ p q hpq ?_, h₂, fun p hp => h₃ p (by omega)⟩
  have := hq.2
  omega

end Spec

/-! ## Stability -/

section Stability

variable {leq : α → α → Bool} {D : α → Prop} {q : α → Bool}

/-- Two neighbours in an array. -/
theorem contents_neighbours (A : ℕ → α) {n j : ℕ} (hj : j + 1 < n) :
    contents A n = slice A 0 j ++ A j :: A (j + 1) :: slice A (j + 2) (n - (j + 2)) := by
  have hsplit := Slice.slice_append A 0 j (2 + (n - (j + 2)))
  rw [show j + (2 + (n - (j + 2))) = n by omega, Slice.slice_zero, Nat.zero_add,
    Slice.slice_append] at hsplit
  rw [hsplit]
  rfl

/-- Exchanging neighbours that are not both of a class keeps the elements of the class in order. -/
theorem filter_swap_neighbours (A : ℕ → α) {n j : ℕ} (hj : j + 1 < n)
    (hq : ¬ (q (A j) = true ∧ q (A (j + 1)) = true)) :
    (contents (A ∘ Equiv.swap (j + 1) j) n).filter q = (contents A n).filter q := by
  have hout : ∀ p, p ≠ j → p ≠ j + 1 → (A ∘ Equiv.swap (j + 1) j) p = A p := fun p h h' => by
    rw [Function.comp_apply, Equiv.swap_apply_of_ne_of_ne h' h]
  rw [contents_neighbours _ hj, contents_neighbours A hj,
    Slice.slice_congr (B := A) fun p hp => hout p (by have := hp.2; omega) (by have := hp.2; omega),
    Slice.slice_congr (B := A) fun p hp => hout p (by have := hp.1; omega) (by have := hp.1; omega)]
  simp only [Function.comp_apply, Equiv.swap_apply_left, Equiv.swap_apply_right,
    List.filter_append, List.filter_cons]
  cases h : q (A j) <;> cases h' : q (A (j + 1)) <;> simp_all

/-- An insertion passes no element of its own class. -/
theorem insertDown_filter (hclass : ∀ x y, D x → D y → leq x y = false → ¬ (q x = true ∧ q y = true))
    {A : ℕ → α} {tmp : α} {n j : ℕ} (hj : j < n) (hD : ∀ p < n, D (A p)) (htmp : D tmp) :
    (contents (insertDown leq tmp j A) n).filter q =
      (contents (Function.update A j tmp) n).filter q := by
  induction j generalizing A with
  | zero => rfl
  | succ j ih =>
    rw [insertDown]
    split
    · rfl
    · next hgt =>
      have hne : leq (A j) tmp = false := Bool.not_eq_true _ ▸ hgt
      have hD' : ∀ p < n, D (Function.update A (j + 1) (A j) p) := by
        intro p hp
        by_cases hpj : p = j + 1
        · rw [hpj, Function.update_self]
          exact hD j (by omega)
        · rw [Function.update_of_ne hpj]
          exact hD p hp
      rw [ih (by omega) hD', Function.update_comm (Nat.succ_ne_self j),
        update_swap A tmp (Nat.succ_ne_self j)]
      refine filter_swap_neighbours _ hj ?_
      rw [Function.update_self, Function.update_of_ne (by omega)]
      exact hclass _ _ (hD j (by omega)) htmp hne

/-- All rounds together keep the elements of a class in order. -/
theorem insertionRounds_filter (hclass : ∀ x y, D x → D y → leq x y = false →
    ¬ (q x = true ∧ q y = true)) {A : ℕ → α} {n r : ℕ} (hr : r < n)
    (hmem : ∀ r < n, ∀ p < n, D (insertionRounds leq r A p)) :
    (contents (insertionRounds leq r A) n).filter q = (contents A n).filter q := by
  induction r with
  | zero => rfl
  | succ r ih =>
    have hround := insertDown_filter hclass hr (hmem r (by omega)) (hmem r (by omega) (r + 1) hr)
    rw [Function.update_eq_self] at hround
    rw [insertionRounds, hround, ih (by omega)]

variable [LinearOrder ι] {f : α → ι}

/-- The elements are sorted, and equal ones are in their old order. -/
structure StableSort (f : α → ι) (A : ℕ → α) (n : ℕ) (B : ℕ → α) : Prop where
  sorted : Slice.MonotoneIn (f ∘ B) 0 n
  perm : (contents B n).Perm (contents A n)
  stable : ∀ v, (contents B n).filter (fun x => decide (f x = v)) =
    (contents A n).filter fun x => decide (f x = v)

/-- With an exact comparison the sort is stable. -/
theorem insertionRounds_stable (hleq : ∀ x y, D x → D y → (leq x y = true ↔ f x ≤ f y))
    {A : ℕ → α} {n : ℕ} (hD : ∀ p < n, D (A p)) :
    StableSort f A n (insertionRounds leq (n - 1) A) := by
  have hdecides : Decides leq f D := fun x y hx hy =>
    ⟨(hleq x y hx hy).mp, fun hfalse => (not_le.mp fun hle => by
      rw [(hleq x y hx hy).mpr hle] at hfalse
      exact Bool.noConfusion hfalse).le⟩
  rcases Nat.eq_zero_or_pos n with rfl | hn
  · exact ⟨fun p q hp => absurd hp.2 (by omega), List.Perm.refl _, fun _ => rfl⟩
  · obtain ⟨h₁, h₂, -⟩ := insertionRounds_spec hdecides (r := n - 1) (by omega) hD
    refine ⟨fun p q hp hq hpq => h₁ p q hpq (by have := hq.2; omega), h₂, fun v => ?_⟩
    refine insertionRounds_filter (D := D) (fun x y hx hy hfalse => ?_) (by omega) fun r hr p hp => ?_
    · rintro ⟨hxv, hyv⟩
      rw [(hleq x y hx hy).mpr ((of_decide_eq_true hxv).trans (of_decide_eq_true hyv).symm).le]
        at hfalse
      exact Bool.noConfusion hfalse
    · obtain ⟨-, hperm, -⟩ := insertionRounds_spec hdecides hr hD
      obtain ⟨q, hq, heq⟩ := mem_contents.mp (hperm.mem_iff.mp (mem_contents.mpr ⟨p, hp, rfl⟩))
      exact heq ▸ hD q hq

end Stability

/-! ## Bounds -/

section Bounds

/-- `insertDown` on an array of `n` elements, with a comparison that may fail. -/
def insertDownChecked (n : ℕ) (leq : α → α → Option Bool) (tmp : α) :
    ℕ → (ℕ → α) → Option (ℕ → α)
  | 0, A => writeAt n A 0 tmp
  | j + 1, A =>
    (readAt n A j).bind fun prev => (leq prev tmp).bind fun le =>
      if le then writeAt n A (j + 1) tmp
      else (writeAt n A (j + 1) prev).bind (insertDownChecked n leq tmp j)

/-- So many rounds of the outer loop, from place `i` on. -/
def insertionLoopChecked (n : ℕ) (leq : α → α → Option Bool) :
    ℕ → ℕ → (ℕ → α) → Option (ℕ → α)
  | 0, _, A => some A
  | r + 1, i, A =>
    (readAt n A i).bind fun tmp => (insertDownChecked n leq tmp i A).bind
      (insertionLoopChecked n leq r (i + 1))

variable {D : α → Prop} {leq : α → α → Bool} {leqc : α → α → Option Bool} {n : ℕ}

theorem insertDownChecked_eq (hleq : ∀ x y, D x → D y → leqc x y = some (leq x y)) {A : ℕ → α}
    {tmp : α} {j : ℕ} (hj : j < n) (hD : ∀ p < n, D (A p)) (htmp : D tmp) :
    insertDownChecked n leqc tmp j A = some (insertDown leq tmp j A) ∧
      ∀ p < n, D (insertDown leq tmp j A p) := by
  have hupdate : ∀ {B : ℕ → α} {k : ℕ} {x : α}, (∀ p < n, D (B p)) → D x →
      ∀ p < n, D (Function.update B k x p) := by
    intro B k x hB hx p hp
    by_cases hpk : p = k
    · rw [hpk, Function.update_self]
      exact hx
    · rw [Function.update_of_ne hpk]
      exact hB p hp
  induction j generalizing A with
  | zero => exact ⟨writeAt_of_lt A hj tmp, hupdate hD htmp⟩
  | succ j ih =>
    have hprev : D (A j) := hD j (by omega)
    rw [insertDownChecked, readAt_of_lt A (by omega), Option.bind_some, hleq _ _ hprev htmp,
      Option.bind_some, insertDown, writeAt_of_lt A hj, writeAt_of_lt A hj]
    split
    · exact ⟨rfl, hupdate hD htmp⟩
    · exact ih (by omega) (hupdate hD hprev)

/-- All accesses of the loop are within bounds, as long as there is a next element in each round. -/
theorem insertionLoopChecked_eq (leqc : α → α → Option Bool) (leq : α → α → Bool)
    (hleq : ∀ x y, D x → D y → leqc x y = some (leq x y)) {A : ℕ → α}
    (hD : ∀ p < n, D (A p)) {r k : ℕ} (hr : k + r < n ∨ r = 0) :
    insertionLoopChecked n leqc r (k + 1) (insertionRounds leq k A) =
      some (insertionRounds leq (k + r) A) := by
  have hmem : ∀ k < n, ∀ p < n, D (insertionRounds leq k A p) := by
    intro k hk
    induction k with
    | zero => exact hD
    | succ k ih =>
      exact (insertDownChecked_eq hleq hk (ih (by omega)) (ih (by omega) _ hk)).2
  induction r generalizing k with
  | zero => rfl
  | succ r ih =>
    have hk : k + 1 < n := by omega
    obtain ⟨heq, -⟩ := insertDownChecked_eq hleq hk (hmem k (by omega)) (hmem k (by omega) _ hk)
    rw [insertionLoopChecked, readAt_of_lt _ hk, Option.bind_some, heq, Option.bind_some]
    have hnext := ih (k := k + 1) (by omega)
    rwa [show k + 1 + r = k + (r + 1) by omega] at hnext

end Bounds

end StringSampleSort.Library
