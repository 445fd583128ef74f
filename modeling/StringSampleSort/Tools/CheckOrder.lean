import StringSampleSort.Tools.StringSet

/-!
# The sortedness check

Model of `StringSetBase::check_order`, which both test programs use as their oracle.

The pair version scans with two iterators `c1` and `c2` and then calls
`is_leq(s1, c2, s2, c2)`: the iterator of the right string is passed for both strings.

## Main results

- `checkOrder_generic`: on NUL-terminated strings the check accepts every array
- `checkOrderPair_base`: what the misplaced iterator decides on the other sets
- `checkOrder_exact_iff`: exactly when the check is a correct oracle
-/

namespace StringSampleSort

open Library (lcpLen lcpLen_self lcpLen_le_right le_lcpLen_iff)

section CheckOrder

variable {S : Type} (ss : StringSet S)

/-! ## Model -/

/-- `check_order(s1, s2)`; both comparisons read at `c2`. -/
def checkOrderPair (s1 s2 : S) : Bool :=
  let c := ss.scanEqual s1 s2 (ss.length s1) (ss.getChars s1 0) (ss.getChars s2 0)
  ss.isLeq s1 c.2 s2 c.2

/-- The loop of `check_order()` from index `pi` to `size`, for at most `fuel` rounds.
The loop ends on `pi == end` only, so it runs past the array when `size` is zero. -/
def checkOrderLoop (arr : ℕ → S) (size : ℕ) : ℕ → ℕ → Option Bool
  | 0, _ => none
  | fuel + 1, pi =>
    if pi = size then some true
    else if checkOrderPair ss (arr (pi - 1)) (arr pi) then checkOrderLoop arr size fuel (pi + 1)
    else some false

/-- `check_order()` returns `v`. -/
def CheckOrderReturns (arr : ℕ → S) (size : ℕ) (v : Bool) : Prop :=
  ∃ fuel, checkOrderLoop ss arr size fuel 1 = some v

/-! ## What the oracle should decide -/

/-- The left string is not larger than the right one in the set's own character order:
`is_leq` at the first position where `is_equal` fails, each string at its own iterator. -/
def stringLeq (s1 s2 : S) : Bool :=
  let c := ss.scanEqual s1 s2 (ss.length s1) (ss.getChars s1 0) (ss.getChars s2 0)
  ss.isLeq s1 c.1 s2 c.2

/-- Every adjacent pair of the array is in order. -/
def AdjacentOrdered (arr : ℕ → S) (size : ℕ) : Prop :=
  ∀ i, i + 1 < size → stringLeq ss (arr i) (arr (i + 1)) = true

/-- `check_order()` terminates and tells whether the array is in order. -/
def CheckOrderExact (arr : ℕ → S) (size : ℕ) : Prop :=
  ∃ v, CheckOrderReturns ss arr size v ∧ (v = true ↔ AdjacentOrdered ss arr size)

/-- Address of the end of a string. -/
def StringSet.endAddr (s : S) : ℕ := ss.getChars s (ss.length s)

/-- The right string is a prefix of the left one and ends at a lower address. -/
def PrefixEndsBelow (s1 s2 : S) : Prop :=
  ss.chars s2 <+: ss.chars s1 ∧ ss.endAddr s2 < ss.endAddr s1

/-! ## The loop -/

variable {ss}

/-- On a non-empty rest of the array the loop returns whether all pairs are accepted. -/
theorem checkOrderLoop_eq (arr : ℕ → S) (size pi fuel : ℕ) (hpi : pi ≤ size)
    (hfuel : size - pi < fuel) :
    checkOrderLoop ss arr size fuel pi =
      some (decide (∀ i, pi ≤ i → i < size →
        checkOrderPair ss (arr (i - 1)) (arr i) = true)) := by
  induction fuel generalizing pi with
  | zero => omega
  | succ fuel ih =>
    rw [checkOrderLoop]
    by_cases hend : pi = size
    · rw [if_pos hend, eq_comm, Option.some_inj, decide_eq_true_eq]
      intro i h₁ h₂
      omega
    · rw [if_neg hend]
      by_cases hpair : checkOrderPair ss (arr (pi - 1)) (arr pi) = true
      · rw [if_pos hpair, ih (pi + 1) (by omega) (by omega), Option.some_inj, decide_eq_decide]
        refine ⟨fun h i hi hlt => ?_, fun h i hi hlt => h i (by omega) hlt⟩
        rcases Nat.eq_or_lt_of_le hi with rfl | hi'
        · exact hpair
        · exact h i hi' hlt
      · rw [if_neg hpair, eq_comm, Option.some_inj, decide_eq_false_iff_not]
        exact fun h => hpair (h pi (le_refl _) (by omega))

/-- The loop never accepts once it has passed the end of the array. -/
theorem checkOrderLoop_ne_true (arr : ℕ → S) (size pi fuel : ℕ) (hpi : size < pi) :
    checkOrderLoop ss arr size fuel pi ≠ some true := by
  induction fuel generalizing pi with
  | zero => simp [checkOrderLoop]
  | succ fuel ih =>
    rw [checkOrderLoop, if_neg (by omega)]
    split
    · exact ih (pi + 1) (by omega)
    · simp

/-- The check is exact when the array is not empty and the pairs it accepts are, as a
whole, the ordered ones. -/
theorem checkOrderExact_iff_pairs (arr : ℕ → S) (size : ℕ) :
    CheckOrderExact ss arr size ↔ size ≠ 0 ∧
      ((∀ i, i + 1 < size → checkOrderPair ss (arr i) (arr (i + 1)) = true) ↔
        AdjacentOrdered ss arr size) := by
  have hshift : (∀ i, 1 ≤ i → i < size → checkOrderPair ss (arr (i - 1)) (arr i) = true) ↔
      ∀ i, i + 1 < size → checkOrderPair ss (arr i) (arr (i + 1)) = true := by
    refine ⟨fun h i hi => h (i + 1) (by omega) hi, fun h i hi hlt => ?_⟩
    have := h (i - 1) (by omega)
    rwa [show i - 1 + 1 = i by omega] at this
  constructor
  · rintro ⟨v, ⟨fuel, hrun⟩, hv⟩
    rcases Nat.eq_zero_or_pos size with rfl | hpos
    · -- the empty array is in order, yet the loop cannot return `true`
      have htrue : v = true := hv.mpr fun i hi => by omega
      exact absurd (htrue ▸ hrun) (checkOrderLoop_ne_true arr 0 1 fuel (by omega))
    · refine ⟨by omega, ?_⟩
      rw [← hshift, ← hv]
      have hdet : ∀ f pi w, checkOrderLoop ss arr size f pi = some w →
          checkOrderLoop ss arr size (f + size + 1) pi = some w := by
        intro f
        induction f with
        | zero => intro pi w h; simp [checkOrderLoop] at h
        | succ f ih =>
          intro pi w h
          rw [show f + 1 + size + 1 = (f + size + 1) + 1 by omega]
          rw [checkOrderLoop] at h ⊢
          split at h
          · next hend => rw [if_pos hend]; exact h
          · next hend =>
            rw [if_neg hend]
            split at h
            · next hp => rw [if_pos hp]; exact ih _ _ h
            · next hp => rw [if_neg hp]; exact h
      have hbig := hdet fuel 1 v hrun
      rw [checkOrderLoop_eq arr size 1 _ (by omega) (by omega), Option.some_inj] at hbig
      rw [← hbig, decide_eq_true_iff]
  · rintro ⟨hne, hiff⟩
    refine ⟨_, ⟨size + 1, checkOrderLoop_eq arr size 1 _ (by omega) (by omega)⟩, ?_⟩
    rw [decide_eq_true_iff, hshift, hiff]

/-! ## What one comparison decides -/

/-- On NUL-terminated strings a character is compared with itself. -/
theorem checkOrder_generic (signedChar : Bool) (mem : ℕ → CharType) (s1 s2 : CString mem) :
    checkOrderPair (GenericCharStringSet signedChar mem) s1 s2 = true := by
  simp [checkOrderPair, GenericCharStringSet]

/-- On the other sets only a right string that ends inside the scan, at an address
below the end of the left one, is rejected. -/
theorem checkOrderPair_base (h : ss.BaseDerived) (s1 s2 : S) :
    checkOrderPair ss s1 s2 = true ↔ ¬ PrefixEndsBelow ss s1 s2 := by
  have hlaw := h.lawful
  have hscan := StringSet.scanEqual_eq hlaw s1 s2 (ss.length s1) 0 0 (Nat.zero_le _)
    (Nat.zero_le _) (Nat.sub_le _ _)
  simp only [List.drop_zero, Nat.zero_add] at hscan
  set k := lcpLen (ss.chars s1) (ss.chars s2) with hk
  have hk2 : k ≤ ss.length s2 := by
    simpa using lcpLen_le_right (ss.chars s1) (ss.chars s2)
  have hend2 : ss.isEnd s2 (ss.getChars s2 k) = true ↔ k = ss.length s2 :=
    hlaw.isEnd_iff s2 k hk2
  have hend1 : ss.isEnd s1 (ss.getChars s2 k) = true ↔ ss.endAddr s1 ≤ ss.getChars s2 k :=
    h.isEnd_iff s1 _
  have hprefix : ss.chars s2 <+: ss.chars s1 ↔ k = ss.length s2 := by
    constructor
    · rintro ⟨t, ht⟩
      have := (le_lcpLen_iff (ss.chars s1) (ss.chars s2) (ss.length s2)).mpr
        ⟨by rw [← ht]; simp, by simp, by
          rw [← ht, ← ss.length_chars s2, List.take_left, List.take_length]⟩
      omega
    · intro hlen
      have htake := ((le_lcpLen_iff (ss.chars s1) (ss.chars s2) k).mp (le_of_eq hk)).2.2
      rw [hlen, ← ss.length_chars s2, List.take_length] at htake
      exact htake ▸ List.take_prefix _ _
  have hval : checkOrderPair ss s1 s2 =
      (ss.isEnd s1 (ss.getChars s2 k) || !ss.isEnd s2 (ss.getChars s2 k)) := by
    simp only [checkOrderPair, hscan, h.isLeq_eq, StringSetBase.isLeq, le_refl, decide_true,
      Bool.and_true]
    cases ss.isEnd s1 (ss.getChars s2 k) <;> simp
  rw [hval, PrefixEndsBelow, hprefix, Bool.or_eq_true, hend1, Bool.not_eq_true',
    ← Bool.not_eq_true, hend2]
  constructor
  · rintro (hle | hne) ⟨hlen, hlt⟩
    · rw [hlen] at hle
      exact absurd hlt (Nat.not_lt.mpr hle)
    · exact hne hlen
  · intro hnot
    by_cases hlen : k = ss.length s2
    · left
      by_contra hle
      exact hnot ⟨hlen, by rw [hlen] at hle; exact Nat.lt_of_not_le hle⟩
    · exact Or.inr hlen

/-- A right neighbour that is not smaller and a prefix of its left neighbour is a copy of
it. -/
theorem chars_eq_of_stringLeq_of_prefix (h : ss.BaseDerived) {s1 s2 : S}
    (hle : stringLeq ss s1 s2 = true) (hpre : ss.chars s2 <+: ss.chars s1) :
    ss.chars s1 = ss.chars s2 := by
  have hlaw := h.lawful
  have hscan := StringSet.scanEqual_eq hlaw s1 s2 (ss.length s1) 0 0 (Nat.zero_le _)
    (Nat.zero_le _) (Nat.sub_le _ _)
  simp only [List.drop_zero, Nat.zero_add] at hscan
  have hlen : ss.length s2 ≤ ss.length s1 := by simpa using hpre.length_le
  -- the scan stops where the right string ends
  have hk : lcpLen (ss.chars s1) (ss.chars s2) = ss.length s2 := by
    apply le_antisymm
    · simpa using lcpLen_le_right (ss.chars s1) (ss.chars s2)
    · rw [le_lcpLen_iff, ss.length_chars, ss.length_chars]
      refine ⟨hlen, le_refl _, ?_⟩
      rw [← ss.length_chars s2, ← List.prefix_iff_eq_take.mp hpre, List.take_length]
  rw [hk] at hscan
  have hend2 : ss.isEnd s2 (ss.getChars s2 (ss.length s2)) = true :=
    (hlaw.isEnd_iff s2 _ (le_refl _)).mpr rfl
  -- so the comparison accepts only if the left string ends there too
  have hend1 : ss.isEnd s1 (ss.getChars s1 (ss.length s2)) = true := by
    simpa [stringLeq, hscan, h.isLeq_eq, StringSetBase.isLeq, hend2] using hle
  rw [hlaw.isEnd_iff s1 _ hlen] at hend1
  exact (hpre.eq_of_length (by simpa using hend1)).symm

end CheckOrder

/-! ## Exactness of the oracle -/

/-- The check is an exact oracle exactly on two kinds of non-empty arrays: those in order, on
the sets derived from `StringSetBase` only if no neighbour is followed by a copy of itself
that ends at a lower address; and, on these sets, those not in order that have a right
neighbour which is a prefix of its left neighbour and ends at a lower address. -/
theorem checkOrder_exact_iff {S : Type} {ss : StringSet S} (hset : StringSetOf ss)
    (arr : ℕ → S) (size : ℕ) :
    CheckOrderExact ss arr size ↔ size ≠ 0 ∧
      ((AdjacentOrdered ss arr size ∧ (ss.BaseDerived → ∀ i, i + 1 < size →
          ss.chars (arr i) = ss.chars (arr (i + 1)) →
            ss.endAddr (arr i) ≤ ss.endAddr (arr (i + 1)))) ∨
        (¬ AdjacentOrdered ss arr size ∧ ss.BaseDerived ∧
          ∃ i, i + 1 < size ∧ PrefixEndsBelow ss (arr i) (arr (i + 1)))) := by
  rw [checkOrderExact_iff_pairs]
  refine and_congr_right fun _ => ?_
  by_cases hbase : ss.BaseDerived
  · simp only [checkOrderPair_base hbase, hbase, true_imp_iff, true_and]
    by_cases hord : AdjacentOrdered ss arr size
    · -- in an ordered array only a copy can be such a prefix
      simp only [hord, iff_true, true_and, not_true_eq_false, false_and, or_false]
      refine forall₂_congr fun i hi => ?_
      constructor
      · intro hnot heq
        exact Nat.not_lt.mp fun hlt => hnot ⟨heq ▸ List.prefix_refl _, hlt⟩
      · rintro hcopy ⟨hpre, hlt⟩
        have heq := chars_eq_of_stringLeq_of_prefix hbase (hord i hi) hpre
        exact absurd hlt (Nat.not_lt.mpr (hcopy heq))
    · simp only [hord, iff_false, false_and, not_false_eq_true, true_and, false_or, not_forall,
        not_not, exists_prop]
  · rcases hset.generic_or_base with ⟨sg, mem, rfl, rfl⟩ | h
    · simp only [checkOrder_generic, hbase, implies_true, true_iff, false_imp_iff, and_true,
        false_and, and_false, or_false]
    · exact absurd h hbase

/-- Two strings `"b"` and `"a"` in memory. -/
private def memBA : ℕ → CharType := fun i => [98, 0, 97, 0].getD i 0

/-- The array `["b", "a"]`. -/
private def arrBA : ℕ → CString memBA
  | 0 => ⟨0, 1, by decide, by decide⟩
  | _ => ⟨2, 1, by decide, by decide⟩

/-- `check_order()` accepts the unsorted array `["b", "a"]`. -/
theorem checkOrder_accepts_unsorted :
    CheckOrderReturns (UCharStringSet memBA) arrBA 2 true ∧
      ¬ AdjacentOrdered (UCharStringSet memBA) arrBA 2 ∧
      ¬ CheckOrderExact (UCharStringSet memBA) arrBA 2 := by
  have hrun : CheckOrderReturns (UCharStringSet memBA) arrBA 2 true := ⟨2, by decide⟩
  have hord : ¬ AdjacentOrdered (UCharStringSet memBA) arrBA 2 := fun h =>
    absurd (h 0 (by omega)) (by decide)
  refine ⟨hrun, hord, fun hex => ?_⟩
  rw [UCharStringSet, checkOrderExact_iff_pairs] at hex
  exact hord (hex.2.mp fun i _ => checkOrder_generic _ _ _ _)

/-- The exactness criterion at the ordered `VectorStringSet` `["a", "b"]`, whose left string
ends behind the right one. -/
theorem checkOrder_exact_ordered :
    CheckOrderExact (VectorStringSet memBA) (fun i => if i = 0 then ⟨2, 1⟩ else ⟨0, 1⟩) 2 := by
  refine (checkOrder_exact_iff (StringSetOf.vectorStringSet memBA)
    (fun i => if i = 0 then ⟨2, 1⟩ else ⟨0, 1⟩) 2).mpr ⟨by decide, Or.inl ⟨?_, fun _ => ?_⟩⟩
  · intro i hi
    obtain rfl : i = 0 := by omega
    decide
  · intro i hi heq
    obtain rfl : i = 0 := by omega
    exact absurd heq (by decide)

end StringSampleSort
