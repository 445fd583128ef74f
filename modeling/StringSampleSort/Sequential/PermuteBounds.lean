import StringSampleSort.Library.CheckedArray
import StringSampleSort.Library.Slice
import StringSampleSort.Sequential.PermuteInPlace

/-!
# Rearranging a range within bounds

The cycle-walking loop of `sample_sort_generic`, `sample_sortBSC` and `msd_CI2_run` with all its
accesses checked, and the states in which the condition of its inner loop is evaluated.

The ids are exchanged together with their strings, but the id of the string that closes a cycle is
not written back: the entries of `bktcache` at the places that the loop has passed are stale.

## Main results

- `walkCycleChecked_eq`, `permuteLoopChecked_eq`: all accesses are within bounds
- `permuteVisits_ok`: the id in hand is that of the string in hand, and a used index lies in its
  bucket
- `permuteInPlace_arranges`: the arrangement that all variants of the loop leave
-/

namespace StringSampleSort

open Library Slice

variable {S T : Type}

/-! ## Model -/

/-- `walkCycle` with checked accesses to `K` counters and `n` strings.  A counter that wraps makes
the next index invalid. -/
def walkCycleChecked (K n i : ℕ) :
    ℕ → PermuteArrays S → S → ℕ → Option (PermuteArrays S × S × ℕ)
  | 0, _, _, _ => none
  | fuel + 1, a, perm, permbkt =>
    (readAt K a.bktindex permbkt).bind fun index => (decrement index).bind fun j =>
      let bktindex := Function.update a.bktindex permbkt j
      if i < j then
        (readAt n a.strings j).bind fun perm' => (readAt n a.bktcache j).bind fun permbkt' =>
          walkCycleChecked K n i fuel ⟨Function.update a.strings j perm,
            Function.update a.bktcache j permbkt, bktindex⟩ perm' permbkt'
      else some (⟨a.strings, a.bktcache, bktindex⟩, perm, permbkt)

/-- `permuteLoop` with checked accesses. -/
def permuteLoopChecked (K n : ℕ) (bktsize : ℕ → ℕ) (bound rounds : ℕ) :
    ℕ → ℕ → PermuteArrays S → Option (PermuteArrays S)
  | 0, i, a => if i < bound then none else some a
  | fuel + 1, i, a =>
    if i < bound then
      (readAt n a.strings i).bind fun perm => (readAt n a.bktcache i).bind fun permbkt =>
        (walkCycleChecked K n i rounds a perm permbkt).bind fun r =>
          (writeAt n r.1.strings i r.2.1).bind fun strings => (readAt K bktsize r.2.2).bind fun k =>
            permuteLoopChecked K n bktsize bound rounds fuel (i + k) { r.1 with strings := strings }
    else some a

/-- Steps 3 and 4: all arrays after the rearrangement. -/
def permuteInPlaceChecked (bktnum n : ℕ) (bktsize : ℕ → ℕ) (strings : ℕ → S) (bktcache : ℕ → ℕ) :
    Option (PermuteArrays S) :=
  if lastBktSize bktsize (bktnum - 1) ≤ n then
    permuteLoopChecked bktnum n bktsize (n - lastBktSize bktsize (bktnum - 1)) (bktnum * n + 1) n 0
      ⟨strings, bktcache, prefixSum bktsize⟩
  else none

/-- A state in which `(j = --bktindex[permbkt]) > i` is evaluated. -/
structure Visit (S : Type) where
  i : ℕ
  arrays : PermuteArrays S
  perm : S
  permbkt : ℕ

/-- The `j` that is computed. -/
def Visit.j (v : Visit S) : ℕ := v.arrays.bktindex v.permbkt - 1

/-- The visits of a cycle. -/
def walkVisits (i : ℕ) : ℕ → PermuteArrays S → S → ℕ → List (Visit S)
  | 0, _, _, _ => []
  | fuel + 1, a, perm, permbkt =>
    let j := a.bktindex permbkt - 1
    ⟨i, a, perm, permbkt⟩ ::
      if i < j then
        walkVisits i fuel ⟨Function.update a.strings j perm, Function.update a.bktcache j permbkt,
          Function.update a.bktindex permbkt j⟩ (a.strings j) (a.bktcache j)
      else []

/-- The visits of all cycles. -/
def permuteVisits (K n : ℕ) (bktsize : ℕ → ℕ) (bound rounds : ℕ) :
    ℕ → ℕ → PermuteArrays S → List (Visit S)
  | 0, _, _ => []
  | fuel + 1, i, a =>
    if i < bound then
      walkVisits i rounds a (a.strings i) (a.bktcache i) ++
        match walkCycleChecked K n i rounds a (a.strings i) (a.bktcache i) with
        | some r => permuteVisits K n bktsize bound rounds fuel (i + bktsize r.2.2)
            { r.1 with strings := Function.update r.1.strings i r.2.1 }
        | none => []
    else []

/-- The visits of steps 3 and 4. -/
def permuteInPlaceVisits (bktnum n : ℕ) (bktsize : ℕ → ℕ) (strings : ℕ → S) (bktcache : ℕ → ℕ) :
    List (Visit S) :=
  permuteVisits bktnum n bktsize (n - lastBktSize bktsize (bktnum - 1)) (bktnum * n + 1) n 0
    ⟨strings, bktcache, prefixSum bktsize⟩

/-! ## Visits -/

section Visits

variable (size : ℕ → ℕ) (bkt : S → ℕ) (K n : ℕ)

/-- The id in hand is that of the string in hand, the cached ids behind the hole are those of the
strings there, and an index that is used lies in the bucket of its counter. -/
structure Visit.Ok (A : ℕ → S) (v : Visit S) : Prop where
  hole_lt : v.i < n
  permbkt_lt : v.permbkt < K
  index_pos : 0 < v.arrays.bktindex v.permbkt
  inside : v.i < v.j → InWindow (bucketStart size v.permbkt) (size v.permbkt) v.j
  hand : v.permbkt = bkt v.perm
  cached : ∀ p, v.i < p → p < n → v.arrays.bktcache p = bkt (v.arrays.strings p)
  perm : (contents (Function.update v.arrays.strings v.i v.perm) n).Perm (contents A n)

variable {size bkt K n} {i fuel : ℕ} {a : PermuteArrays S} {perm : S} {permbkt : ℕ} {A : ℕ → S}

/-- What a visit finds within a cycle. -/
theorem CycleInv.visit_ok (h : CycleInv size bkt K n i a perm permbkt)
    (hperm : (contents (Function.update a.strings i perm) n).Perm (contents A n))
    (ht : Tallies size bkt K n A) : Visit.Ok size bkt K n A ⟨i, a, perm, permbkt⟩ := by
  obtain ⟨hK, hsize, hstart, hlo⟩ := h.target (ht.perm hperm)
  obtain ⟨-, hhi, -, -⟩ := h.index permbkt hK hsize hstart
  refine ⟨h.hole_lt, hK, by dsimp only; omega, fun _ => ⟨?_, ?_⟩, h.permbkt_eq, h.cache, hperm⟩ <;>
    · simp only [Visit.j]
      omega

/-- A round of the inner loop keeps the contents. -/
theorem CycleInv.swap_perm (h : CycleInv size bkt K n i a perm permbkt)
    (ht : Tallies size bkt K n (Function.update a.strings i perm))
    (hj : i < a.bktindex permbkt - 1) :
    (contents (Function.update (Function.update a.strings (a.bktindex permbkt - 1) perm) i
      (a.strings (a.bktindex permbkt - 1))) n).Perm
      (contents (Function.update a.strings i perm) n) := by
  obtain ⟨hK, -⟩ := h.target ht
  have hbound := h.bound permbkt hK
  rw [update_swap _ _ hj.ne]
  exact perm_swap _ h.hole_lt (by omega)

theorem walkVisits_ok (h : CycleInv size bkt K n i a perm permbkt)
    (hperm : (contents (Function.update a.strings i perm) n).Perm (contents A n))
    (ht : Tallies size bkt K n A) :
    ∀ v ∈ walkVisits i fuel a perm permbkt, v.Ok size bkt K n A := by
  induction fuel generalizing a perm permbkt with
  | zero => exact fun v hv => absurd hv List.not_mem_nil
  | succ fuel ih =>
    intro v hv
    rw [walkVisits] at hv
    rcases List.mem_cons.mp hv with rfl | hv
    · exact h.visit_ok hperm ht
    · split at hv
      · next hj =>
        have hswap := h.swap_perm (ht.perm hperm) hj
        exact ih (h.step (ht.perm hperm) hj) (hswap.trans hperm) v hv
      · exact absurd hv List.not_mem_nil

/-- The counter of the string that closes a cycle has been accessed. -/
theorem walkCycleChecked_lt {a' : PermuteArrays S} {perm' : S} {permbkt' : ℕ}
    (h : walkCycleChecked K n i fuel a perm permbkt = some (a', perm', permbkt')) :
    permbkt' < K := by
  induction fuel generalizing a perm permbkt with
  | zero => exact absurd h (by simp [walkCycleChecked])
  | succ fuel ih =>
    rw [walkCycleChecked] at h
    obtain ⟨index, hindex, h⟩ := Option.bind_eq_some_iff.mp h
    obtain ⟨j, -, h⟩ := Option.bind_eq_some_iff.mp h
    simp only at h
    split at h
    · obtain ⟨perm₁, -, h⟩ := Option.bind_eq_some_iff.mp h
      obtain ⟨permbkt₁, -, h⟩ := Option.bind_eq_some_iff.mp h
      exact ih h
    · obtain ⟨-, -, rfl⟩ := Prod.mk.injEq .. ▸ Option.some_inj.mp h
      by_contra hge
      rw [readAt_of_ge _ (not_lt.mp hge)] at hindex
      exact absurd hindex (by simp)

/-- All accesses of a cycle are within bounds. -/
theorem walkCycleChecked_eq (h : CycleInv size bkt K n i a perm permbkt)
    (ht : Tallies size bkt K n (Function.update a.strings i perm)) :
    walkCycleChecked K n i fuel a perm permbkt = walkCycle i fuel a perm permbkt := by
  induction fuel generalizing a perm permbkt with
  | zero => rfl
  | succ fuel ih =>
    obtain ⟨hK, -, -, hlo⟩ := h.target ht
    have hbound := h.bound permbkt hK
    have hpos : 0 < a.bktindex permbkt := by omega
    have hlt : a.bktindex permbkt - 1 < n := by omega
    rw [walkCycleChecked, walkCycle, readAt_of_lt _ hK, Option.bind_some, decrement_of_pos hpos,
      Option.bind_some, if_neg hpos.ne', readAt_of_lt _ hlt, readAt_of_lt _ hlt]
    dsimp only [Option.bind_some]
    by_cases hj : i < a.bktindex permbkt - 1
    · rw [if_pos hj, if_pos hj]
      exact ih (h.step ht hj) (ht.perm (h.swap_perm ht hj))
    · rw [if_neg hj, if_neg hj]

/-- A round opens a hole, or its bucket has been filled before. -/
theorem RoundInv.open_or_full (h : RoundInv size bkt K n i a) (ht : Tallies size bkt K n a.strings)
    (hi : i < n) :
    CycleInv size bkt K n i a (a.strings i) (a.bktcache i) ∨
      a.bktcache i < K ∧ a.bktindex (a.bktcache i) = i ∧ 0 < i := by
  obtain ⟨b, hb, hstart, hsize⟩ := h.exists_start ht hi
  rcases Nat.lt_or_ge i (a.bktindex b) with hopen | hfull
  · exact Or.inl (h.cycleInv hi hstart hsize hopen)
  · obtain ⟨hlo, -, hfilled⟩ := h.index b hb hsize hstart.ge
    have hbkt : a.bktcache i = b := by
      rw [h.cache i (le_refl _) hi]
      exact hfilled i (by omega) (by omega)
    refine Or.inr ⟨hbkt ▸ hb, by rw [hbkt]; omega, Nat.pos_of_ne_zero fun hi0 => ?_⟩
    have := h.first hi0 b hb hsize
    omega

theorem RoundInv.walkCycleChecked_eq (h : RoundInv size bkt K n i a) (fuel : ℕ)
    (ht : Tallies size bkt K n a.strings) (hi : i < n) :
    walkCycleChecked K n i (fuel + 1) a (a.strings i) (a.bktcache i) =
      walkCycle i (fuel + 1) a (a.strings i) (a.bktcache i) := by
  rcases h.open_or_full ht hi with hopen | ⟨hK, hindex, hpos⟩
  · exact StringSampleSort.walkCycleChecked_eq hopen (by rwa [Function.update_eq_self])
  · rw [walkCycleChecked, walkCycle, readAt_of_lt _ hK, hindex, Option.bind_some,
      decrement_of_pos hpos, Option.bind_some, if_neg hpos.ne']
    simp only [if_neg (show ¬ i < i - 1 by omega)]

theorem RoundInv.walkVisits_ok (h : RoundInv size bkt K n i a) (hi : i < n)
    (hperm : (contents a.strings n).Perm (contents A n)) (ht : Tallies size bkt K n A) :
    ∀ v ∈ walkVisits i (fuel + 1) a (a.strings i) (a.bktcache i), v.Ok size bkt K n A := by
  have hself : Function.update a.strings i (a.strings i) = a.strings := Function.update_eq_self ..
  rcases h.open_or_full (ht.perm hperm) hi with hopen | ⟨hK, hindex, hpos⟩
  · exact StringSampleSort.walkVisits_ok hopen (by rwa [hself]) ht
  · intro v hv
    rw [walkVisits, if_neg (by omega), List.mem_singleton] at hv
    subst hv
    exact ⟨hi, hK, hindex.symm ▸ hpos, fun hj => absurd hj (by simp only [Visit.j]; omega),
      h.cache i (le_refl _) hi, fun p hp => h.cache p hp.le, by simpa only [hself] using hperm⟩

/-- All accesses of the loop are within bounds. -/
theorem permuteLoopChecked_eq {bound : ℕ} (hbound : bound ≤ n) (h : RoundInv size bkt K n i a)
    (ht : Tallies size bkt K n a.strings) :
    permuteLoopChecked K n size bound (K * n + 1) fuel i a =
      permuteLoop size bound (K * n + 1) fuel i a := by
  induction fuel generalizing i a with
  | zero => rfl
  | succ fuel ih =>
    rw [permuteLoopChecked, permuteLoop]
    split
    · next hlt =>
      have hi : i < n := by omega
      obtain ⟨a', perm', permbkt', heq, hinv, hpos, hperm⟩ := h.round ht hi
      have hK : permbkt' < K := by
        by_contra hge
        -- the bucket of the string that closes the cycle is one of those there
        have hwalk := h.walkCycleChecked_eq (K * n) ht hi
        rw [heq] at hwalk
        exact hge (walkCycleChecked_lt hwalk)
      rw [readAt_of_lt _ hi, readAt_of_lt _ hi, Option.bind_some, Option.bind_some,
        h.walkCycleChecked_eq _ ht hi, heq, Option.bind_some, Option.bind_some,
        writeAt_of_lt _ hi, Option.bind_some, readAt_of_lt _ hK, Option.bind_some]
      exact ih hinv (ht.perm hperm)
    · rfl

/-- The visits of the whole loop. -/
theorem permuteVisits_ok {bound : ℕ} (hbound : bound ≤ n) (h : RoundInv size bkt K n i a)
    (hperm : (contents a.strings n).Perm (contents A n)) (ht : Tallies size bkt K n A) :
    ∀ v ∈ permuteVisits K n size bound (K * n + 1) fuel i a, v.Ok size bkt K n A := by
  induction fuel generalizing i a with
  | zero => exact fun v hv => absurd hv List.not_mem_nil
  | succ fuel ih =>
    intro v hv
    rw [permuteVisits] at hv
    split at hv
    · next hlt =>
      obtain ⟨a', perm', permbkt', heq, hinv, -, hperm'⟩ := h.round (ht.perm hperm) (by omega)
      rw [h.walkCycleChecked_eq _ (ht.perm hperm) (by omega), heq] at hv
      rcases List.mem_append.mp hv with hv | hv
      · exact h.walkVisits_ok (by omega) hperm ht v hv
      · exact ih hinv (hperm'.trans hperm) v hv
    · exact absurd hv List.not_mem_nil

/-- The rearrangement succeeds with all its accesses checked. -/
theorem permuteInPlaceChecked_eq {strings : ℕ → S} {bktcache : ℕ → ℕ} (hK : 0 < K)
    (hcache : ∀ p < n, bktcache p = bkt (strings p)) (ht : Tallies size bkt K n strings) :
    ∃ a, permuteInPlaceChecked K n size strings bktcache = some a ∧
      permuteInPlace K n size strings bktcache = some a.strings := by
  obtain ⟨strings', heq, -, -⟩ := permuteInPlace_spec hK hcache ht
  obtain ⟨a, hloop, rfl⟩ := Option.map_eq_some_iff.mp heq
  refine ⟨a, ?_, heq⟩
  have hlast : lastBktSize size (K - 1) ≤ n := by
    obtain ⟨b, hb, hlast, -⟩ := lastBktSize_spec size (K - 1)
    have := ht.bucketEnd_le (b := b) (by omega)
    omega
  rw [permuteInPlaceChecked, if_pos hlast,
    permuteLoopChecked_eq (Nat.sub_le ..) (roundInv_start hcache ht) ht, hloop]

end Visits

/-! ## Walks without a cache -/

section Find

variable {size : ℕ → ℕ} {bkt : S → ℕ} {K n i fuel : ℕ} {a a' : PermuteArrays S} {perm perm' : S}
  {permbkt' : ℕ}

/-- Finding a bucket again gives what the cache holds. -/
theorem walkCycleFind_eq (hcache : ∀ p, i < p → p < n → a.bktcache p = bkt (a.strings p))
    (h : walkCycleChecked K n i fuel a perm (bkt perm) = some (a', perm', permbkt')) :
    walkCycleFind bkt i fuel a.strings a.bktindex perm =
      some (a'.strings, a'.bktindex, perm', permbkt') := by
  induction fuel generalizing a perm with
  | zero => exact absurd h (by simp [walkCycleChecked])
  | succ fuel ih =>
    rw [walkCycleChecked] at h
    obtain ⟨index, hindex, h⟩ := Option.bind_eq_some_iff.mp h
    obtain ⟨j, hj, h⟩ := Option.bind_eq_some_iff.mp h
    obtain ⟨-, rfl⟩ := readAt_eq_some_iff.mp hindex
    obtain ⟨hpos, rfl⟩ := decrement_eq_some_iff.mp hj
    rw [walkCycleFind, if_neg hpos.ne']
    simp only at h
    split at h
    · next hij =>
      obtain ⟨perm₁, hperm₁, h⟩ := Option.bind_eq_some_iff.mp h
      obtain ⟨permbkt₁, hpermbkt₁, h⟩ := Option.bind_eq_some_iff.mp h
      obtain ⟨hlt, rfl⟩ := readAt_eq_some_iff.mp hperm₁
      obtain ⟨-, rfl⟩ := readAt_eq_some_iff.mp hpermbkt₁
      -- the string at `j` has its bucket in the cache
      rw [hcache _ hij hlt] at h
      simp only [if_neg (not_le.mpr hij)]
      refine ih (fun p hp hpn => ?_) h
      by_cases hpj : p = a.bktindex (bkt perm) - 1
      · simp only [hpj, Function.update_self]
      · simp only [Function.update_of_ne hpj]
        exact hcache p hp hpn
    · next hij =>
      obtain ⟨rfl, rfl, rfl⟩ := Prod.mk.injEq .. ▸ Option.some_inj.mp h
      simp only [if_pos (not_lt.mp hij)]

theorem permuteLoopFind_eq {bound : ℕ} (hbound : bound ≤ n)
    (hinv : RoundInv size bkt K n i a) (ht : Tallies size bkt K n a.strings)
    (h : permuteLoop size bound (K * n + 1) fuel i a = some a') :
    permuteLoopFind bkt size bound (K * n + 1) fuel i a.strings a.bktindex = some a'.strings := by
  induction fuel generalizing i a with
  | zero =>
    rw [permuteLoop] at h
    rw [permuteLoopFind]
    split at h
    · exact absurd h (by simp)
    · next hi => rw [if_neg hi, Option.some_inj.mp h]
  | succ fuel ih =>
    rw [permuteLoop] at h
    rw [permuteLoopFind]
    split at h
    · next hi =>
      have hin : i < n := by omega
      obtain ⟨a₁, perm, permbkt, heq, hinv', hpos, hperm⟩ := hinv.round ht hin
      have hchecked := hinv.walkCycleChecked_eq (K * n) ht hin
      rw [heq, hinv.cache i (le_refl i) hin] at hchecked
      have hwalk := walkCycleFind_eq (fun p hp hpn => hinv.cache p hp.le hpn) hchecked
      rw [heq] at h
      rw [if_pos hi, hwalk]
      -- the stale entry of place `i` is not read again
      exact ih hinv' (ht.perm hperm) h
    · next hi => rw [if_neg hi, Option.some_inj.mp h]

/-- Without a cache the strings are left in the same arrangement. -/
theorem permuteInPlaceFind_eq {strings : ℕ → S} {bktcache : ℕ → ℕ} (hK : 0 < K)
    (hcache : ∀ p < n, bktcache p = bkt (strings p)) (ht : Tallies size bkt K n strings) :
    permuteInPlaceFind bkt K n size strings = permuteInPlace K n size strings bktcache := by
  obtain ⟨strings', heq, -, -⟩ := permuteInPlace_spec hK hcache ht
  obtain ⟨a, hloop, rfl⟩ := Option.map_eq_some_iff.mp heq
  rw [heq]
  exact permuteLoopFind_eq (Nat.sub_le ..) (roundInv_start hcache ht) ht hloop

/-- Without a cache the rearrangement succeeds as well. -/
theorem permuteInPlaceFind_spec {strings : ℕ → S} (hK : 0 < K)
    (ht : Tallies size bkt K n strings) :
    ∃ strings', permuteInPlaceFind bkt K n size strings = some strings' ∧
      (contents strings' n).Perm (contents strings n) ∧
      ∀ b < K, FilledFrom size bkt strings' b (bucketStart size b) := by
  have hcache : ∀ p < n, (fun p => bkt (strings p)) p = bkt (strings p) := fun _ _ => rfl
  rw [permuteInPlaceFind_eq hK hcache ht]
  exact permuteInPlace_spec hK hcache ht

end Find

/-! ## Strings and their places

The loop only moves strings, so it moves the places that they come from in the same way. -/

section Map

variable (g : S → T)

/-- Other strings in the same places. -/
def PermuteArrays.map (a : PermuteArrays S) : PermuteArrays T :=
  ⟨g ∘ a.strings, a.bktcache, a.bktindex⟩

/-- The same state with other strings. -/
def Visit.map (v : Visit S) : Visit T := ⟨v.i, v.arrays.map g, g v.perm, v.permbkt⟩

variable {g} {K n i fuel : ℕ} {a : PermuteArrays S} {perm : S} {permbkt : ℕ}

theorem PermuteArrays.map_update (a : PermuteArrays S) (j : ℕ) (perm : S) (bktcache : ℕ → ℕ)
    (bktindex : ℕ → ℕ) :
    (⟨Function.update (a.map g).strings j (g perm), bktcache, bktindex⟩ : PermuteArrays T) =
      PermuteArrays.map g ⟨Function.update a.strings j perm, bktcache, bktindex⟩ := by
  rw [map, map, ← Function.comp_update]

theorem walkCycleChecked_map :
    walkCycleChecked K n i fuel (a.map g) (g perm) permbkt =
      (walkCycleChecked K n i fuel a perm permbkt).map fun r => (r.1.map g, g r.2.1, r.2.2) := by
  induction fuel generalizing a perm permbkt with
  | zero => rfl
  | succ fuel ih =>
    rw [walkCycleChecked, walkCycleChecked, Option.map_bind, PermuteArrays.map]
    refine Option.bind_congr fun index _ => ?_
    rw [Function.comp_apply, Option.map_bind]
    refine Option.bind_congr fun j _ => ?_
    rw [Function.comp_apply]
    by_cases hj : i < j
    · simp only [if_pos hj, readAt_comp]
      rw [Option.map_bind, Option.bind_map]
      refine Option.bind_congr fun perm' _ => ?_
      simp only [Function.comp_apply, Option.map_bind]
      refine Option.bind_congr fun permbkt' _ => ?_
      rw [← ih, PermuteArrays.map, Function.comp_update]
    · simp only [if_neg hj]
      rfl

theorem permuteLoopChecked_map {bktsize : ℕ → ℕ} {bound rounds : ℕ} :
    permuteLoopChecked K n bktsize bound rounds fuel i (a.map g) =
      (permuteLoopChecked K n bktsize bound rounds fuel i a).map (PermuteArrays.map g) := by
  induction fuel generalizing i a with
  | zero =>
    rw [permuteLoopChecked, permuteLoopChecked]
    split <;> rfl
  | succ fuel ih =>
    rw [permuteLoopChecked, permuteLoopChecked]
    split
    · rw [show (a.map g).strings = g ∘ a.strings from rfl, readAt_comp, Option.bind_map,
        Option.map_bind]
      refine Option.bind_congr fun perm _ => ?_
      rw [Function.comp_apply, Function.comp_apply, Option.map_bind]
      refine Option.bind_congr fun permbkt _ => ?_
      rw [Function.comp_apply, walkCycleChecked_map, Option.bind_map, Option.map_bind]
      refine Option.bind_congr fun r _ => ?_
      rw [Function.comp_apply, Function.comp_apply,
        show (r.1.map g).strings = g ∘ r.1.strings from rfl, writeAt_comp, Option.bind_map,
        Option.map_bind]
      refine Option.bind_congr fun strings _ => ?_
      rw [Function.comp_apply, Function.comp_apply, Option.map_bind]
      refine Option.bind_congr fun k _ => ?_
      rw [Function.comp_apply, ← ih]
      rfl
    · rfl

theorem walkVisits_map :
    walkVisits i fuel (a.map g) (g perm) permbkt =
      (walkVisits i fuel a perm permbkt).map (Visit.map g) := by
  induction fuel generalizing a perm permbkt with
  | zero => rfl
  | succ fuel ih =>
    rw [walkVisits, walkVisits, List.map_cons, PermuteArrays.map_update,
      show (a.map g).bktindex = a.bktindex from rfl]
    split
    · rw [← ih]
      rfl
    · rfl

theorem permuteVisits_map {bktsize : ℕ → ℕ} {bound rounds : ℕ} :
    permuteVisits K n bktsize bound rounds fuel i (a.map g) =
      (permuteVisits K n bktsize bound rounds fuel i a).map (Visit.map g) := by
  induction fuel generalizing i a with
  | zero => rfl
  | succ fuel ih =>
    have hstrings : (a.map g).strings i = g (a.strings i) := rfl
    have hcache : (a.map g).bktcache = a.bktcache := rfl
    rw [permuteVisits, permuteVisits, hstrings, hcache, walkVisits_map, walkCycleChecked_map]
    split
    · rw [List.map_append]
      congr 1
      cases walkCycleChecked K n i rounds a (a.strings i) (a.bktcache i) with
      | none => rfl
      | some r =>
        have hnext := ih (i := i + bktsize r.2.2)
          (a := { r.1 with strings := Function.update r.1.strings i r.2.1 })
        rw [← PermuteArrays.map_update] at hnext
        exact hnext
    · rfl

end Map

/-! ## The arrangement -/

section Arrangement

variable {K n : ℕ} {strings : ℕ → S} {bktcache : ℕ → ℕ}

/-- The strings and the ids of a visit come from the same places `τ`; the id of the string in hand
is in hand as well, and ids at places before the hole are stale. -/
structure Visit.InStep (n : ℕ) (strings : ℕ → S) (bktcache : ℕ → ℕ) (v : Visit S) (τ : ℕ → ℕ) :
    Prop where
  places : (contents τ n).Perm (List.range n)
  perm : v.perm = strings (τ v.i)
  permbkt : v.permbkt = bktcache (τ v.i)
  strings : ∀ p < n, p ≠ v.i → v.arrays.strings p = strings (τ p)
  cached : ∀ p, v.i < p → p < n → v.arrays.bktcache p = bktcache (τ p)

/-- What is asked of the loop: all accesses are within bounds, an index that is used lies in the
bucket of its counter, strings and ids are exchanged in step, every bucket holds exactly its strings
at the end, and the variants without a cache leave the same arrangement. -/
structure CycleWalk (K n : ℕ) (strings : ℕ → S) (bktcache : ℕ → ℕ) (σ : ℕ → ℕ) : Prop where
  places : (contents σ n).Perm (List.range n)
  result : ∃ a, permuteInPlaceChecked K n (fun b => (contents bktcache n).count b) strings bktcache =
    some a ∧ a.strings = strings ∘ σ
  buckets : ∀ p < n, ∀ b < K, bktcache (σ p) = b ↔
    InWindow (bucketStart (fun b => (contents bktcache n).count b) b)
      ((contents bktcache n).count b) p
  indexes : ∀ v ∈ permuteInPlaceVisits K n (fun b => (contents bktcache n).count b) strings bktcache,
    v.i < n ∧ v.permbkt < K ∧ 0 < v.arrays.bktindex v.permbkt ∧
      (v.i < v.j → InWindow (bucketStart (fun b => (contents bktcache n).count b) v.permbkt)
        ((contents bktcache n).count v.permbkt) v.j)
  inStep : ∀ v ∈ permuteInPlaceVisits K n (fun b => (contents bktcache n).count b) strings bktcache,
    ∃ τ, v.InStep n strings bktcache τ
  find : ∀ find_bkt : S → ℕ, (∀ p < n, find_bkt (strings p) = bktcache p) →
    permuteInPlaceFind find_bkt K n (fun b => (contents bktcache n).count b) strings =
      some (strings ∘ σ)

theorem contents_id (n : ℕ) : contents id n = List.range n := List.map_id _

theorem tallies_ids {T : Type} {bkt : T → ℕ} {A : ℕ → T} (hbkt : ∀ p < n, bkt (A p) = bktcache p)
    (hids : ∀ p < n, bktcache p < K) :
    Tallies (fun b => (contents bktcache n).count b) bkt K n A := by
  have htallies := tallies_count (K := K) bkt A fun p hp => hbkt p hp ▸ hids p hp
  have hmap : (contents A n).map bkt = contents bktcache n := by
    rw [contents, List.map_map]
    exact contents_congr hbkt
  rwa [hmap] at htallies

theorem permuteInPlaceChecked_map (K n : ℕ) (g : S → T) (size : ℕ → ℕ) (A : ℕ → S)
    (bktcache : ℕ → ℕ) :
    permuteInPlaceChecked K n size (g ∘ A) bktcache =
      (permuteInPlaceChecked K n size A bktcache).map (PermuteArrays.map g) := by
  rw [permuteInPlaceChecked, permuteInPlaceChecked]
  split
  · exact permuteLoopChecked_map (a := ⟨A, bktcache, prefixSum size⟩)
  · rfl

/-- A visit of the loop that moves the places. -/
theorem Visit.Ok.inStep {size : ℕ → ℕ} {v : Visit ℕ} (hv : v.Ok size bktcache K n id) :
    (v.map strings).InStep n strings bktcache (Function.update v.arrays.strings v.i v.perm) where
  places := contents_id n ▸ hv.perm
  perm := by rw [show (v.map strings).i = v.i from rfl, Function.update_self]; rfl
  permbkt := by rw [show (v.map strings).i = v.i from rfl, Function.update_self]; exact hv.hand
  strings p _ hne := by
    rw [Function.update_of_ne (show p ≠ v.i from hne)]
    rfl
  cached p hp hpn := by
    rw [Function.update_of_ne (show p ≠ v.i from hp.ne')]
    exact hv.cached p hp hpn

/-- The loop arranges every assignment of bucket ids to strings. -/
theorem permuteInPlace_arranges (hn : 1 ≤ n) (strings : ℕ → S) (hids : ∀ p < n, bktcache p < K) :
    ∃ σ, CycleWalk K n strings bktcache σ := by
  have hK : 0 < K := (Nat.zero_le _).trans_lt (hids 0 hn)
  have hid : ∀ p < n, bktcache p = bktcache (id p) := fun _ _ => rfl
  have ht : Tallies (fun b => (contents bktcache n).count b) bktcache K n id :=
    tallies_ids (fun _ _ => rfl) hids
  obtain ⟨a, hchecked, heq⟩ := permuteInPlaceChecked_eq hK hid ht
  obtain ⟨σ, hσ, hperm, hfilled⟩ := permuteInPlace_spec hK hid ht
  obtain rfl : a.strings = σ := Option.some_inj.mp (heq.symm.trans hσ)
  have hmap := permuteInPlaceChecked_map K n strings (fun b => (contents bktcache n).count b) id
    bktcache
  rw [hchecked, Option.map_some, Function.comp_id] at hmap
  have hvisits : permuteInPlaceVisits K n (fun b => (contents bktcache n).count b) strings
      bktcache = (permuteInPlaceVisits K n (fun b => (contents bktcache n).count b) id
        bktcache).map (Visit.map strings) :=
    permuteVisits_map (g := strings) (a := ⟨id, bktcache, _⟩)
  have hok : ∀ v ∈ permuteInPlaceVisits K n (fun b => (contents bktcache n).count b) id bktcache,
      v.Ok (fun b => (contents bktcache n).count b) bktcache K n id :=
    permuteVisits_ok (Nat.sub_le ..) (roundInv_start hid ht) (List.Perm.refl _) ht
  refine ⟨a.strings, contents_id n ▸ hperm, ⟨_, hmap, rfl⟩, fun p hp b hb => ⟨fun hpb => ?_,
    fun hp => hfilled b hb p hp.1 hp.2⟩, fun v hv => ?_, fun v hv => ?_, fun find_bkt hfind => ?_⟩
  · -- the place lies in one bucket, which is the right one
    obtain ⟨c, hc, h₁, h₂⟩ := exists_bucket _ (ht.total.symm ▸ hp)
    rw [← hpb, hfilled c hc p h₁ h₂]
    exact ⟨h₁, h₂⟩
  · rw [hvisits] at hv
    obtain ⟨u, hu, rfl⟩ := List.mem_map.mp hv
    have hu := hok u hu
    exact ⟨hu.hole_lt, hu.permbkt_lt, hu.index_pos, hu.inside⟩
  · rw [hvisits] at hv
    obtain ⟨u, hu, rfl⟩ := List.mem_map.mp hv
    exact ⟨_, (hok u hu).inStep⟩
  · have hfound := tallies_ids hfind hids
    obtain ⟨a', hchecked', heq'⟩ := permuteInPlaceChecked_eq hK (fun p hp => (hfind p hp).symm) hfound
    rw [permuteInPlaceFind_eq hK (fun p hp => (hfind p hp).symm) hfound, heq']
    rw [hmap] at hchecked'
    rw [← Option.some_inj.mp hchecked']
    rfl

theorem permuteInPlace_arranges_two :
    ∃ σ, CycleWalk 2 2 (fun p => p) (fun p => 1 - p) σ :=
  permuteInPlace_arranges (by decide) (fun p => p) (by decide)

/-- The ids are not permuted: with two strings of the buckets 1 and 0, the id that is left at the
first place is that of the string that has been there before. -/
theorem bktcache_not_permuted :
    (permuteInPlaceChecked 2 2 (fun b => (contents (fun p => 1 - p) 2).count b) (fun p => p)
        fun p => 1 - p).map (fun a => (contents a.strings 2, contents a.bktcache 2)) =
      some ([1, 0], [1, 1]) ∧ ¬ [1, 1].Perm (contents (fun p => 1 - p) 2) := by
  decide

end Arrangement

end StringSampleSort
