import StringSampleSort.Library.Buckets
import StringSampleSort.Library.Transition

/-!
# Rearranging a range in place

Steps 3 and 4 of `sample_sort_generic` in `src/sequential/bingmann-sample_sort.cpp`: prefix sums
of the bucket sizes, then a walk along the cycles of the permutation that moves every string
into its bucket.  The walk starts at the first place of each bucket in turn and leaves the last
non-empty bucket alone.

## Main results

- `walkCycle_spec`: one cycle fills the first place of a bucket, and then all of it is filled
- `permuteInPlace_spec`: afterwards every bucket holds its strings
-/

namespace StringSampleSort

open Library

variable {S : Type}

/-! ## Model -/

/-- `bktindex` after step 3: the ends of the buckets. -/
def prefixSum (bktsize : ℕ → ℕ) : ℕ → ℕ
  | 0 => bktsize 0
  | i + 1 => prefixSum bktsize i + bktsize (i + 1)

/-- `last_bkt_size` after the bucket `i`: the size of the last bucket that is not empty. -/
def lastBktSize (bktsize : ℕ → ℕ) : ℕ → ℕ
  | 0 => bktsize 0
  | i + 1 => if bktsize (i + 1) ≠ 0 then bktsize (i + 1) else lastBktSize bktsize i

/-- The arrays that step 4 works on. -/
structure PermuteArrays (S : Type) where
  strings : ℕ → S
  bktcache : ℕ → ℕ
  bktindex : ℕ → ℕ

/-- `while ((j = --bktindex[permbkt]) > i)` with its two swaps, for at most `fuel` rounds.  No
result where `j` wraps around, since `strings[j]` then lies outside the array. -/
def walkCycle (i : ℕ) : ℕ → PermuteArrays S → S → ℕ → Option (PermuteArrays S × S × ℕ)
  | 0, _, _, _ => none
  | fuel + 1, a, perm, permbkt =>
    if a.bktindex permbkt = 0 then none
    else
      let j := a.bktindex permbkt - 1
      let bktindex := Function.update a.bktindex permbkt j
      if i < j then
        walkCycle i fuel ⟨Function.update a.strings j perm,
          Function.update a.bktcache j permbkt, bktindex⟩ (a.strings j) (a.bktcache j)
      else some (⟨a.strings, a.bktcache, bktindex⟩, perm, permbkt)

/-- `for (size_t i = 0, j; i < n - last_bkt_size; )` with one cycle a round, for at most `fuel`
rounds; a cycle has at most `rounds` of its own. -/
def permuteLoop (bktsize : ℕ → ℕ) (bound rounds : ℕ) :
    ℕ → ℕ → PermuteArrays S → Option (PermuteArrays S)
  | 0, i, a => if i < bound then none else some a
  | fuel + 1, i, a =>
    if i < bound then
      (walkCycle i rounds a (a.strings i) (a.bktcache i)).bind fun r =>
        permuteLoop bktsize bound rounds fuel (i + bktsize r.2.2)
          { r.1 with strings := Function.update r.1.strings i r.2.1 }
    else some a

/-- Steps 3 and 4: the strings after the rearrangement. -/
def permuteInPlace (bktnum n : ℕ) (bktsize : ℕ → ℕ) (strings : ℕ → S) (bktcache : ℕ → ℕ) :
    Option (ℕ → S) :=
  (permuteLoop bktsize (n - lastBktSize bktsize (bktnum - 1)) (bktnum * n + 1) n 0
    ⟨strings, bktcache, prefixSum bktsize⟩).map PermuteArrays.strings

/-- The walk that finds the bucket of each string under way again:
`while (1) { b = find_bkt(perm); j = --bktindex[b]; if (j <= i) break; std::swap(perm, strings[j]); }`,
for at most `fuel` rounds. -/
def walkCycleFind (find_bkt : S → ℕ) (i : ℕ) :
    ℕ → (ℕ → S) → (ℕ → ℕ) → S → Option ((ℕ → S) × (ℕ → ℕ) × S × ℕ)
  | 0, _, _, _ => none
  | fuel + 1, strings, bktindex, perm =>
    let b := find_bkt perm
    if bktindex b = 0 then none
    else
      let j := bktindex b - 1
      let bktindex := Function.update bktindex b j
      if j ≤ i then some (strings, bktindex, perm, b)
      else walkCycleFind find_bkt i fuel (Function.update strings j perm) bktindex (strings j)

/-- The loop over the cycles without a cache. -/
def permuteLoopFind (find_bkt : S → ℕ) (bktsize : ℕ → ℕ) (bound rounds : ℕ) :
    ℕ → ℕ → (ℕ → S) → (ℕ → ℕ) → Option (ℕ → S)
  | 0, i, strings, _ => if i < bound then none else some strings
  | fuel + 1, i, strings, bktindex =>
    if i < bound then
      (walkCycleFind find_bkt i rounds strings bktindex (strings i)).bind fun r =>
        permuteLoopFind find_bkt bktsize bound rounds fuel (i + bktsize r.2.2.2)
          (Function.update r.1 i r.2.2.1) r.2.1
    else some strings

/-- Steps 3 and 4 of `sample_sortBS` and `sample_sortBT`, which keep no bucket cache. -/
def permuteInPlaceFind (find_bkt : S → ℕ) (bktnum n : ℕ) (bktsize : ℕ → ℕ) (strings : ℕ → S) :
    Option (ℕ → S) :=
  permuteLoopFind find_bkt bktsize (n - lastBktSize bktsize (bktnum - 1)) (bktnum * n + 1) n 0
    strings (prefixSum bktsize)

/-! ## Prefix sums -/

theorem prefixSum_eq (bktsize : ℕ → ℕ) (i : ℕ) :
    prefixSum bktsize i = bucketStart bktsize i + bktsize i := by
  induction i with
  | zero => simp [prefixSum, bucketStart]
  | succ i ih => rw [prefixSum, ih, bucketStart_succ]

/-- `last_bkt_size` belongs to a bucket behind which all buckets are empty. -/
theorem lastBktSize_spec (bktsize : ℕ → ℕ) (i : ℕ) :
    ∃ b ≤ i, lastBktSize bktsize i = bktsize b ∧ ∀ c, b < c → c ≤ i → bktsize c = 0 := by
  induction i with
  | zero => exact ⟨0, le_refl _, rfl, fun c h₁ h₂ => by omega⟩
  | succ i ih =>
    rw [lastBktSize]
    split
    · exact ⟨i + 1, le_refl _, rfl, fun c h₁ h₂ => by omega⟩
    · next hzero =>
      obtain ⟨b, hb, heq, hempty⟩ := ih
      refine ⟨b, by omega, heq, fun c h₁ h₂ => ?_⟩
      rcases Nat.eq_or_lt_of_le h₂ with rfl | hlt
      · exact not_not.mp hzero
      · exact hempty c h₁ (by omega)

/-! ## Invariants -/

section Invariants

variable (size : ℕ → ℕ) (bkt : S → ℕ) (K n : ℕ)

/-- The start `i` of a round: all buckets before `i` hold their strings, and each bucket from
`i` on holds strings of its own from its `bktindex` on. -/
structure RoundInv (i : ℕ) (a : PermuteArrays S) : Prop where
  cache : ∀ p, i ≤ p → p < n → a.bktcache p = bkt (a.strings p)
  boundary : ∀ b < K, bucketStart size b + size b ≤ i ∨ i ≤ bucketStart size b
  before : ∀ b < K, bucketStart size b + size b ≤ i →
    FilledFrom size bkt a.strings b (bucketStart size b)
  index : ∀ b < K, 0 < size b → i ≤ bucketStart size b →
    bucketStart size b ≤ a.bktindex b ∧ a.bktindex b ≤ bucketStart size b + size b ∧
      FilledFrom size bkt a.strings b (a.bktindex b)
  bound : ∀ b < K, a.bktindex b ≤ n
  first : i = 0 → ∀ b < K, 0 < size b → 0 < a.bktindex b

/-- Within a cycle: place `i` is a hole, the string `perm` is under way, and no bucket from `i`
on is filled down to `i`. -/
structure CycleInv (i : ℕ) (a : PermuteArrays S) (perm : S) (permbkt : ℕ) : Prop where
  hole_lt : i < n
  permbkt_eq : permbkt = bkt perm
  cache : ∀ p, i < p → p < n → a.bktcache p = bkt (a.strings p)
  boundary : ∀ b < K, bucketStart size b + size b ≤ i ∨ i ≤ bucketStart size b
  before : ∀ b < K, bucketStart size b + size b ≤ i →
    FilledFrom size bkt a.strings b (bucketStart size b)
  index : ∀ b < K, 0 < size b → i ≤ bucketStart size b →
    bucketStart size b ≤ a.bktindex b ∧ a.bktindex b ≤ bucketStart size b + size b ∧
      i < a.bktindex b ∧ FilledFrom size bkt a.strings b (a.bktindex b)
  bound : ∀ b < K, a.bktindex b ≤ n

variable {size bkt K n}

/-- The string under way belongs into a bucket from `i` on, which is not full. -/
theorem CycleInv.target {i : ℕ} {a : PermuteArrays S} {perm : S} {permbkt : ℕ}
    (h : CycleInv size bkt K n i a perm permbkt)
    (ht : Tallies size bkt K n (Function.update a.strings i perm)) :
    permbkt < K ∧ 0 < size permbkt ∧ i ≤ bucketStart size permbkt ∧
      bucketStart size permbkt < a.bktindex permbkt := by
  have hat : bkt (Function.update a.strings i perm i) = permbkt := by
    rw [Function.update_self, h.permbkt_eq]
  have hK : permbkt < K := hat ▸ ht.bound i h.hole_lt
  have hsize : 0 < size permbkt := by
    have hcard := card_le_countP (A := Function.update a.strings i perm) (n := n)
      (q := fun x => decide (bkt x = permbkt)) (s := {i}) fun p hp => by
        rw [Finset.mem_singleton.mp hp]
        exact ⟨h.hole_lt, by simpa using hat⟩
    rwa [ht.count permbkt hK, Finset.card_singleton] at hcard
  have hne : ∀ p, p ≠ i → Function.update a.strings i perm p = a.strings p := fun p hp =>
    Function.update_of_ne hp _ _
  have hstart : i ≤ bucketStart size permbkt := by
    rcases h.boundary permbkt hK with hend | hstart
    · -- a bucket before the hole is full already
      have hfilled := (h.before permbkt hK hend).congr fun p _ hp => hne p (by omega)
      have := ht.lt_of_outside hK hfilled (le_refl _) h.hole_lt hat (Or.inr hend)
      omega
    · exact hstart
  obtain ⟨hlo, -, hhole, hfilled⟩ := h.index permbkt hK hsize hstart
  have hfilled' := hfilled.congr fun p hp _ => hne p (by omega)
  exact ⟨hK, hsize, hstart, ht.lt_of_outside hK hfilled' hlo h.hole_lt hat (Or.inl hhole)⟩

/-- A round of the inner loop puts the string under way at its place and takes the one there. -/
theorem CycleInv.step {i : ℕ} {a : PermuteArrays S} {perm : S} {permbkt : ℕ}
    (h : CycleInv size bkt K n i a perm permbkt)
    (ht : Tallies size bkt K n (Function.update a.strings i perm))
    (hj : i < a.bktindex permbkt - 1) :
    CycleInv size bkt K n i
      ⟨Function.update a.strings (a.bktindex permbkt - 1) perm,
        Function.update a.bktcache (a.bktindex permbkt - 1) permbkt,
        Function.update a.bktindex permbkt (a.bktindex permbkt - 1)⟩
      (a.strings (a.bktindex permbkt - 1)) (a.bktcache (a.bktindex permbkt - 1)) := by
  obtain ⟨hK, hsize, hstart, hlo⟩ := h.target ht
  have hidx := h.index permbkt hK hsize hstart
  have hbound := h.bound permbkt hK
  set j := a.bktindex permbkt - 1 with hjdef
  refine ⟨h.hole_lt, h.cache j hj (by omega), fun p h₁ h₂ => ?_, h.boundary,
    fun b hb hend => ?_, fun b hb hpos hbi => ?_, fun b hb => ?_⟩
  · by_cases hpj : p = j
    · simp only [hpj, Function.update_self, h.permbkt_eq]
    · simp only [Function.update_of_ne hpj]
      exact h.cache p h₁ h₂
  · exact (h.before b hb hend).congr fun p _ hp => Function.update_of_ne (by omega) _ _
  · by_cases hbp : b = permbkt
    · subst hbp
      simp only [Function.update_self]
      refine ⟨by omega, by omega, hj, fun p h₁ h₂ => ?_⟩
      by_cases hpj : p = j
      · rw [hpj, Function.update_self, h.permbkt_eq]
      · rw [Function.update_of_ne hpj]
        exact hidx.2.2.2 p (by omega) h₂
    · simp only [Function.update_of_ne hbp]
      obtain ⟨h₁, h₂, h₃, hfilled⟩ := h.index b hb hpos hbi
      refine ⟨h₁, h₂, h₃, hfilled.congr fun p hp hp' => Function.update_of_ne ?_ _ _⟩
      -- place `j` lies in another bucket
      rintro rfl
      exact hbp (bucket_unique (by omega) hp' (by omega) (by omega))
  · by_cases hbp : b = permbkt
    · subst hbp
      simp only [Function.update_self]
      omega
    · simp only [Function.update_of_ne hbp]
      exact h.bound b hb

/-- The cycle ends at its hole: with the last string there, all of the bucket is filled. -/
theorem CycleInv.exit {i : ℕ} {a : PermuteArrays S} {perm : S} {permbkt : ℕ}
    (h : CycleInv size bkt K n i a perm permbkt)
    (ht : Tallies size bkt K n (Function.update a.strings i perm))
    (hj : ¬ i < a.bktindex permbkt - 1) :
    RoundInv size bkt K n (i + size permbkt)
      ⟨Function.update a.strings i perm, a.bktcache,
        Function.update a.bktindex permbkt (a.bktindex permbkt - 1)⟩ := by
  obtain ⟨hK, hsize, hstart, hlo⟩ := h.target ht
  have hidx := h.index permbkt hK hsize hstart
  have hbound := h.bound permbkt hK
  have hi : bucketStart size permbkt = i := by omega
  have hne : ∀ p, p ≠ i → Function.update a.strings i perm p = a.strings p := fun p hp =>
    Function.update_of_ne hp _ _
  refine ⟨fun p h₁ h₂ => ?_, fun b hb => ?_, fun b hb hend => ?_, fun b hb hpos hbi => ?_,
    fun b hb => ?_, fun h0 => by omega⟩
  · simp only [hne p (by omega)]
    exact h.cache p (by omega) h₂
  · rcases Nat.lt_trichotomy b permbkt with hlt | rfl | hgt
    · have := bucketEnd_le size hlt
      omega
    · omega
    · have := bucketEnd_le size hgt
      omega
  · rcases Nat.lt_trichotomy b permbkt with hlt | rfl | hgt
    · have := bucketEnd_le size hlt
      exact (h.before b hb (by omega)).congr fun p _ hp => hne p (by omega)
    · intro p h₁ h₂
      by_cases hp : p = i
      · simp only [hp, Function.update_self, h.permbkt_eq]
      · simp only [hne p hp]
        exact hidx.2.2.2 p (by omega) h₂
    · -- only an empty bucket ends here behind the filled one
      intro p h₁ h₂
      have := bucketEnd_le size hgt
      omega
  · have hbp : b ≠ permbkt := by
      rintro rfl
      omega
    simp only [Function.update_of_ne hbp]
    obtain ⟨h₁, h₂, -, hfilled⟩ := h.index b hb hpos (by omega)
    exact ⟨h₁, h₂, hfilled.congr fun p hp _ => hne p (by omega)⟩
  · by_cases hbp : b = permbkt
    · subst hbp
      simp only [Function.update_self]
      omega
    · simp only [Function.update_of_ne hbp]
      exact h.bound b hb

/-- At the start of a round all places before the bound of the loop belong to a bucket that
starts here. -/
theorem RoundInv.exists_start {i : ℕ} {a : PermuteArrays S} (h : RoundInv size bkt K n i a)
    (ht : Tallies size bkt K n a.strings) (hi : i < n) :
    ∃ b < K, bucketStart size b = i ∧ 0 < size b := by
  obtain ⟨b, hb, h₁, h₂⟩ := exists_bucket size (hi.trans_eq ht.total.symm)
  refine ⟨b, hb, ?_, by omega⟩
  have := h.boundary b hb
  omega

/-- A bucket that is filled already is skipped: its first string stays where it is. -/
theorem RoundInv.skip {i : ℕ} {a : PermuteArrays S} (h : RoundInv size bkt K n i a)
    {b : ℕ} (hb : b < K) (hstart : bucketStart size b = i) (hsize : 0 < size b)
    (hfull : a.bktindex b = i) :
    RoundInv size bkt K n (i + size b)
      ⟨a.strings, a.bktcache, Function.update a.bktindex b (a.bktindex b - 1)⟩ := by
  have hbound := h.bound b hb
  have hfilled := (h.index b hb hsize hstart.ge).2.2
  refine ⟨fun p h₁ h₂ => h.cache p (by omega) h₂, fun c hc => ?_, fun c hc hend => ?_,
    fun c hc hpos hci => ?_, fun c hc => ?_, fun h0 => by omega⟩
  · rcases Nat.lt_trichotomy c b with hlt | rfl | hgt
    · have := bucketEnd_le size hlt
      omega
    · omega
    · have := bucketEnd_le size hgt
      omega
  · rcases Nat.lt_trichotomy c b with hlt | rfl | hgt
    · have := bucketEnd_le size hlt
      exact h.before c hc (by omega)
    · rw [hstart, ← hfull]
      exact hfilled
    · intro p h₁ h₂
      have := bucketEnd_le size hgt
      omega
  · have hcb : c ≠ b := by
      rintro rfl
      omega
    simp only [Function.update_of_ne hcb]
    exact h.index c hc hpos (by omega)
  · by_cases hcb : c = b
    · subst hcb
      simp only [Function.update_self]
      omega
    · simp only [Function.update_of_ne hcb]
      exact h.bound c hc

/-- Unless its bucket is filled already, a round opens a hole. -/
theorem RoundInv.cycleInv {i : ℕ} {a : PermuteArrays S} (h : RoundInv size bkt K n i a)
    (hi : i < n) {b : ℕ} (hstart : bucketStart size b = i) (hsize : 0 < size b)
    (hopen : i < a.bktindex b) :
    CycleInv size bkt K n i a (a.strings i) (a.bktcache i) where
  hole_lt := hi
  permbkt_eq := h.cache i (le_refl _) hi
  cache p h₁ h₂ := h.cache p h₁.le h₂
  boundary := h.boundary
  before := h.before
  index c hc hpos hci := by
    obtain ⟨h₁, h₂, h₃⟩ := h.index c hc hpos hci
    refine ⟨h₁, h₂, ?_, h₃⟩
    rcases Nat.eq_or_lt_of_le hci with heq | hlt
    · have hcb : c = b := bucket_unique (p := i) heq.ge (by omega) hstart.le (by omega)
      rwa [hcb]
    · omega
  bound := h.bound

/-! ## Runs of the loops -/

/-- One cycle ends with its hole filled, and the whole bucket that starts there. -/
theorem walkCycle_spec {i fuel : ℕ} {a : PermuteArrays S} {perm : S} {permbkt : ℕ}
    (h : CycleInv size bkt K n i a perm permbkt)
    (ht : Tallies size bkt K n (Function.update a.strings i perm))
    (hfuel : ∑ b ∈ Finset.range K, a.bktindex b < fuel) :
    ∃ a' perm' permbkt', walkCycle i fuel a perm permbkt = some (a', perm', permbkt') ∧
      RoundInv size bkt K n (i + size permbkt')
        { a' with strings := Function.update a'.strings i perm' } ∧ 0 < size permbkt' ∧
      (contents (Function.update a'.strings i perm') n).Perm
        (contents (Function.update a.strings i perm) n) := by
  induction fuel generalizing a perm permbkt with
  | zero => exact absurd hfuel (Nat.not_lt_zero _)
  | succ fuel ih =>
    obtain ⟨hK, hsize, -, hlo⟩ := h.target ht
    rw [walkCycle, if_neg (by omega)]
    by_cases hj : i < a.bktindex permbkt - 1
    · rw [if_pos hj]
      have hbound := h.bound permbkt hK
      -- the exchange of the hole and place `j`
      have hswap : (contents (Function.update (Function.update a.strings
          (a.bktindex permbkt - 1) perm) i (a.strings (a.bktindex permbkt - 1))) n).Perm
          (contents (Function.update a.strings i perm) n) := by
        rw [update_swap _ _ hj.ne]
        exact perm_swap _ h.hole_lt (by omega)
      have hsum := sum_update_add (Finset.range K) id a.bktindex (Finset.mem_range.mpr hK)
        (a.bktindex permbkt - 1)
      simp only [id] at hsum
      obtain ⟨a', perm', permbkt', heq, hinv, hpos, hperm⟩ :=
        ih (h.step ht hj) (ht.perm hswap) (by simp only; omega)
      exact ⟨a', perm', permbkt', heq, hinv, hpos, hperm.trans hswap⟩
    · rw [if_neg hj]
      exact ⟨_, _, _, rfl, h.exit ht hj, hsize, List.Perm.refl _⟩

/-- The bounds on `bktindex` give every cycle enough rounds. -/
theorem RoundInv.sum_lt {i : ℕ} {a : PermuteArrays S} (h : RoundInv size bkt K n i a) :
    ∑ b ∈ Finset.range K, a.bktindex b < K * n + 1 := by
  have := Finset.sum_le_card_nsmul (Finset.range K) a.bktindex n fun b hb =>
    h.bound b (Finset.mem_range.mp hb)
  simp only [Finset.card_range, nsmul_eq_mul, Nat.cast_id] at this
  exact Nat.lt_succ_of_le this

/-- One round of the outer loop. -/
theorem RoundInv.round {i : ℕ} {a : PermuteArrays S} (h : RoundInv size bkt K n i a)
    (ht : Tallies size bkt K n a.strings) (hi : i < n) :
    ∃ a' perm' permbkt', walkCycle i (K * n + 1) a (a.strings i) (a.bktcache i) =
        some (a', perm', permbkt') ∧
      RoundInv size bkt K n (i + size permbkt')
        { a' with strings := Function.update a'.strings i perm' } ∧ 0 < size permbkt' ∧
      (contents (Function.update a'.strings i perm') n).Perm (contents a.strings n) := by
  have hself : Function.update a.strings i (a.strings i) = a.strings := Function.update_eq_self ..
  obtain ⟨b, hb, hstart, hsize⟩ := h.exists_start ht hi
  rcases Nat.lt_or_ge i (a.bktindex b) with hopen | hfull
  · obtain ⟨a', perm', permbkt', heq, hinv, hpos, hperm⟩ :=
      walkCycle_spec (h.cycleInv hi hstart hsize hopen) (by rwa [hself]) h.sum_lt
    exact ⟨a', perm', permbkt', heq, hinv, hpos, by rwa [hself] at hperm⟩
  · -- earlier cycles have filled the bucket: `j` becomes `i - 1`
    obtain ⟨hlo, -, hfilled⟩ := h.index b hb hsize hstart.ge
    have hidx : a.bktindex b = i := by omega
    have hbkt : a.bktcache i = b := by
      rw [h.cache i (le_refl _) hi]
      exact hfilled i (by omega) (by omega)
    have hi0 : a.bktindex b ≠ 0 := by
      intro h0
      have := h.first (by omega) b hb hsize
      omega
    rw [walkCycle, hbkt, if_neg hi0, if_neg (by omega)]
    refine ⟨_, _, _, rfl, ?_, hsize, ?_⟩
    · simp only [hself]
      exact h.skip hb hstart hsize hidx
    · simp only [hself]
      exact List.Perm.refl _

theorem permuteLoop_spec {bound : ℕ} (hbound : bound ≤ n) {fuel i : ℕ} {a : PermuteArrays S}
    (h : RoundInv size bkt K n i a) (ht : Tallies size bkt K n a.strings)
    (hfuel : n - i ≤ fuel) :
    ∃ a' i', permuteLoop size bound (K * n + 1) fuel i a = some a' ∧ bound ≤ i' ∧
      RoundInv size bkt K n i' a' ∧ (contents a'.strings n).Perm (contents a.strings n) := by
  induction fuel generalizing i a with
  | zero =>
    rw [permuteLoop, if_neg (by omega)]
    exact ⟨a, i, rfl, by omega, h, List.Perm.refl _⟩
  | succ fuel ih =>
    rw [permuteLoop]
    split
    · next hlt =>
      obtain ⟨a₁, perm, permbkt, heq, hinv, hpos, hperm⟩ := h.round ht (by omega)
      obtain ⟨a', i', heq', hi', hinv', hperm'⟩ := ih hinv (ht.perm hperm) (by omega)
      exact ⟨a', i', by rw [heq]; exact heq', hi', hinv', hperm'.trans hperm⟩
    · next hge => exact ⟨a, i, rfl, by omega, h, List.Perm.refl _⟩

/-- At the start no bucket is filled, and `bktindex` holds the ends of the buckets. -/
theorem roundInv_start {strings : ℕ → S} {bktcache : ℕ → ℕ}
    (hcache : ∀ p < n, bktcache p = bkt (strings p)) (ht : Tallies size bkt K n strings) :
    RoundInv size bkt K n 0 ⟨strings, bktcache, prefixSum size⟩ := by
  refine ⟨fun p _ hp => hcache p hp, fun b _ => Or.inr (Nat.zero_le _), fun b _ hb => ?_,
    fun b hb _ _ => ?_, fun b hb => ?_, fun _ b _ hb => ?_⟩
  · intro p h₁ h₂
    omega
  · simp only [prefixSum_eq]
    exact ⟨by omega, le_refl _, fun p h₁ h₂ => by omega⟩
  · simp only [prefixSum_eq]
    exact ht.bucketEnd_le hb
  · simp only [prefixSum_eq]
    omega

/-- The rearrangement succeeds, and then every bucket holds its strings. -/
theorem permuteInPlace_spec {strings : ℕ → S} {bktcache : ℕ → ℕ} (hK : 0 < K)
    (hcache : ∀ p < n, bktcache p = bkt (strings p)) (ht : Tallies size bkt K n strings) :
    ∃ strings', permuteInPlace K n size strings bktcache = some strings' ∧
      (contents strings' n).Perm (contents strings n) ∧
      ∀ b < K, FilledFrom size bkt strings' b (bucketStart size b) := by
  have hinit := roundInv_start hcache ht
  obtain ⟨L, hL, hlast, hempty⟩ := lastBktSize_spec size (K - 1)
  have hend : bucketStart size L + size L = n := by
    rw [← bucketStart_succ, ← ht.total]
    exact (bucketStart_eq_of_empty size (by omega) fun d h₁ h₂ => hempty d (by omega)
      (by omega)).symm
  obtain ⟨a', i', heq, hi', hinv, hperm⟩ := permuteLoop_spec
    (Nat.sub_le n (lastBktSize size (K - 1))) hinit ht (by omega : n - 0 ≤ n)
  refine ⟨a'.strings, by rw [permuteInPlace, heq]; rfl, hperm, ?_⟩
  -- all buckets but the last one have been walked through
  have hrest : ∀ b < K, b ≠ L → FilledFrom size bkt a'.strings b (bucketStart size b) := by
    intro b hb hbL
    rcases hinv.boundary b hb with hend' | hstart
    · exact hinv.before b hb hend'
    · intro p h₁ h₂
      rcases Nat.lt_or_gt_of_ne hbL with hlt | hgt
      · have := bucketEnd_le size hlt
        omega
      · have := hempty b hgt (by omega)
        omega
  intro b hb
  by_cases hbL : b = L
  · subst hbL
    exact (ht.perm hperm).last_bucket hb hrest
  · exact hrest b hb hbL

end Invariants

end StringSampleSort
