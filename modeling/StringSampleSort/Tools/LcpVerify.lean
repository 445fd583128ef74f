import StringSampleSort.Sequential.InsertionSort

/-!
# The checks of LCPs and distinguishing characters

Model of `calc_lcp` of `src/tools/stringtools.hpp` and of `verify_lcp_cache` and `verify_lcp` of
`src/tools/stringptr.hpp`, with which the sorts with LCPs are tested, and of
`LcpCacheStringPtr::calculateCache`, which fills in the characters behind given LCPs.

`calc_lcp` counts in a `size_t` and returns an `unsigned int`, and `calculateCache` counts in an
`unsigned int` up to a `size_t`, so both depend on the width of their counters.

## Main results

- `calcLcp_eq`: the common prefix, as far as an `unsigned int` holds it
- `verifyLcpCache_iff`: what the check accepts
- `CalculateCacheReturns.iff`: when the loop over the characters ends, and what it leaves
-/

namespace StringSampleSort

open Library

/-! ## Model -/

/-- The range of `unsigned int`. -/
def uintRange : ℕ := 2 ^ 32

/-- The value of `(lcp_t)-1`. -/
def lcpUnknown : ℕ := 2 ^ 64 - 1

section Model

variable {S : Type} (ss : StringSet S)

/-- `get_char(s, depth)`. -/
def StringSet.getCharAt (s : S) (depth : ℕ) : CharType := ss.deref (ss.getChars s depth)

/-- The loop of `calc_lcp`, for at most `fuel` rounds. -/
def calcLcpLoop (s1 s2 : S) : ℕ → ℕ → ℕ → ℕ → ℕ
  | 0, h, _, _ => h
  | fuel + 1, h, c1, c2 =>
    if ss.isEqual s1 c1 s2 c2 then calcLcpLoop s1 s2 fuel (h + 1) (c1 + 1) (c2 + 1) else h

/-- `calc_lcp(ss, s1, s2)`.  The end of `s1` stops the loop; `h` is returned as `unsigned int`. -/
def calcLcp (s1 s2 : S) : ℕ :=
  calcLcpLoop ss s1 s2 (ss.length s1) 0 (ss.getChars s1 0) (ss.getChars s2 0) % uintRange

/-- The check of the first entries in `verify_lcp_cache`. -/
def verifyFirst (checkCache : Bool) (strings : ℕ → S) (lcps : ℕ → ℕ) (cache : ℕ → CharType)
    (expectedFirstLcp : ℕ) : Bool :=
  if expectedFirstLcp ≠ lcpUnknown then
    let allValid := if lcps 0 ≠ expectedFirstLcp then false else true
    if checkCache ∧ expectedFirstLcp ≠ 42 ∧ cache 0 ≠ ss.getCharAt (strings 0) (lcps 0) then false
    else allValid
  else true

/-- `verify_lcp_cache<checkCache>(ss, lcps, cache, expectedFirstLcp)` for a set of `size` strings. -/
def verifyLcpCache (checkCache : Bool) (strings : ℕ → S) (size : ℕ) (lcps : ℕ → ℕ)
    (cache : ℕ → CharType) (expectedFirstLcp : ℕ) : Bool :=
  (List.range' 1 (size - 1)).foldl (fun allValid i =>
    let s1 := strings (i - 1)
    let s2 := strings i
    let h := calcLcp ss s1 s2
    let allValid := if h ≠ lcps i then false else allValid
    if checkCache ∧ cache i ≠ ss.getCharAt s2 (lcps i) then false else allValid)
    (verifyFirst ss checkCache strings lcps cache expectedFirstLcp)

/-- `verify_lcp(ss, lcps, expectedFirstLcp)`, which passes no cache. -/
def verifyLcp (strings : ℕ → S) (size : ℕ) (lcps : ℕ → ℕ) (expectedFirstLcp : ℕ) : Bool :=
  verifyLcpCache ss false strings size lcps (fun _ => 0) expectedFirstLcp

end Model

/-- The loop of `LcpCacheStringPtr::calculateCache()` from `i` on, for at most `fuel` rounds.  The
counter is an `unsigned`, and `size` a `size_t`. -/
def calculateCacheLoop {mem : ℕ → CharType} (strings : ℕ → CString mem) (lcps : ℕ → ℕ)
    (size : ℕ) : ℕ → ℕ → (ℕ → CharType) → Option (ℕ → CharType)
  | 0, _, _ => none
  | fuel + 1, i, cachedChars =>
    if i < size then
      calculateCacheLoop strings lcps size fuel ((i + 1) % uintRange)
        (Function.update cachedChars i (mem ((strings i).ptr + lcps i)))
    else some cachedChars

/-- `calculateCache()` returns and leaves these characters. -/
def CalculateCacheReturns {mem : ℕ → CharType} (strings : ℕ → CString mem) (lcps : ℕ → ℕ)
    (size : ℕ) (cachedChars cachedChars' : ℕ → CharType) : Prop :=
  ∃ fuel, calculateCacheLoop strings lcps size fuel 0 cachedChars = some cachedChars'

/-! ## Scanning for the common prefix -/

section CalcLcp

variable {S : Type} {ss : StringSet S}

variable (ss) in
private theorem calcLcpLoop_add (s1 s2 : S) (fuel h c1 c2 : ℕ) :
    c1 + calcLcpLoop ss s1 s2 fuel h c1 c2 = h + (ss.scanEqual s1 s2 fuel c1 c2).1 := by
  induction fuel generalizing h c1 c2 with
  | zero => exact Nat.add_comm c1 h
  | succ fuel ih =>
    unfold calcLcpLoop StringSet.scanEqual
    split
    · have hnext := ih (h + 1) (c1 + 1) (c2 + 1)
      omega
    · exact Nat.add_comm c1 h

/-- The scan counts the characters of the common prefix, and the width of the result cuts it off. -/
theorem calcLcp_eq (hlaw : ss.Lawful) (s1 s2 : S) :
    calcLcp ss s1 s2 = lcpOf ss s1 s2 % uintRange := by
  have hadd := calcLcpLoop_add ss s1 s2 (ss.length s1) 0 (ss.getChars s1 0) (ss.getChars s2 0)
  have hscan := StringSet.scanEqual_eq hlaw s1 s2 (ss.length s1) 0 0 (Nat.zero_le _) (Nat.zero_le _)
    (Nat.sub_le _ _)
  simp only [List.drop_zero, Nat.zero_add] at hscan
  rw [hscan, hlaw.getChars_add s1 (lcpLen _ _)] at hadd
  have heq : calcLcpLoop ss s1 s2 (ss.length s1) 0 (ss.getChars s1 0) (ss.getChars s2 0) =
      lcpOf ss s1 s2 := by
    unfold lcpOf
    omega
  exact congrArg (· % uintRange) heq

/-- The check finds every entry right, as far as `calc_lcp` counts.  The first entries are not
looked at where their LCP is unknown, nor the first character where the LCP is the mark 42. -/
theorem verifyLcpCache_iff (hlaw : ss.Lawful) (checkCache : Bool) (strings : ℕ → S) (size : ℕ)
    (lcps : ℕ → ℕ) (cache : ℕ → CharType) (expected : ℕ) :
    verifyLcpCache ss checkCache strings size lcps cache expected = true ↔
      (expected ≠ lcpUnknown → lcps 0 = expected ∧ (checkCache = true → expected ≠ 42 →
        cache 0 = ss.getCharAt (strings 0) (lcps 0))) ∧
      ∀ i, 1 ≤ i → i < size → lcps i = lcpOf ss (strings (i - 1)) (strings i) % uintRange ∧
        (checkCache = true → cache i = ss.getCharAt (strings i) (lcps i)) := by
  have hfirst : verifyFirst ss checkCache strings lcps cache expected = true ↔
      (expected ≠ lcpUnknown → lcps 0 = expected ∧ (checkCache = true → expected ≠ 42 →
        cache 0 = ss.getCharAt (strings 0) (lcps 0))) := by
    unfold verifyFirst
    grind
  -- the loop keeps `false`, so its result is that of all rounds together
  have hloop : ∀ (k first : ℕ) (allValid : Bool),
      (List.range' first k).foldl (fun allValid i =>
        if checkCache ∧ cache i ≠ ss.getCharAt (strings i) (lcps i) then false
        else if calcLcp ss (strings (i - 1)) (strings i) ≠ lcps i then false else allValid)
        allValid = true ↔
      allValid = true ∧ ∀ i, first ≤ i → i < first + k →
        lcps i = lcpOf ss (strings (i - 1)) (strings i) % uintRange ∧
        (checkCache = true → cache i = ss.getCharAt (strings i) (lcps i)) := by
    intro k
    induction k with
    | zero =>
      intro first allValid
      simp only [List.range'_zero, List.foldl_nil, Nat.add_zero]
      exact ⟨fun h => ⟨h, fun i hle hlt => absurd hle (Nat.not_le.mpr hlt)⟩, fun h => h.1⟩
    | succ k ih =>
      intro first allValid
      rw [List.range'_succ, List.foldl_cons, ih (first + 1), calcLcp_eq hlaw]
      constructor
      · rintro ⟨hround, hrest⟩
        refine ⟨by grind, fun i hle hlt => ?_⟩
        rcases Nat.eq_or_lt_of_le hle with rfl | hlt'
        · grind
        · exact hrest i hlt' (by omega)
      · rintro ⟨rfl, hall⟩
        have hone := hall first (Nat.le_refl _) (by omega)
        exact ⟨by grind, fun i hle hlt => hall i (by omega) (by omega)⟩
  unfold verifyLcpCache
  rw [hloop (size - 1) 1, hfirst]
  refine and_congr_right fun _ => forall_congr' fun i => imp_congr_right fun hpos => ?_
  rw [show i < 1 + (size - 1) ↔ i < size by omega]

/-- The check without characters. -/
theorem verifyLcp_iff (hlaw : ss.Lawful) (strings : ℕ → S) (size : ℕ) (lcps : ℕ → ℕ)
    (expected : ℕ) :
    verifyLcp ss strings size lcps expected = true ↔
      (expected ≠ lcpUnknown → lcps 0 = expected) ∧
      ∀ i, 1 ≤ i → i < size → lcps i = lcpOf ss (strings (i - 1)) (strings i) % uintRange := by
  unfold verifyLcp
  rw [verifyLcpCache_iff hlaw]
  simp

end CalcLcp

/-! ## Filling in the characters -/

section CalculateCache

variable {mem : ℕ → CharType} {strings : ℕ → CString mem} {lcps : ℕ → ℕ} {size : ℕ}

/-- More fuel does not change what has been returned. -/
private theorem calculateCacheLoop_mono {fuel i : ℕ} {cache cache' : ℕ → CharType}
    (h : calculateCacheLoop strings lcps size fuel i cache = some cache') (d : ℕ) :
    calculateCacheLoop strings lcps size (fuel + d) i cache = some cache' := by
  induction fuel generalizing i cache with
  | zero => cases h
  | succ fuel ih =>
    rw [Nat.add_right_comm]
    unfold calculateCacheLoop at h ⊢
    split at h
    · next hlt =>
      rw [if_pos hlt]
      exact ih h
    · next hge =>
      rw [if_neg hge]
      exact h

/-- While the counter does not wrap around, the characters from it on are filled in. -/
private theorem calculateCacheLoop_eq (hsize : size < uintRange) (k i : ℕ) (hi : i + k = size)
    (cache : ℕ → CharType) {fuel : ℕ} (hfuel : k < fuel) :
    calculateCacheLoop strings lcps size fuel i cache = some fun p =>
      if i ≤ p ∧ p < size then mem ((strings p).ptr + lcps p) else cache p := by
  induction k generalizing i cache fuel with
  | zero =>
    obtain ⟨fuel, rfl⟩ : ∃ f, fuel = f + 1 := ⟨fuel - 1, by omega⟩
    unfold calculateCacheLoop
    rw [if_neg (by omega)]
    congr 1
    funext p
    rw [if_neg (by omega)]
  | succ k ih =>
    obtain ⟨fuel, rfl⟩ : ∃ f, fuel = f + 1 := ⟨fuel - 1, by omega⟩
    unfold calculateCacheLoop
    rw [if_pos (by omega), Nat.mod_eq_of_lt (by omega), ih (i + 1) (by omega) _ (by omega)]
    congr 1
    funext p
    rcases Nat.lt_trichotomy p i with hlt | rfl | hgt
    · rw [if_neg (by omega), if_neg (by omega), Function.update_of_ne (by omega)]
    · rw [if_neg (by omega), if_pos (by omega), Function.update_self]
    · simp only [Function.update_of_ne (show p ≠ i by omega), Nat.succ_le_of_lt hgt, hgt.le]

/-- A counter that stays below the range of `unsigned` never reaches a larger size. -/
private theorem calculateCacheLoop_none (hsize : uintRange ≤ size) (fuel i : ℕ) (hi : i < uintRange)
    (cache : ℕ → CharType) : calculateCacheLoop strings lcps size fuel i cache = none := by
  induction fuel generalizing i cache with
  | zero => rfl
  | succ fuel ih =>
    unfold calculateCacheLoop
    rw [if_pos (by omega)]
    exact ih _ (Nat.mod_lt _ (by decide)) _

/-- `calculateCache` returns exactly for arrays that an `unsigned` can count, and it has then set
the character behind the LCP of every string, and nothing else. -/
theorem CalculateCacheReturns.iff {cache cache' : ℕ → CharType} :
    CalculateCacheReturns strings lcps size cache cache' ↔
      size < uintRange ∧ cache' = fun p =>
        if p < size then mem ((strings p).ptr + lcps p) else cache p := by
  rcases Nat.lt_or_ge size uintRange with hsize | hsize
  · have hrun : ∀ fuel, size < fuel → calculateCacheLoop strings lcps size fuel 0 cache =
        some fun p => if p < size then mem ((strings p).ptr + lcps p) else cache p := by
      intro fuel hfuel
      rw [calculateCacheLoop_eq hsize size 0 (Nat.zero_add _) cache hfuel]
      simp only [Nat.zero_le, true_and]
    constructor
    · rintro ⟨fuel, hreturns⟩
      have hmore := calculateCacheLoop_mono hreturns (size + 1)
      rw [hrun _ (by omega)] at hmore
      exact ⟨hsize, (Option.some_inj.mp hmore).symm⟩
    · rintro ⟨-, rfl⟩
      exact ⟨size + 1, hrun _ (Nat.lt_succ_self _)⟩
  · refine iff_of_false ?_ fun h => absurd h.1 (Nat.not_lt.mpr hsize)
    rintro ⟨fuel, hreturns⟩
    rw [calculateCacheLoop_none hsize fuel 0 (by decide) cache] at hreturns
    cases hreturns

end CalculateCache

end StringSampleSort
