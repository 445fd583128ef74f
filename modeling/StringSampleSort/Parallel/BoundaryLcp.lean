import StringSampleSort.Library.CheckedArray
import StringSampleSort.Sequential.BucketOrder
import StringSampleSort.Tools.CheckOrder
import StringSampleSort.Tools.StringPtr

/-!
# Common prefixes at bucket boundaries

Model of `sample_sort_lcp` of `src/parallel/bingmann-parallel_sample_sort.hpp`, which finds the
common prefixes of the strings on both sides of each bucket boundary from their keys.

The parity of the bucket is encoded in the program counter of the code: it jumps into the bodies of
its two loops.  Both loops are modelled as loops over half bodies, with a flag for the half that
comes next.

## Main results

- `nextNonEmpty_spec`, `firstNonEmpty_spec`: what the two loops do
- `sampleSortLcp_spec`: entries computed from keys are written at all boundaries
- `boundaryShown_iff`: when the keys show the common prefix of two strings
- `sampleSortLcp_exact_iff`: when the entries are right
-/

namespace StringSampleSort

open Library

/-! ## Model -/

section Model

variable {S : Type} (ss : StringSet S) (cls : StringPtrClass) (strptr : StringPtr)
  (get_splitter : ℕ → Option KeyType) (depth bktnum : ℕ) (bkt : ℕ → ℕ)

/-- `strset.get_uint64(strset.at(i), depth)`. -/
def keyOfString (m : Memory S) (i : ℕ) : Option KeyType :=
  (readAt strptr.size ((cls.output strptr).get m) i).map fun s => getUint64 ss s depth

/-- `bkt[b]` and `bkt[b + 1]`. -/
def bucketBounds (b : ℕ) : Option (ℕ × ℕ) :=
  (readAt (bktnum + 1) bkt b).bind fun first =>
  (readAt (bktnum + 1) bkt (b + 1)).map fun last => (first, last)

/-- `strptr.set_lcp(i, v); strptr.set_cache(i, c);`, with the assertions on `i`. -/
def setEntry (i v : ℕ) (c : CharType) (m : Memory S) : Option (Memory S) :=
  if 0 < i ∧ i < strptr.size then some (cls.setCache strptr i c (cls.setLcp strptr i v m)) else none

/-- `find first non-empty bucket`, for at most `fuel` buckets: the bucket and the key of its last
string.  An even bucket is looked at without a test of `b < bktnum`. -/
def firstNonEmpty (m : Memory S) : ℕ → Bool → ℕ → Option (ℕ × KeyType)
  | 0, _, _ => none
  | fuel + 1, even, b =>
    if even || decide (b < bktnum) then
      (bucketBounds bktnum bkt b).bind fun (first, last) =>
      if first ≠ last then
        (subtract last 1).bind fun i =>
        (keyOfString ss cls strptr depth m i).bind fun key =>
        if even then some (b, key)
        else
          (get_splitter (b / 2)).bind fun prevkey =>
          -- assert(prevkey == strset.get_uint64(strset.at(bkt[b + 1] - 1), depth));
          if prevkey = key then some (b, prevkey) else none
      else firstNonEmpty m fuel (!even) (b + 1)
    else some (b, 0)

/-- `find next non-empty bucket`, for at most `fuel` buckets, and write an entry for each. -/
def nextNonEmpty : ℕ → Bool → ℕ → KeyType → Memory S → Option (Memory S)
  | 0, _, _, _, _ => none
  | fuel + 1, even, b, prevkey, m =>
    if even || decide (b < bktnum) then
      (bucketBounds bktnum bkt b).bind fun (first, last) =>
      if first ≠ last then
        (keyOfString ss cls strptr depth m first).bind fun firstkey =>
        (subtract last 1).bind fun i =>
        (keyOfString ss cls strptr depth m i).bind fun lastkey =>
        (if even then some (firstkey, lastkey)
          else
            (get_splitter (b / 2)).bind fun thiskey =>
            -- assert(thiskey == strset.get_uint64(strset.at(bkt[b]), depth));
            -- assert(prevkey == strset.get_uint64(strset.at(bkt[b + 1] - 1), depth));
            if thiskey = firstkey ∧ thiskey = lastkey then some (thiskey, thiskey) else none).bind
        fun (thiskey, nextkey) =>
        let rlcp := lcpKeyType prevkey thiskey
        (setEntry cls strptr first (depth + rlcp) (getCharAtDepth thiskey rlcp) m).bind fun m =>
        nextNonEmpty fuel (!even) (b + 1) nextkey m
      else nextNonEmpty fuel (!even) (b + 1) prevkey m
    else some m

/-- `sample_sort_lcp<bktnum>(classifier, strptr, depth, bkt)`.  No result means that an access is
out of bounds or that an assertion fails, other than the ones that compare with a scan of the
strings. -/
def sampleSortLcp (m : Memory S) : Option (Memory S) :=
  if strptr.flipped then none
  else
    (firstNonEmpty ss cls strptr get_splitter depth bktnum bkt m (bktnum + 2) true 0).bind
    fun (b, prevkey) =>
    let b := b + 1
    nextNonEmpty ss cls strptr get_splitter depth bktnum bkt (bktnum + 2)
      (decide (b < bktnum ∧ b % 2 = 0)) b prevkey m

end Model

/-! ## The input -/

section Input

/-- The boundaries of `bktnum` buckets of `n` strings. -/
structure BucketBoundaries (bktnum n : ℕ) (bkt : ℕ → ℕ) : Prop where
  odd : bktnum % 2 = 1
  first : bkt 0 = 0
  last : bkt bktnum = n
  le : ∀ b < bktnum, bkt b ≤ bkt (b + 1)

/-- The first place of a non-empty bucket other than the first one. -/
def IsBoundary (bktnum : ℕ) (bkt : ℕ → ℕ) (i : ℕ) : Prop :=
  ∃ b < bktnum, bkt b = i ∧ bkt b < bkt (b + 1) ∧ ∃ a < b, bkt a < bkt (a + 1)

/-- The first place of a non-empty bucket from `b` on. -/
def IsBoundaryFrom (bktnum : ℕ) (bkt : ℕ → ℕ) (b i : ℕ) : Prop :=
  ∃ c, b ≤ c ∧ c < bktnum ∧ bkt c = i ∧ bkt c < bkt (c + 1)

variable {bktnum n : ℕ} {bkt : ℕ → ℕ}

theorem isBoundaryFrom_of_empty {b i : ℕ} (hempty : bkt b = bkt (b + 1)) :
    IsBoundaryFrom bktnum bkt b i ↔ IsBoundaryFrom bktnum bkt (b + 1) i := by
  constructor
  · rintro ⟨c, hbc, hc, hi, hne⟩
    rcases eq_or_lt_of_le hbc with rfl | hbc
    · exact absurd hempty hne.ne
    · exact ⟨c, hbc, hc, hi, hne⟩
  · rintro ⟨c, hbc, hc, hi, hne⟩
    exact ⟨c, by omega, hc, hi, hne⟩

theorem isBoundaryFrom_iff {b i : ℕ} (hb : b < bktnum) (hne : bkt b < bkt (b + 1)) :
    IsBoundaryFrom bktnum bkt b i ↔ i = bkt b ∨ IsBoundaryFrom bktnum bkt (b + 1) i := by
  constructor
  · rintro ⟨c, hbc, hc, hi, hc'⟩
    rcases eq_or_lt_of_le hbc with rfl | hbc
    · exact Or.inl hi.symm
    · exact Or.inr ⟨c, hbc, hc, hi, hc'⟩
  · rintro (rfl | ⟨c, hbc, hc, hi, hc'⟩)
    · exact ⟨b, le_refl _, hb, rfl, hne⟩
    · exact ⟨c, by omega, hc, hi, hc'⟩

/-- Behind the first non-empty bucket, every non-empty bucket starts at a boundary. -/
theorem isBoundary_iff {b i : ℕ} (hempty : ∀ a < b, bkt a = bkt (a + 1))
    (hb : b < bktnum → bkt b < bkt (b + 1)) :
    IsBoundary bktnum bkt i ↔ IsBoundaryFrom bktnum bkt (b + 1) i := by
  constructor
  · rintro ⟨c, hc, hi, hne, a, hac, ha⟩
    refine ⟨c, ?_, hc, hi, hne⟩
    by_contra hcb
    have := hempty a (by omega)
    omega
  · rintro ⟨c, hbc, hc, hi, hne⟩
    exact ⟨c, hc, hi, hne, b, by omega, hb (by omega)⟩

namespace BucketBoundaries

variable (h : BucketBoundaries bktnum n bkt)
include h

theorem mono {b c : ℕ} (hbc : b ≤ c) (hc : c ≤ bktnum) : bkt b ≤ bkt c := by
  induction c, hbc using Nat.le_induction with
  | base => exact le_refl _
  | succ c _ ih => exact (ih (by omega)).trans (h.le c (by omega))

theorem le_size {b : ℕ} (hb : b ≤ bktnum) : bkt b ≤ n := by
  rw [← h.last]
  exact h.mono hb (le_refl _)

/-- Later buckets start behind a non-empty one. -/
theorem not_isBoundaryFrom {b : ℕ} (hne : bkt b < bkt (b + 1)) :
    ¬ IsBoundaryFrom bktnum bkt (b + 1) (bkt b) := by
  rintro ⟨c, hbc, hc, hi, -⟩
  have := h.mono hbc hc.le
  omega

/-- A boundary has a string in front of it. -/
theorem isBoundary_bounds {i : ℕ} (hi : IsBoundary bktnum bkt i) : 0 < i ∧ i < n := by
  obtain ⟨b, hb, rfl, hne, a, hab, ha⟩ := hi
  have h₁ : bkt (a + 1) ≤ bkt b := h.mono hab (by omega)
  have h₂ := h.le_size (Nat.succ_le_of_lt hb)
  exact ⟨by omega, lt_of_lt_of_le hne h₂⟩

end BucketBoundaries

/-- The strings lie in the buckets of their keys, and the splitters are the keys of the odd
buckets. -/
structure InBuckets (bucketOf : KeyType → ℕ) (get_splitter : ℕ → Option KeyType) (bktnum : ℕ)
    (bkt : ℕ → ℕ) (key : ℕ → KeyType) : Prop where
  bucketOf_eq : ∀ b < bktnum, ∀ i, bkt b ≤ i → i < bkt (b + 1) → bucketOf (key i) = b
  splitter : ∀ j, 2 * j + 1 < bktnum → ∀ k, bucketOf k = 2 * j + 1 → get_splitter j = some k

namespace InBuckets

variable {bucketOf : KeyType → ℕ} {get_splitter : ℕ → Option KeyType} {key : ℕ → KeyType}
variable (h : InBuckets bucketOf get_splitter bktnum bkt key)
include h

/-- The splitter of an odd bucket is the key of each of its strings. -/
theorem splitter_eq {b i : ℕ} (hb : b < bktnum) (hodd : b % 2 ≠ 0) (h₁ : bkt b ≤ i)
    (h₂ : i < bkt (b + 1)) : get_splitter (b / 2) = some (key i) :=
  h.splitter _ (by omega) _ (by rw [h.bucketOf_eq b hb i h₁ h₂]; omega)

/-- The keys on both sides of a boundary differ. -/
theorem key_ne (hbkt : BucketBoundaries bktnum n bkt) {i : ℕ} (hi : IsBoundary bktnum bkt i) :
    key (i - 1) ≠ key i := by
  obtain ⟨hpos, -⟩ := hbkt.isBoundary_bounds hi
  obtain ⟨b, hb, rfl, hne, -⟩ := hi
  intro heq
  -- the string in front of the boundary lies in the last non-empty bucket before it
  have hbefore : ∃ a < b, bkt a ≤ bkt b - 1 ∧ bkt b - 1 < bkt (a + 1) := by
    clear heq hne
    induction b with
    | zero => exact absurd hbkt.first hpos.ne'
    | succ b ih =>
      by_cases hempty : bkt b = bkt (b + 1)
      · obtain ⟨a, ha, h₁, h₂⟩ := ih (by omega) (by omega)
        exact ⟨a, by omega, by omega, by omega⟩
      · have := hbkt.le b (by omega)
        exact ⟨b, Nat.lt_succ_self b, by omega, by omega⟩
  obtain ⟨a, hab, h₁, h₂⟩ := hbefore
  have ha := h.bucketOf_eq a (by omega) _ h₁ h₂
  rw [heq, h.bucketOf_eq b hb _ (le_refl _) hne] at ha
  omega

end InBuckets

end Input

/-! ## The loops -/

section Loops

variable {S : Type} {ss : StringSet S} {cls : StringPtrClass} {strptr : StringPtr}
  {get_splitter : ℕ → Option KeyType} {depth bktnum : ℕ} {bkt : ℕ → ℕ}

/-- Entries of the places `P` have been written, and nothing else. -/
structure EntriesWritten (cls : StringPtrClass) (strptr : StringPtr) (P : ℕ → Prop) (lcp : ℕ → ℕ)
    (char : ℕ → CharType) (m m' : Memory S) : Prop where
  strings : m'.strings = m.strings
  lcp_at : ∀ i, P i → m'.lcps (strptr.lcps + i) = lcp i
  cache_at : cls.hasCache = true → ∀ i, P i → m'.cache (strptr.cache + i) = char i
  lcp_other : ∀ k, (∀ i, P i → k ≠ strptr.lcps + i) → m'.lcps k = m.lcps k
  cache_other : ∀ k, (cls.hasCache = true → ∀ i, P i → k ≠ strptr.cache + i) →
    m'.cache k = m.cache k

theorem EntriesWritten.refl {P : ℕ → Prop} (hP : ∀ i, ¬ P i) (lcp : ℕ → ℕ) (char : ℕ → CharType)
    (m : Memory S) : EntriesWritten cls strptr P lcp char m m where
  strings := rfl
  lcp_at i hi := absurd hi (hP i)
  cache_at _ i hi := absurd hi (hP i)
  lcp_other _ _ := rfl
  cache_other _ _ := rfl

section Entry

variable (cls strptr) (i v : ℕ) (c : CharType) (m : Memory S)

/-- The memory after `set_lcp(i, v)` and `set_cache(i, c)`. -/
def entrySet : Memory S := cls.setCache strptr i c (cls.setLcp strptr i v m)

theorem entrySet_strings : (entrySet cls strptr i v c m).strings = m.strings := by
  simp only [entrySet, StringPtrClass.setCache, StringPtrClass.setLcp]
  split <;> split <;> rfl

theorem entrySet_lcps (hlcp : cls.withLcp = true) :
    (entrySet cls strptr i v c m).lcps = Function.update m.lcps (strptr.lcps + i) v := by
  simp only [entrySet, StringPtrClass.setCache, StringPtrClass.setLcp, hlcp, if_true]
  split <;> rfl

theorem entrySet_cache : (entrySet cls strptr i v c m).cache =
    if cls.hasCache then Function.update m.cache (strptr.cache + i) c else m.cache := by
  simp only [entrySet, StringPtrClass.setCache, StringPtrClass.setLcp]
  split <;> split <;> rfl

theorem setEntry_of_lt (hpos : 0 < i) (hi : i < strptr.size) :
    setEntry cls strptr i v c m = some (entrySet cls strptr i v c m) := if_pos ⟨hpos, hi⟩

end Entry

/-- An entry is written, then entries of other places. -/
theorem EntriesWritten.cons (hlcp : cls.withLcp = true) {P Q : ℕ → Prop} {lcp : ℕ → ℕ}
    {char : ℕ → CharType} {i : ℕ} {m m' : Memory S} (hP : ¬ P i) (hQ : ∀ k, Q k ↔ k = i ∨ P k)
    (h : EntriesWritten cls strptr P lcp char (entrySet cls strptr i (lcp i) (char i) m) m') :
    EntriesWritten cls strptr Q lcp char m m' := by
  have hother : ∀ a k, P k → a + i ≠ a + k := fun a k hk he =>
    hP (by rwa [Nat.add_left_cancel he])
  have hi : Q i := (hQ i).mpr (Or.inl rfl)
  have hPQ : ∀ k, P k → Q k := fun k hk => (hQ k).mpr (Or.inr hk)
  refine ⟨h.strings.trans (entrySet_strings ..), fun k hk => ?_, fun hcache k hk => ?_,
    fun k hk => ?_, fun k hk => ?_⟩
  · rcases (hQ k).mp hk with rfl | hk
    · rw [h.lcp_other _ (hother _), entrySet_lcps _ _ _ _ _ _ hlcp, Function.update_self]
    · exact h.lcp_at k hk
  · rcases (hQ k).mp hk with rfl | hk
    · rw [h.cache_other _ fun _ => hother _, entrySet_cache, if_pos hcache, Function.update_self]
    · exact h.cache_at hcache k hk
  · rw [h.lcp_other k fun j hj => hk j (hPQ j hj), entrySet_lcps _ _ _ _ _ _ hlcp,
      Function.update_of_ne (hk i hi)]
  · rw [h.cache_other k fun hcache j hj => hk hcache j (hPQ j hj), entrySet_cache]
    split
    · next hcache => exact Function.update_of_ne (hk hcache i hi) _ _
    · rfl

/-- The same places in other words. -/
theorem EntriesWritten.congr {P Q : ℕ → Prop} {lcp : ℕ → ℕ} {char : ℕ → CharType}
    {m m' : Memory S} (hPQ : ∀ i, P i ↔ Q i) (h : EntriesWritten cls strptr P lcp char m m') :
    EntriesWritten cls strptr Q lcp char m m' := by
  rwa [← show P = Q from funext fun i => propext (hPQ i)]

theorem bucketBounds_of_lt {b : ℕ} (hb : b < bktnum) :
    bucketBounds bktnum bkt b = some (bkt b, bkt (b + 1)) := by
  rw [bucketBounds, readAt_of_lt _ (by omega), readAt_of_lt _ (by omega)]
  rfl

theorem keyOfString_of_lt {m : Memory S} {i : ℕ} (hi : i < strptr.size) :
    keyOfString ss cls strptr depth m i =
      some (getUint64 ss ((cls.output strptr).get m i) depth) := by
  rw [keyOfString, readAt_of_lt _ hi]
  rfl

/-- The key of an output string. -/
def outputKey (ss : StringSet S) (cls : StringPtrClass) (strptr : StringPtr) (depth : ℕ)
    (m : Memory S) (i : ℕ) : KeyType :=
  getUint64 ss ((cls.output strptr).get m i) depth

/-- The LCP that the keys show at a place. -/
def keyLcp (key : ℕ → KeyType) (depth i : ℕ) : ℕ := depth + lcpKeyType (key (i - 1)) (key i)

/-- The character behind this LCP that the key shows. -/
def keyChar (key : ℕ → KeyType) (i : ℕ) : CharType :=
  getCharAtDepth (key i) (lcpKeyType (key (i - 1)) (key i))

theorem outputKey_congr {m m' : Memory S} (h : m'.strings = m.strings) :
    outputKey ss cls strptr depth m' = outputKey ss cls strptr depth m := by
  funext i
  simp only [outputKey, StringRange.get, h]

variable {bucketOf : KeyType → ℕ} {m : Memory S} {key : ℕ → KeyType}

section

variable (hbkt : BucketBoundaries bktnum strptr.size bkt)
  (hkeys : InBuckets bucketOf get_splitter bktnum bkt key)
include hbkt hkeys

/-- The first loop finds the first non-empty bucket, or goes through all buckets. -/
theorem firstNonEmpty_spec (hkey : outputKey ss cls strptr depth m = key) {fuel b : ℕ}
    (hb : b ≤ bktnum) (hfuel : bktnum < b + fuel) (hempty : ∀ a < b, bkt a = bkt (a + 1)) :
    ∃ b' prevkey, firstNonEmpty ss cls strptr get_splitter depth bktnum bkt m fuel
        (decide (b < bktnum ∧ b % 2 = 0)) b = some (b', prevkey) ∧
      b' ≤ bktnum ∧ (∀ a < b', bkt a = bkt (a + 1)) ∧
      (b' < bktnum → bkt b' < bkt (b' + 1) ∧ prevkey = key (bkt (b' + 1) - 1)) := by
  induction fuel generalizing b with
  | zero => omega
  | succ fuel ih =>
    have hodd := hbkt.odd
    by_cases hlt : b < bktnum
    · have hle := hbkt.le b hlt
      have hsize : bkt (b + 1) ≤ strptr.size := hbkt.le_size (Nat.succ_le_of_lt hlt)
      rw [firstNonEmpty, if_pos (by simp [hlt]), bucketBounds_of_lt hlt, Option.bind_some]
      dsimp only
      by_cases hne : bkt b = bkt (b + 1)
      · have hflag : (!decide (b < bktnum ∧ b % 2 = 0)) =
            decide (b + 1 < bktnum ∧ (b + 1) % 2 = 0) := by
          rw [← decide_not, decide_eq_decide]
          omega
        rw [if_neg (not_not.mpr hne), hflag]
        refine ih (by omega) (by omega) fun a ha => ?_
        rcases Nat.lt_succ_iff_lt_or_eq.mp ha with ha | rfl
        · exact hempty a ha
        · exact hne
      · have hlast : keyOfString ss cls strptr depth m (bkt (b + 1) - 1) =
            some (key (bkt (b + 1) - 1)) := by
          rw [keyOfString_of_lt (by omega), ← hkey]
          rfl
        refine ⟨b, key (bkt (b + 1) - 1), ?_, by omega, hempty, fun _ => ⟨by omega, rfl⟩⟩
        rw [if_pos hne, subtract_of_le (by omega), Option.bind_some, hlast, Option.bind_some]
        split
        · rfl
        · next hpar =>
          rw [hkeys.splitter_eq hlt (by simpa [hlt] using hpar)
            (show bkt b ≤ bkt (b + 1) - 1 by omega) (by omega), Option.bind_some, if_pos rfl]
    · refine ⟨b, 0, ?_, hb, hempty, fun h => absurd h hlt⟩
      rw [firstNonEmpty, if_neg (by simp [hlt])]

/-- The second loop writes the entries of all non-empty buckets that are left. -/
theorem nextNonEmpty_spec (hlcp : cls.withLcp = true)
    (hkey : outputKey ss cls strptr depth m = key) {fuel b : ℕ} {prevkey : KeyType}
    (hb : b ≤ bktnum + 1) (hfuel : bktnum + 1 < b + fuel)
    (hprev : b < bktnum → 0 < bkt b ∧ prevkey = key (bkt b - 1)) :
    ∃ m', nextNonEmpty ss cls strptr get_splitter depth bktnum bkt fuel
        (decide (b < bktnum ∧ b % 2 = 0)) b prevkey m = some m' ∧
      EntriesWritten cls strptr (IsBoundaryFrom bktnum bkt b) (keyLcp key depth) (keyChar key)
        m m' := by
  induction fuel generalizing b prevkey m with
  | zero => omega
  | succ fuel ih =>
    have hodd := hbkt.odd
    by_cases hlt : b < bktnum
    · have hle := hbkt.le b hlt
      have hsize : bkt (b + 1) ≤ strptr.size := hbkt.le_size (Nat.succ_le_of_lt hlt)
      obtain ⟨hpos, rfl⟩ := hprev hlt
      have hflag : (!decide (b < bktnum ∧ b % 2 = 0)) =
          decide (b + 1 < bktnum ∧ (b + 1) % 2 = 0) := by
        rw [← decide_not, decide_eq_decide]
        omega
      rw [nextNonEmpty, if_pos (by simp [hlt]), bucketBounds_of_lt hlt, Option.bind_some, hflag]
      dsimp only
      by_cases hne : bkt b = bkt (b + 1)
      · rw [if_neg (not_not.mpr hne)]
        have hprev' : b + 1 < bktnum → 0 < bkt (b + 1) ∧ key (bkt b - 1) = key (bkt (b + 1) - 1) :=
          fun _ => ⟨by omega, by rw [hne]⟩
        obtain ⟨m', hrun, hw⟩ := ih hkey (by omega) (by omega) hprev'
        refine ⟨m', hrun, hw.congr fun i => ?_⟩
        exact (isBoundaryFrom_of_empty hne).symm
      · have hkeyAt : ∀ i, i < strptr.size → keyOfString ss cls strptr depth m i = some (key i) :=
          fun i hi => by rw [keyOfString_of_lt hi, ← hkey]; rfl
        rw [if_pos hne, hkeyAt _ (by omega), Option.bind_some, subtract_of_le (by omega),
          Option.bind_some, hkeyAt _ (by omega), Option.bind_some]
        -- in an odd bucket the splitter is the key of the first and of the last string
        have hthis : (if decide (b < bktnum ∧ b % 2 = 0) = true then
            some (key (bkt b), key (bkt (b + 1) - 1))
          else (get_splitter (b / 2)).bind fun thiskey =>
            if thiskey = key (bkt b) ∧ thiskey = key (bkt (b + 1) - 1) then
              some (thiskey, thiskey) else none) =
            some (key (bkt b), key (bkt (b + 1) - 1)) := by
          split
          · rfl
          · next hpar =>
            have hb₂ : b % 2 ≠ 0 := by simpa [hlt] using hpar
            have hfirst := hkeys.splitter_eq hlt hb₂ (le_refl _) (by omega)
            have hlast := hkeys.splitter_eq hlt hb₂
              (show bkt b ≤ bkt (b + 1) - 1 by omega) (by omega)
            have heq : key (bkt b) = key (bkt (b + 1) - 1) :=
              Option.some_inj.mp (hfirst.symm.trans hlast)
            rw [hfirst, Option.bind_some, if_pos ⟨rfl, heq⟩, ← heq]
        rw [hthis, Option.bind_some, setEntry_of_lt _ _ _ _ _ _ hpos (by omega),
          Option.bind_some]
        have hprev' : b + 1 < bktnum →
            0 < bkt (b + 1) ∧ key (bkt (b + 1) - 1) = key (bkt (b + 1) - 1) :=
          fun _ => ⟨by omega, rfl⟩
        have hkey' : outputKey ss cls strptr depth (entrySet cls strptr (bkt b)
            (keyLcp key depth (bkt b)) (keyChar key (bkt b)) m) = key := by
          rw [← hkey]
          exact outputKey_congr (entrySet_strings ..)
        obtain ⟨m', hrun, hw⟩ := ih hkey' (by omega) (by omega) hprev'
        exact ⟨m', hrun, hw.cons hlcp (hbkt.not_isBoundaryFrom (by omega))
          fun k => isBoundaryFrom_iff hlt (by omega)⟩
    · refine ⟨m, ?_, .refl (fun i hi => ?_) _ _ m⟩
      · rw [nextNonEmpty, if_neg (by simp [hlt])]
      · obtain ⟨c, hc, hc', -⟩ := hi
        omega

/-- Entries computed from the keys are written at all boundaries. -/
theorem sampleSortLcp_spec (hlcp : cls.withLcp = true) (hflip : strptr.flipped = false)
    (hkey : outputKey ss cls strptr depth m = key) :
    ∃ m', sampleSortLcp ss cls strptr get_splitter depth bktnum bkt m = some m' ∧
      EntriesWritten cls strptr (IsBoundary bktnum bkt) (keyLcp key depth) (keyChar key) m m' := by
  have hodd := hbkt.odd
  obtain ⟨b, prevkey, hfirst, hb, hempty, hne⟩ := firstNonEmpty_spec hbkt hkeys hkey
    (Nat.zero_le _) (show bktnum < 0 + (bktnum + 2) by omega) fun a ha => absurd ha (Nat.not_lt_zero a)
  have hprev : b + 1 < bktnum → 0 < bkt (b + 1) ∧ prevkey = key (bkt (b + 1) - 1) := by
    intro hlt
    obtain ⟨h, hprev⟩ := hne (by omega)
    exact ⟨by omega, hprev⟩
  obtain ⟨m', hrun, hw⟩ := nextNonEmpty_spec hbkt hkeys hlcp hkey (by omega)
    (show bktnum + 1 < b + 1 + (bktnum + 2) by omega) hprev
  refine ⟨m', ?_, hw.congr fun i => (isBoundary_iff hempty fun h => (hne h).1).symm⟩
  have hstart : decide (0 < bktnum ∧ 0 % 2 = 0) = true := by
    rw [decide_eq_true_eq]
    omega
  rw [hstart] at hfirst
  rw [sampleSortLcp, hflip, if_neg Bool.false_ne_true, hfirst, Option.bind_some]
  exact hrun

end

end Loops

/-! ## What the keys show -/

section Keys

variable {S : Type} {ss : StringSet S}

/-- Byte `k` of the key of a string: its character there, zero behind its end.  A signed `Char`
overwrites it when a later one of the eight characters is `≥ 0x80`. -/
def keyByte (ss : StringSet S) (s : S) (depth k : ℕ) : ℕ :=
  if ss.signedChar = true ∧ k < lastHigh (keyWindow ss s depth) then 255
  else ((ss.chars s).getD (depth + k) 0).toNat

/-- The keys of two strings show where the strings first differ: their bytes agree in front of this
place and differ there.  For a class with a cache, the byte of the second one is its character. -/
structure BoundaryShown (ss : StringSet S) (cls : StringPtrClass) (a b : S) (depth : ℕ) : Prop where
  before : ∀ k, depth + k < lcpLen (ss.chars a) (ss.chars b) →
    keyByte ss a depth k = keyByte ss b depth k
  differ : let p := lcpLen (ss.chars a) (ss.chars b) - depth
    keyByte ss a depth p ≠ keyByte ss b depth p
  character : cls.hasCache = true → let p := lcpLen (ss.chars a) (ss.chars b)
    keyByte ss b depth (p - depth) = ((ss.chars b).getD p 0).toNat

theorem getElem?_smear {w : List ℕ} {k : ℕ} (hk : k < w.length) :
    (smear w)[k]? = if k < lastHigh w then some 255 else w[k]? := by
  induction w generalizing k with
  | nil => exact absurd hk (Nat.not_lt_zero k)
  | cons b t ih =>
    by_cases h : anyHigh t = true
    · cases k with
      | zero => simp [smear, lastHigh, h]
      | succ k => simpa [smear, lastHigh, h] using ih (by simpa using hk)
    · rw [Bool.not_eq_true] at h
      simp [smear, lastHigh, h, smear_of_not_anyHigh h]

/-- The bytes of a key. -/
theorem getElem?_keyBytes (s : S) (depth : ℕ) {k : ℕ} (hk : k < 8) :
    (keyBytes ss.signedChar (keyWindow ss s depth))[k]? = some (keyByte ss s depth k) := by
  have hw : (keyWindow ss s depth)[k]? = some ((ss.chars s).getD (depth + k) 0).toNat := by
    rw [keyWindow, window_getElem? _ hk, List.getElem?_drop, List.getD_eq_getElem?_getD]
    cases (ss.chars s)[depth + k]? <;> rfl
  rw [keyBytes, keyByte]
  cases hsg : ss.signedChar with
  | false => simpa using hw
  | true =>
    rw [if_pos rfl, getElem?_smear (by simpa [keyWindow] using hk), hw]
    split <;> simp_all

variable {a b : S} {depth : ℕ}

/-- Different keys agree in front of the place that `lcpKeyType` finds, and differ there. -/
theorem lcpKeyType_spec (h : ss.Lawful) (ha : depth ≤ ss.length a) (hb : depth ≤ ss.length b)
    (hne : getUint64 ss a depth ≠ getUint64 ss b depth) :
    let r := lcpKeyType (getUint64 ss a depth) (getUint64 ss b depth)
    (∀ k < r, keyByte ss a depth k = keyByte ss b depth k) ∧
      keyByte ss a depth r ≠ keyByte ss b depth r ∧
      (getCharAtDepth (getUint64 ss b depth) r).toNat = keyByte ss b depth r := by
  intro r
  have hu := isKey_getUint64 h a depth ha
  have hv := isKey_getUint64 h b depth hb
  have hr := lcpKeyType_eq hu hv
  obtain ⟨hr₁, -, htake, hend⟩ := (lcpLen_eq_iff _ _ r).mp hr.symm
  have hr₈ : r < 8 := by
    refine lt_of_le_of_ne (by rwa [hu.length_eq] at hr₁) fun h₈ => hne ?_
    rw [h₈, List.take_of_length_le hu.length_eq.le, List.take_of_length_le hv.length_eq.le]
      at htake
    rw [← BitVec.toNat_inj, hu.value, hv.value, htake]
  rw [hu.length_eq, hv.length_eq] at hend
  have hbytes : ∀ s k, k < 8 → (keyBytes ss.signedChar (window 8 ((ss.chars s).drop depth)))[k]? =
      some (keyByte ss s depth k) := fun s k hk => getElem?_keyBytes s depth hk
  refine ⟨fun k hk => ?_, fun heq => ?_, ?_⟩
  · have := congrArg (fun l => l[k]?) htake
    simpa only [List.getElem?_take_of_lt hk, hbytes _ k (by omega), Option.some_inj] using this
  · have hdiff := (hend.resolve_left hr₈.ne).resolve_left hr₈.ne
    rw [hbytes a r hr₈, hbytes b r hr₈, heq] at hdiff
    exact hdiff rfl
  · rw [← Option.some_inj, getCharAtDepth_toNat hv hr₈, hbytes b r hr₈]

/-- When the entry that is computed from the keys is right. -/
theorem boundaryShown_iff (h : ss.Lawful) (cls : StringPtrClass)
    (hshare : SharePrefix depth (ss.chars a) (ss.chars b))
    (hne : getUint64 ss a depth ≠ getUint64 ss b depth) :
    let r := lcpKeyType (getUint64 ss a depth) (getUint64 ss b depth)
    let p := lcpLen (ss.chars a) (ss.chars b)
    (depth + r = p ∧ (cls.hasCache = true →
        getCharAtDepth (getUint64 ss b depth) r = (ss.chars b).getD p 0)) ↔
      BoundaryShown ss cls a b depth := by
  intro r p
  have hp : depth ≤ p := SharePrefix.iff_le_lcpLen.mp hshare
  obtain ⟨hbefore, hdiffer, hchar⟩ := lcpKeyType_spec h (by simpa using hshare.left)
    (by simpa using hshare.right) hne
  constructor
  · rintro ⟨hr, hcache⟩
    have hr' : p - depth = r := by omega
    refine ⟨fun k hk => hbefore k (by omega), ?_, fun hc => ?_⟩
    · show keyByte ss a depth (p - depth) ≠ keyByte ss b depth (p - depth)
      rwa [hr']
    · show keyByte ss b depth (p - depth) = ((ss.chars b).getD p 0).toNat
      rw [hr', ← hchar, hcache hc]
  · rintro ⟨hb, hd, hc⟩
    have hr : p - depth = r := by
      rcases lt_trichotomy (p - depth) r with hlt | heq | hgt
      · exact absurd (hbefore _ hlt) hd
      · exact heq
      · exact absurd (hb r (by omega)) hdiffer
    refine ⟨by omega, fun hcache => ?_⟩
    rw [← BitVec.toNat_inj]
    exact hchar.trans ((congrArg (keyByte ss b depth) hr).symm.trans (hc hcache))

end Keys

/-! ## The function -/

section Exact

variable {S : Type} {ss : StringSet S} {cls : StringPtrClass} {strptr : StringPtr}
  {get_splitter : ℕ → Option KeyType} {depth bktnum : ℕ} {bkt : ℕ → ℕ} {bucketOf : KeyType → ℕ}

/-- LCP of the output strings at places `i - 1` and `i`. -/
def outputLcp (ss : StringSet S) (out : ℕ → S) (i : ℕ) : ℕ :=
  lcpLen (ss.chars (out (i - 1))) (ss.chars (out i))

/-- The character of the latter string at this position, zero at its end. -/
def outputChar (ss : StringSet S) (out : ℕ → S) (i : ℕ) : CharType :=
  (ss.chars (out i)).getD (outputLcp ss out i) 0

/-- `sample_sort_lcp` ends within bounds and writes entries for all non-empty buckets except the
first one, and no others.  They are LCPs and characters exactly when the keys show them. -/
theorem sampleSortLcp_exact_iff (hset : StringSetOf ss) (hlcp : cls.withLcp = true)
    (hflip : strptr.flipped = false) (m : Memory S)
    (hbkt : BucketBoundaries bktnum strptr.size bkt)
    (hshare : SharesDepth ss.chars ((cls.output strptr).get m) strptr.size depth)
    (hkeys : InBuckets bucketOf get_splitter bktnum bkt
      fun i => getUint64 ss ((cls.output strptr).get m i) depth) :
    let out := (cls.output strptr).get m
    ∃ m', sampleSortLcp ss cls strptr get_splitter depth bktnum bkt m = some m' ∧
      (∃ lcp char, EntriesWritten cls strptr (IsBoundary bktnum bkt) lcp char m m') ∧
      (EntriesWritten cls strptr (IsBoundary bktnum bkt) (outputLcp ss out) (outputChar ss out)
          m m' ↔
        ∀ i, IsBoundary bktnum bkt i → BoundaryShown ss cls (out (i - 1)) (out i) depth) := by
  intro out
  obtain ⟨m', hrun, hw⟩ := sampleSortLcp_spec (m := m) hbkt hkeys hlcp hflip rfl
  refine ⟨m', hrun, ⟨_, _, hw⟩, ?_⟩
  have hshown : ∀ i, IsBoundary bktnum bkt i →
      (keyLcp (fun i => getUint64 ss (out i) depth) depth i = outputLcp ss out i ∧
        (cls.hasCache = true → keyChar (fun i => getUint64 ss (out i) depth) i =
          outputChar ss out i) ↔ BoundaryShown ss cls (out (i - 1)) (out i) depth) := by
    intro i hi
    obtain ⟨hpos, hlt⟩ := hbkt.isBoundary_bounds hi
    exact boundaryShown_iff hset.lawful cls (hshare _ (by omega) _ hlt) (hkeys.key_ne hbkt hi)
  constructor
  · intro hexact i hi
    refine (hshown i hi).mp ⟨?_, fun hcache => ?_⟩
    · rw [← hw.lcp_at i hi, hexact.lcp_at i hi]
    · rw [← hw.cache_at hcache i hi, hexact.cache_at hcache i hi]
  · intro hall
    have hright := fun i hi => (hshown i hi).mpr (hall i hi)
    exact ⟨hw.strings, fun i hi => (hw.lcp_at i hi).trans (hright i hi).1,
      fun hcache i hi => (hw.cache_at hcache i hi).trans ((hright i hi).2 hcache),
      hw.lcp_other, hw.cache_other⟩

/-- For sets that can be sorted the keys show all boundaries. -/
theorem StringSet.Sortable.boundaryShown (h : ss.Sortable) (cls : StringPtrClass) {a b : S}
    (hshare : SharePrefix depth (ss.chars a) (ss.chars b))
    (hne : getUint64 ss a depth ≠ getUint64 ss b depth) : BoundaryShown ss cls a b depth := by
  have ha := h.key_eq a depth (by simpa using hshare.left)
  have hb := h.key_eq b depth (by simpa using hshare.right)
  obtain ⟨hlcp, hchar⟩ := lcp_of_keys h hshare rfl rfl (by rwa [← ha, ← hb])
  refine (boundaryShown_iff h.lawful cls hshare hne).mp ⟨?_, fun _ => ?_⟩
  · rw [ha, hb, hlcp]
  · rw [ha, hb, hlcp, hchar]

/-- There `sample_sort_lcp` is exact. -/
theorem sampleSortLcp_of_sortable (h : ss.Sortable) (hset : StringSetOf ss)
    (hlcp : cls.withLcp = true) (hflip : strptr.flipped = false) (m : Memory S)
    (hbkt : BucketBoundaries bktnum strptr.size bkt)
    (hshare : SharesDepth ss.chars ((cls.output strptr).get m) strptr.size depth)
    (hkeys : InBuckets bucketOf get_splitter bktnum bkt
      fun i => getUint64 ss ((cls.output strptr).get m i) depth) :
    ∃ m', sampleSortLcp ss cls strptr get_splitter depth bktnum bkt m = some m' ∧
      EntriesWritten cls strptr (IsBoundary bktnum bkt) (outputLcp ss ((cls.output strptr).get m))
        (outputChar ss ((cls.output strptr).get m)) m m' := by
  obtain ⟨m', hrun, -, hexact⟩ := sampleSortLcp_exact_iff hset hlcp hflip m hbkt hshare hkeys
  refine ⟨m', hrun, hexact.mpr fun i hi => ?_⟩
  obtain ⟨hpos, hlt⟩ := hbkt.isBoundary_bounds hi
  exact h.boundaryShown cls (hshare _ (by omega) _ hlt) (hkeys.key_ne hbkt hi)

end Exact

/-! ## Two strings -/

section TwoStrings

/-- Two strings in the original array. -/
private def twoStrings (a b : StdString) : Memory StdString where
  strings _ i := if i = 0 then a else b
  lcps _ := 0
  cache _ := 0

/-- An empty bucket and two buckets of one string. -/
private def oneEach (b : ℕ) : ℕ := b - 1

/-- The buckets of a single splitter. -/
private def splitBy (splitter key : KeyType) : ℕ :=
  if key < splitter then 0 else if key = splitter then 1 else 2

private theorem boundaries_oneEach : BucketBoundaries 3 2 oneEach where
  odd := rfl
  first := rfl
  last := rfl
  le _ _ := Nat.sub_le_sub_right (Nat.le_succ _) 1

/-- The smaller key is the splitter. -/
private theorem inBuckets_oneEach {key : ℕ → KeyType} (h : key 0 < key 1) :
    InBuckets (splitBy (key 0)) (fun _ => some (key 0)) 3 oneEach key where
  bucketOf_eq b hb i h₁ h₂ := by
    simp only [oneEach] at h₁ h₂
    obtain ⟨rfl, rfl⟩ | ⟨rfl, rfl⟩ : b = 1 ∧ i = 0 ∨ b = 2 ∧ i = 1 := by omega
    · simp [splitBy]
    · simp [splitBy, h.not_gt, h.ne']
  splitter j _ k hk := by
    have : k = key 0 := by
      by_contra hne
      simp only [splitBy, hne, if_false] at hk
      split at hk <;> omega
    rw [this]

/-- The strings `"a"` and `"b"`. -/
theorem sampleSortLcp_exact_iff_twoStrings :
    let ss := VectorStringSet fun i => [97, 98].getD i 0
    let cls := StringPtrClass.StringShadowLcpPtr
    let m := twoStrings ⟨0, 1⟩ ⟨1, 1⟩
    let out := (cls.output (cls.pointer false 0 2)).get m
    ∃ m', sampleSortLcp ss cls (cls.pointer false 0 2) (fun _ => some 0x6100000000000000#64) 0 3
        oneEach m = some m' ∧
      (∃ lcp char, EntriesWritten cls (cls.pointer false 0 2) (IsBoundary 3 oneEach) lcp char m m') ∧
      (EntriesWritten cls (cls.pointer false 0 2) (IsBoundary 3 oneEach) (outputLcp ss out)
          (outputChar ss out) m m' ↔
        ∀ i, IsBoundary 3 oneEach i → BoundaryShown ss cls (out (i - 1)) (out i) 0) :=
  sampleSortLcp_exact_iff (.vectorStringSet _) rfl rfl _ boundaries_oneEach
    (fun _ _ _ _ => SharePrefix.zero _ _)
    (@inBuckets_oneEach (fun i => getUint64 (VectorStringSet fun i => [97, 98].getD i 0)
      ((twoStrings ⟨0, 1⟩ ⟨1, 1⟩).strings .original (0 + i)) 0) (by decide))

/-- The strings `"xya"` and `"xyb\x80"`. -/
private def memNegative : ℕ → CharType := fun i => [120, 121, 97, 120, 121, 98, 128].getD i 0

/-- The key of `"xyb\x80"` starts with three bytes `0xFF`, so that the LCP that is written is zero
instead of two. -/
theorem sampleSortLcp_not_exact :
    let ss := VectorStringSet memNegative
    let cls := StringPtrClass.StringShadowLcpPtr
    let strptr := cls.pointer false 0 2
    let m := twoStrings ⟨0, 3⟩ ⟨3, 4⟩
    let out := (cls.output strptr).get m
    let key := fun i => getUint64 ss (out i) 0
    stringLeq ss (out 0) (out 1) = true ∧ SharesDepth ss.chars out 2 0 ∧
      BucketBoundaries 3 2 oneEach ∧
      InBuckets (splitBy (key 0)) (fun _ => some (key 0)) 3 oneEach key ∧
      ∀ m', sampleSortLcp ss cls strptr (fun _ => some (key 0)) 0 3 oneEach m = some m' →
        ¬ EntriesWritten cls strptr (IsBoundary 3 oneEach) (outputLcp ss out) (outputChar ss out)
          m m' := by
  intro ss cls strptr m out key
  refine ⟨by decide, fun _ _ _ _ => SharePrefix.zero _ _, boundaries_oneEach,
    inBuckets_oneEach (by decide), fun m' hrun hw => ?_⟩
  have hlcp := hw.lcp_at 1 ⟨2, by decide, rfl, by decide, 1, by decide, by decide⟩
  have hzero : (sampleSortLcp ss cls strptr (fun _ => some (key 0)) 0 3 oneEach m).map
      (fun m => m.lcps 1) = some 0 := by decide
  rw [hrun, Option.map_some, Option.some_inj] at hzero
  exact absurd (hzero.symm.trans hlcp) (by decide)

end TwoStrings

end StringSampleSort
