import StringSampleSort.Sequential.InssortBounds
import StringSampleSort.Sequential.PermuteBounds

/-!
# Radix sort within bounds

`msd_CI` of `src/sequential/bingmann-radix_sort.hpp` with its one `charcache`, which all levels of
the recursion use from its start on, and with all accesses to the cache, to the strings and to their
characters checked.

## Main results

- `fillCharcache_eq`, `countChars_eq`: the two loops that fill and count the cache
- `msdCI2RunChecked_eq`: one level stays within bounds, whatever is left in the cache
- `msdCI2Checked_eq`: so does the recursion
- `msdCI_sorts`: `msd_CI` terminates within bounds and sorts
-/

namespace StringSampleSort

open Library Slice

variable {mem : ℕ → CharType}

/-! ## Model -/

/-- `for (string* s = strings; s != strings + n; ++s, ++cc) *cc = (*s)[depth];` from place `p` on,
for a cache of `cap` characters. -/
def fillCharcache (cap n depth : ℕ) (strings : ℕ → CString mem) :
    ℕ → ℕ → (ℕ → ℕ) → Option (ℕ → ℕ)
  | 0, _, cc => some cc
  | k + 1, p, cc =>
    (readAt n strings p).bind fun s => (s.read (s.ptr + depth)).bind fun c =>
      (writeAt cap cc p c.toNat).bind (fillCharcache cap n depth strings k (p + 1))

/-- `for (cc = charcache; cc != charcache + n; ++cc) ++bkt_size[*cc];` from place `p` on. -/
def countChars (cap : ℕ) (charcache : ℕ → ℕ) : ℕ → ℕ → (ℕ → ℕ) → Option (ℕ → ℕ)
  | 0, _, bkt_size => some bkt_size
  | k + 1, p, bkt_size =>
    (readAt cap charcache p).bind fun c => (readAt 256 bkt_size c).bind fun m =>
      countChars cap charcache k (p + 1) (Function.update bkt_size c (m + 1))

/-- `msd_CI2_run(strings, charcache, n, depth)`: `bkt_size`, the strings and the cache. -/
def msdCI2RunChecked (cap : ℕ) (charcache : ℕ → ℕ) (strings : ℕ → CString mem) (n depth : ℕ) :
    Option ((ℕ → ℕ) × (ℕ → CString mem) × (ℕ → ℕ)) :=
  (fillCharcache cap n depth strings n 0 charcache).bind fun charcache =>
    (countChars cap charcache n 0 fun _ => 0).bind fun bkt_size =>
      (permuteInPlaceChecked 256 n bkt_size strings charcache).map fun a =>
        (bkt_size, a.strings, a.bktcache)

/-- The recursive calls for the buckets from `i` on, of which the first one starts at `bsum`; each
call gets the cache that the one before has left. -/
def sortBucketsWith {α γ : Type*} (sort : (ℕ → α) → ℕ → γ → Option ((ℕ → α) × γ)) (size : ℕ → ℕ) :
    ℕ → ℕ → ℕ → (ℕ → α) × γ → Option ((ℕ → α) × γ)
  | 0, _, _, r => some r
  | k + 1, i, bsum, r =>
    if size i > 1 then
      (sort (fun q => r.1 (bsum + q)) (size i) r.2).bind fun r' =>
        sortBucketsWith sort size k (i + 1) (bsum + size i) (splice r.1 bsum (size i) r'.1, r'.2)
    else sortBucketsWith sort size k (i + 1) (bsum + size i) r

/-- `msd_CI2(strings, charcache, n, depth)`, for at most `fuel` levels of recursion. -/
def msdCI2Checked (cap : ℕ) :
    ℕ → (ℕ → CString mem) → ℕ → ℕ → (ℕ → ℕ) → Option ((ℕ → CString mem) × (ℕ → ℕ))
  | 0, _, _, _, _ => none
  | fuel + 1, strings, n, depth, charcache =>
    if n < inssortThreshold then
      (inssortChecked strings (toInt n) (toInt depth)).map fun strings => (strings, charcache)
    else
      (msdCI2RunChecked cap charcache strings n depth).bind fun r =>
        sortBucketsWith (fun bsum m charcache => msdCI2Checked cap fuel bsum m (depth + 1) charcache)
          r.1 255 1 (r.1 0) r.2

/-- `msd_CI(strings, n, depth)`, with a new cache for `n` characters. -/
def msdCIChecked (fuel : ℕ) (strings : ℕ → CString mem) (n depth : ℕ) (charcache : ℕ → ℕ) :
    Option (ℕ → CString mem) :=
  (msdCI2Checked n fuel strings n depth charcache).map Prod.fst

/-! ## One level -/

section Level

variable {strings : ℕ → CString mem} {cap n depth : ℕ}

/-- The cache is filled with the characters at the depth, which no string ends before. -/
theorem fillCharcache_eq (hcap : n ≤ cap) (hlen : ∀ p < n, depth ≤ (strings p).len) {k p : ℕ}
    (hp : p + k = n) (cc : ℕ → ℕ) :
    ∃ cc', fillCharcache cap n depth strings k p cc = some cc' ∧
      (∀ q < p, cc' q = cc q) ∧ ∀ q, p ≤ q → q < n → cc' q = charAt depth (strings q) := by
  induction k generalizing p cc with
  | zero => exact ⟨cc, rfl, fun _ _ => rfl, fun q h₁ h₂ => by omega⟩
  | succ k ih =>
    have hpn : p < n := by omega
    obtain ⟨cc', heq, hbelow, habove⟩ := ih (p := p + 1) (by omega)
      (Function.update cc p (mem ((strings p).ptr + depth)).toNat)
    refine ⟨cc', ?_, fun q hq => ?_, fun q h₁ h₂ => ?_⟩
    · rw [fillCharcache, readAt_of_lt _ hpn, Option.bind_some, CString.read_eq _ (hlen p hpn),
        Option.bind_some, writeAt_of_lt _ (by omega), Option.bind_some, heq]
    · rw [hbelow q (by omega), Function.update_of_ne (by omega)]
    · rcases Nat.eq_or_lt_of_le h₁ with rfl | hlt
      · rw [hbelow p (Nat.lt_succ_self p), Function.update_self]
        rfl
      · exact habove q hlt h₂

/-- The characters are counted. -/
theorem countChars_eq (hcap : n ≤ cap) {charcache : ℕ → ℕ} (hchars : ∀ p < n, charcache p < 256)
    {k p : ℕ} (hp : p + k = n) (bkt_size : ℕ → ℕ) :
    countChars cap charcache k p bkt_size =
      some fun c => bkt_size c + (slice charcache p k).count c := by
  induction k generalizing p bkt_size with
  | zero => rfl
  | succ k ih =>
    rw [countChars, readAt_of_lt _ (by omega), Option.bind_some,
      readAt_of_lt _ (hchars p (by omega)), Option.bind_some, ih (by omega)]
    refine congrArg some (funext fun c => ?_)
    rw [Nat.add_comm k 1, Slice.slice_append, List.count_append,
      show slice charcache p 1 = [charcache p] from rfl, List.count_singleton]
    by_cases hc : charcache p = c
    · rw [hc, Function.update_self, beq_self_eq_true, if_pos rfl, Nat.add_assoc]
    · rw [Function.update_of_ne (fun h => hc h.symm), beq_false_of_ne hc, if_neg Bool.false_ne_true,
        Nat.zero_add]

/-- One level stays within bounds, and what has been left in the cache does not matter. -/
theorem msdCI2RunChecked_eq (hcap : n ≤ cap) (hlen : ∀ p < n, depth ≤ (strings p).len)
    (charcache : ℕ → ℕ) {size : ℕ → ℕ} {strings' : ℕ → CString mem}
    (h : msdCI2Run strings n depth = some (size, strings')) :
    ∃ charcache', msdCI2RunChecked cap charcache strings n depth =
      some (size, strings', charcache') := by
  obtain ⟨cc, hfill, -, hcc⟩ := fillCharcache_eq hcap hlen (Nat.zero_add n) charcache
  have hchars : ∀ p < n, cc p = charAt depth (strings p) := fun p hp => hcc p (Nat.zero_le p) hp
  have hlt : ∀ p < n, cc p < 256 := fun p hp => by
    rw [hchars p hp]
    exact (mem _).isLt
  have hcount := countChars_eq hcap hlt (Nat.zero_add n) fun _ => 0
  have hcontents : contents cc n = (contents strings n).map (charAt depth) := by
    rw [contents, contents, List.map_map]
    exact contents_congr hchars
  simp only [Slice.slice_zero, Nat.zero_add, hcontents] at hcount
  -- the pure level reads the characters instead of the cache
  have htallies := @tallies_count _ n 256 (charAt depth) strings fun p _ =>
    (mem ((strings p).ptr + depth)).isLt
  obtain ⟨a, hchecked, heq⟩ := permuteInPlaceChecked_eq (by norm_num) hchars htallies
  have hpure := permuteInPlaceFind_eq (by norm_num) hchars htallies
  have hcontents' : ∀ p < n, ((contents strings n).map (charAt depth)).getD p 0 =
      charAt depth (strings p) := fun p hp => by simp [contents, hp]
  have hpure' := permuteInPlaceFind_eq (by norm_num) hcontents' htallies
  rw [msdCI2Run, ← hpure', hpure, heq, Option.map_some, Option.some_inj] at h
  obtain ⟨rfl, rfl⟩ := Prod.mk.inj h
  refine ⟨a.bktcache, ?_⟩
  rw [msdCI2RunChecked, hfill, Option.bind_some, hcount, Option.bind_some, hchecked]
  rfl

end Level

/-! ## The recursion -/

section Recursion

/-- The buckets are sorted alike when each of them is, whatever is left in the cache. -/
theorem sortBucketsWith_eq {α γ δ : Type*} {sort : (ℕ → α) → ℕ → γ → Option ((ℕ → α) × γ)}
    {sorter : ℕ → Option ((ℕ → α) → Option ((ℕ → α) × List δ))} {size : ℕ → ℕ} {A B : ℕ → α}
    {k i : ℕ}
    (hnone : ∀ j, ¬ size j > 1 → sorter j = none)
    (hsort : ∀ j, i ≤ j → j < i + k → size j > 1 → ∃ f, sorter j = some f ∧ ∀ c, ∃ r c',
      f (fun q => A (bucketStart size j + q)) = some r ∧
        sort (fun q => A (bucketStart size j + q)) (size j) c = some (r.1, c'))
    (hrest : ∀ p, bucketStart size i ≤ p → B p = A p) (c : γ) (log : List δ) :
    ∃ r c', sortBuckets sorter size k i (bucketStart size i) (B, log) = some r ∧
      sortBucketsWith sort size k i (bucketStart size i) (B, c) = some (r.1, c') := by
  induction k generalizing i B c log with
  | zero => exact ⟨_, c, rfl, rfl⟩
  | succ k ih =>
    have hnext : ∀ j, i + 1 ≤ j → j < i + 1 + k → size j > 1 → ∃ f, sorter j = some f ∧ ∀ c, ∃ r c',
        f (fun q => A (bucketStart size j + q)) = some r ∧
          sort (fun q => A (bucketStart size j + q)) (size j) c = some (r.1, c') :=
      fun j h₁ h₂ => hsort j (by omega) (by omega)
    have hview : (fun q => B (bucketStart size i + q)) = fun q => A (bucketStart size i + q) :=
      funext fun q => hrest _ (Nat.le_add_right ..)
    rw [sortBuckets, sortBucketsWith, ← bucketStart_succ]
    by_cases hsize : size i > 1
    · obtain ⟨f, hf, hfc⟩ := hsort i (le_refl i) (by omega) hsize
      obtain ⟨r, c', hr, hc'⟩ := hfc c
      rw [if_pos hsize, hf, sortBucket, sortWindow, hview, hr, hc']
      refine ih hnext (fun p hp => ?_) c' _
      rw [bucketStart_succ] at hp
      rw [splice_of_not_in _ _ fun hin => by have := hin.2; omega]
      exact hrest p (by omega)
    · rw [if_neg hsize, hnone i hsize]
      exact ih hnext (fun p hp => hrest p ((bucketStart_mono size (Nat.le_succ i)).trans hp)) c log

variable {strings : ℕ → CString mem} {cap n depth : ℕ}

/-- All levels stay within bounds. -/
theorem msdCI2Checked_eq {fuel : ℕ} (hcap : n ≤ cap) (hfuel : 0 < fuel)
    (hlen : ∀ p < n, (strings p).len < 2 ^ 31) (hm : ∀ p < n, (strings p).len < depth + fuel)
    (hshare : SharesDepth (UCharStringSet mem).chars strings n depth) (charcache : ℕ → ℕ) :
    ∃ r charcache', msdCI2 fuel strings n depth = some r ∧
      msdCI2Checked cap fuel strings n depth charcache = some (r.1, charcache') := by
  induction fuel generalizing strings n depth charcache with
  | zero => omega
  | succ fuel ih =>
    rw [msdCI2, msdCI2Checked]
    split
    · next hsmall =>
      refine ⟨_, charcache, rfl, ?_⟩
      rcases Nat.eq_zero_or_pos n with rfl | hpos
      · rfl
      · rw [inssortChecked_eq (hsmall.trans (by decide)) (hshare.depth_lt hlen hpos) hshare]
        rfl
    · obtain ⟨size, strings', heq, hlevel⟩ := msdCI2Run_level hshare
      have hreach : ∀ p < n, depth ≤ (strings p).len := fun p hp =>
        SharePrefix.le_len (hshare p hp p hp)
      obtain ⟨charcache₁, hrun⟩ := msdCI2RunChecked_eq hcap hreach charcache heq
      have hstart : size 0 = bucketStart size 1 := by simp [bucketStart]
      rw [heq, hrun, Option.bind_some, Option.bind_some]
      dsimp only
      rw [hstart]
      refine sortBucketsWith_eq (A := strings') (fun j hj => if_neg hj) (fun j h₁ h₂ hsize => ?_)
        (fun _ _ => rfl) charcache₁ _
      refine ⟨_, if_pos hsize, fun c => ?_⟩
      obtain ⟨hleft, hrest⟩ := hlevel.levels_left h₁ (by omega) hsize hm
      have hend := hlevel.lt_size (b := j) (by omega) (MsdLevel.inWindow (k := size j - 1) (by omega))
      refine ih (by omega) hleft (fun k hk => ?_) hrest (hlevel.bucket_shares h₁ (by omega)) c
      obtain ⟨q, hq, heq'⟩ := hlevel.exists_source (by omega) hk
      rw [← heq']
      exact hlen q hq

/-- For strings that share their depth, `msd_CI` terminates, accesses its cache and its strings
within bounds, and leaves the strings sorted. -/
theorem msdCI_sorts (strings : ℕ → CString mem) {n depth : ℕ}
    (hlen : ∀ p < n, (strings p).len < 2 ^ 31)
    (hshare : SharesDepth (UCharStringSet mem).chars strings n depth) (charcache : ℕ → ℕ) :
    ∃ levels, ∀ fuel ≥ levels, ∃ sorted, msdCIChecked fuel strings n depth charcache = some sorted ∧
      (contents sorted n).Perm (contents strings n) ∧
      MonotoneIn ((UCharStringSet mem).chars ∘ sorted) 0 n := by
  have hmax : ∀ p < n, (strings p).len ≤ ((contents strings n).map CString.len).sum := fun p hp =>
    List.single_le_sum (fun _ _ => Nat.zero_le _) _
      (List.mem_map_of_mem (mem_contents.mpr ⟨p, hp, rfl⟩))
  refine ⟨((contents strings n).map CString.len).sum + 1, fun fuel hfuel => ?_⟩
  have hm : ∀ p < n, (strings p).len < depth + fuel := fun p hp => by
    have := hmax p hp
    omega
  obtain ⟨r, charcache', heq, hchecked⟩ :=
    msdCI2Checked_eq (le_refl n) (by omega) hlen hm hshare charcache
  obtain ⟨r', heq', hsorted⟩ := msdCI_spec (by omega) hlen hm hshare
  obtain rfl : r = r' := Option.some_inj.mp (heq.symm.trans heq')
  refine ⟨r.1, ?_, hsorted.perm, hsorted.sorted⟩
  rw [msdCIChecked, hchecked]
  rfl

theorem msdCI_sorts_words :
    ∃ levels, ∀ fuel ≥ levels, ∃ sorted,
      msdCIChecked fuel word 40 0 (fun _ => 0) = some sorted ∧
      (contents sorted 40).Perm (contents word 40) ∧
      MonotoneIn ((UCharStringSet wordMem).chars ∘ sorted) 0 40 :=
  msdCI_sorts word (fun _ _ => (by norm_num : 12 < 2 ^ 31))
    (fun _ _ _ _ => SharePrefix.zero _ _) fun _ => 0

end Recursion

end StringSampleSort
