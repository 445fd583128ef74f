import StringSampleSort.Sequential.BucketRecursion

/-!
# The stand-alone sample sorts

Model of `sample_sortBS`, `sample_sortBT` and `sample_sortBSC` of
`src/sequential/bingmann-sample_sortBS.cpp`, `-sample_sortBT.cpp` and `-sample_sortBSC.cpp`.  They
take every second sample as splitter, and mark no splitter as done: step 5 looks at the splitter
itself.  The first two keep no bucket cache.

## Main results

- `findBktTreeLevels_spec`: the tree that `sample_sortBT` fills level by level finds splitters
- `findBktEqual_spec`: which of several equal splitters is found does not matter
- `standAlone_sorts`: all of them sort, with calls for strings that share their depth only
-/

namespace StringSampleSort

open Library Slice

/-! ## Model -/

/-- `l2cache`. -/
def l2cache : ℕ := 256 * 1024

/-- `leaves` of `sample_sortBS`, `numsplitters2` of `sample_sortBT` and `numsplitters` of
`sample_sortBSC`: `(l2cache - sizeof(size_t)) / (sizeof(key_type) + 2 * sizeof(size_t))`. -/
def leaves : ℕ := (l2cache - 8) / (8 + 2 * 8)

/-- `tlx::Log2Floor<numsplitters2>::value`, the levels of the tree of `sample_sortBT`. -/
def treeLevels : ℕ := leaves.log2

/-- `oversample_factor`. -/
def oversampleFactor : ℕ := 2

section Splitters

/-- `splitter[i] = samples[j]`, where `j` starts at `oversample_factor / 2` and grows by
`oversample_factor`. -/
def preorderSplitter (samples : ℕ → KeyType) (i : ℕ) : KeyType :=
  samples (oversampleFactor / 2 + i * oversampleFactor)

/-- `splitter_lcp[i]`. -/
def preorderLcp (splitter : ℕ → KeyType) (i : ℕ) : BitVec 8 :=
  if i = 0 then 0
  else BitVec.ofNat 8 (countHighZeroBits (splitter (i - 1) ^^^ splitter i) / 8)

variable (splitter : ℕ → KeyType) (numsplitters : ℕ)

/-- `while (p <= numsplitters) { splitter_tree[t++] = splitter[p]; p += inc; }`, for at most `fuel`
rounds. -/
def treeRow (inc : ℕ) : ℕ → ℕ → List KeyType
  | 0, _ => []
  | fuel + 1, p => if p ≤ numsplitters then splitter p :: treeRow inc fuel (p + inc) else []

/-- `while (highbit > 0)`: the tree level by level, for at most `fuel` levels. -/
def splitterTree : ℕ → ℕ → List KeyType
  | 0, _ => []
  | fuel + 1, highbit =>
    if highbit > 0 then
      treeRow splitter numsplitters (highbit <<< 1) (numsplitters + 1) (highbit - 1) ++
        splitterTree fuel (highbit >>> 1)
    else []

end Splitters

section FindBkt

variable (splitter : ℕ → KeyType) (numsplitters : ℕ) (key : KeyType)

/-- `find_bkt_binsearch(key, splitter, leaves)`. -/
def findBktBinsearch : ℕ :=
  let lo := binarySearch splitter key numsplitters 0 numsplitters
  if lo < numsplitters ∧ splitter lo = key then lo * 2 + 1 else lo * 2

/-- `while (i < numsplitters + 1)` of `find_bkt_tree`, for at most `fuel` rounds. -/
def descendTree (splitter_tree : ℕ → KeyType) : ℕ → ℕ → ℕ
  | 0, i => i
  | fuel + 1, i =>
    if i < numsplitters + 1 then
      descendTree splitter_tree fuel (if key ≤ splitter_tree i then 2 * i + 0 else 2 * i + 1)
    else i

/-- `find_bkt_tree(key, splitter, splitter_tree0, numsplitters)`, with the tree of
`sample_sortBT`. -/
def findBktTreeLevels : ℕ :=
  let splitter_tree0 :=
    splitterTree splitter numsplitters (numsplitters + 1) ((numsplitters + 1) / 2)
  let i := descendTree numsplitters key (fun i => splitter_tree0.getD (i - 1) 0) (numsplitters + 1) 1
  let i := i - (numsplitters + 1)
  if i < numsplitters ∧ splitter i = key then i * 2 + 1 else i * 2

/-- The loop of `find_bkt_equal`, for at most `fuel` rounds. -/
def equalSearch : ℕ → ℕ → ℕ → ℕ
  | 0, lo, _ => 2 * lo
  | fuel + 1, lo, hi =>
    if lo < hi then
      let mid := (lo + hi) >>> 1
      if key = splitter mid then 2 * mid + 1
      else if key < splitter mid then equalSearch fuel lo mid
      else equalSearch fuel (mid + 1) hi
    else 2 * lo

/-- `find_bkt_equal(key, splitter, numsplitters)`. -/
def findBktEqual : ℕ := equalSearch splitter key numsplitters 0 numsplitters

end FindBkt

section Levels

variable {mem : ℕ → CharType}

/-- Steps 1 to 4 with a search for buckets of keys, and with or without a bucket cache. -/
def standAloneLevel (cached : Bool) (findBkt : (ℕ → KeyType) → ℕ → KeyType → ℕ)
    (numsplitters : ℕ) (rng : ℕ → ℕ) (strings : ℕ → CString mem) (n depth : ℕ) :
    Option (Level mem) :=
  let splitter := preorderSplitter
    (sortedSample rng ⟨false, strings, n, depth⟩ (oversampleFactor * numsplitters))
  let find_bkt := fun s : CString mem => findBkt splitter numsplitters (getChar mem s.ptr depth)
  let bktnum := 2 * numsplitters + 1
  let bktcache := (contents strings n).map find_bkt
  let bktsize := fun b => bktcache.count b
  -- assert(b < bktnum); and assert(bktindex[bktnum - 1] == n);
  if (∀ b ∈ bktcache, b < bktnum) ∧ prefixSum bktsize (bktnum - 1) = n then
    (if cached then permuteInPlace bktnum n bktsize strings fun i => bktcache.getD i 0
      else permuteInPlaceFind find_bkt bktnum n bktsize strings).map fun strings =>
      { bktsize := bktsize
        strings := strings
        less := fun i => (preorderLcp splitter i).toNat
        done := fun i => decide (lowByte (splitter i) = 0) }
  else none

variable (rng : List ℕ → ℕ → ℕ) (fuel : ℕ) (strings : ℕ → CString mem) (n depth : ℕ)

/-- `sample_sortBS(strings, n, depth)`. -/
def sampleSortBS : Option (SortResult mem) :=
  sampleSort leaves (standAloneLevel false findBktBinsearch leaves) rng fuel [] strings n depth

/-- `sample_sortBT(strings, n, depth)`. -/
def sampleSortBT : Option (SortResult mem) :=
  sampleSort (numsplitters treeLevels)
    (standAloneLevel false findBktTreeLevels (numsplitters treeLevels)) rng fuel [] strings n depth

/-- `sample_sortBSC<find_bkt>(strings, n, depth)`. -/
def sampleSortBSC (findBkt : (ℕ → KeyType) → ℕ → KeyType → ℕ) : Option (SortResult mem) :=
  sampleSort leaves (standAloneLevel true findBkt leaves) rng fuel [] strings n depth

end Levels

/-- The stand-alone sample sorts. -/
inductive StandAlone
  | bs
  | bt
  | bscBinsearch
  | bscEqual

/-- The function that a stand-alone sample sort calls. -/
def StandAlone.sort {mem : ℕ → CharType} (rng : List ℕ → ℕ → ℕ) (fuel : ℕ)
    (strings : ℕ → CString mem) (n depth : ℕ) : StandAlone → Option (SortResult mem)
  | bs => sampleSortBS rng fuel strings n depth
  | bt => sampleSortBT rng fuel strings n depth
  | bscBinsearch => sampleSortBSC rng fuel strings n depth findBktBinsearch
  | bscEqual => sampleSortBSC rng fuel strings n depth findBktEqual

/-! ## Splitters -/

section Splitters

/-- The splitters in sorted order. -/
def preorderSplitters (samples : ℕ → KeyType) (numsplitters : ℕ) : List KeyType :=
  (List.range numsplitters).map (preorderSplitter samples)

variable {samples : ℕ → KeyType} {numsplitters : ℕ}

theorem length_preorderSplitters (samples : ℕ → KeyType) (numsplitters : ℕ) :
    (preorderSplitters samples numsplitters).length = numsplitters := by
  rw [preorderSplitters, List.length_map, List.length_range]

theorem getElem?_preorderSplitters {i : ℕ} (hi : i < numsplitters) :
    (preorderSplitters samples numsplitters)[i]? = some (preorderSplitter samples i) := by
  rw [preorderSplitters, List.getElem?_map, List.getElem?_range hi, Option.map_some]

theorem getD_preorderSplitters {i : ℕ} (hi : i < numsplitters) :
    (preorderSplitters samples numsplitters).getD i 0 = preorderSplitter samples i := by
  rw [List.getD_eq_getElem?_getD, getElem?_preorderSplitters hi, Option.getD_some]

theorem preorderSplitters_pairwise (hs : SortedSamples samples (oversampleFactor * numsplitters)) :
    (preorderSplitters samples numsplitters).Pairwise (· ≤ ·) := by
  refine List.pairwise_map.mpr (List.pairwise_lt_range.imp_of_mem fun _ hj hij => ?_)
  have := List.mem_range.mp hj
  exact hs _ _ (by simp only [oversampleFactor]; omega) (by simp only [oversampleFactor]; omega)

theorem mem_preorderSplitters {k : KeyType} (hk : k ∈ preorderSplitters samples numsplitters) :
    ∃ i < oversampleFactor * numsplitters, k = samples i := by
  obtain ⟨i, hi, rfl⟩ := List.mem_map.mp hk
  have := List.mem_range.mp hi
  exact ⟨_, by simp only [oversampleFactor]; omega, rfl⟩

/-- The depth of the bucket before a splitter. -/
theorem preorderLcp_eq {i : ℕ} (hi : i < numsplitters) :
    (preorderLcp (preorderSplitter samples) i).toNat =
      lessLcp (preorderSplitters samples numsplitters) i := by
  rw [preorderLcp, lessLcp, length_preorderSplitters]
  -- the first splitter has none before it
  by_cases h0 : i = 0
  · rw [if_pos h0, if_pos (Or.inl h0)]
    rfl
  · have hle := lcpKeyType_le (preorderSplitter samples (i - 1)) (preorderSplitter samples i)
    rw [lcpKeyType] at hle
    rw [if_neg h0, if_neg (by omega), getD_preorderSplitters (by omega), getD_preorderSplitters hi,
      lcpKeyType, BitVec.toNat_ofNat, Nat.mod_eq_of_lt (by omega)]

end Splitters

/-! ## Searches -/

section Searches

variable {samples : ℕ → KeyType} {n : ℕ}

/-- `find_bkt` of a sorted list of splitters finds a right bucket for each key. -/
def FindsBuckets (findBkt : (ℕ → KeyType) → ℕ → KeyType → ℕ) (numsplitters : ℕ) : Prop :=
  ∀ samples key, (preorderSplitters samples numsplitters).Pairwise (· ≤ ·) →
    IsBucket (preorderSplitters samples numsplitters) key
      (findBkt (preorderSplitter samples) numsplitters key)

/-- Behind a search for the first splitter not below the key. -/
theorem isBucket_of_rank (hs : (preorderSplitters samples n).Pairwise (· ≤ ·)) {key : KeyType}
    {i : ℕ} (hi : i = rank (preorderSplitters samples n) key) :
    IsBucket (preorderSplitters samples n) key
      (if i < n ∧ preorderSplitter samples i = key then i * 2 + 1 else i * 2) := by
  have hiff := rank_test_iff hs key
  rw [length_preorderSplitters, ← hi] at hiff
  -- the test of the loop's result asks whether the key is a splitter
  have htest : (i < n ∧ preorderSplitter samples i = key) ↔ key ∈ preorderSplitters samples n := by
    rw [← hiff]
    exact and_congr_right fun hlt => by rw [getElem?_preorderSplitters hlt, Option.some_inj]
  rw [if_congr htest rfl rfl, hi]
  exact isBucket_firstBucket hs key

theorem findBktBinsearch_spec (n : ℕ) : FindsBuckets findBktBinsearch n := by
  intro samples key hs
  refine isBucket_of_rank hs (binarySearch_eq (fun i _ hi => ?_) (Nat.zero_le _) ?_ (by omega))
  · exact lt_rank_iff hs (getElem?_preorderSplitters hi)
  · exact (rank_le_length ..).trans_eq (length_preorderSplitters ..)

/-- Between the smaller and the larger splitters. -/
theorem isBucket_of_between (hs : (preorderSplitters samples n).Pairwise (· ≤ ·)) {key : KeyType}
    {lo : ℕ} (hlo : lo ≤ n) (hbelow : ∀ i < lo, preorderSplitter samples i < key)
    (habove : ∀ i, lo ≤ i → i < n → key < preorderSplitter samples i) :
    IsBucket (preorderSplitters samples n) key (2 * lo) := by
  have hnot : key ∉ preorderSplitters samples n := by
    intro hmem
    obtain ⟨i, hi, rfl⟩ := List.mem_map.mp hmem
    rcases Nat.lt_or_ge i lo with hlt | hge
    · exact lt_irrefl _ (hbelow i hlt)
    · exact lt_irrefl _ (habove i hge (List.mem_range.mp hi))
  have hle := rank_le_length (preorderSplitters samples n) key
  rw [length_preorderSplitters] at hle
  refine Or.inr ⟨hnot, congrArg _ (Nat.le_antisymm (not_lt.mp fun hlt => ?_)
    (not_lt.mp fun hlt => ?_))⟩
  · -- a smaller rank would leave out a splitter below the key
    have := (lt_rank_iff hs (getElem?_preorderSplitters (by omega))).mpr (hbelow _ hlt)
    omega
  · -- a larger one would count a splitter above it
    have hlow := (lt_rank_iff hs (getElem?_preorderSplitters (by omega : lo < n))).mp hlt
    exact lt_asymm hlow (habove lo (le_refl _) (by omega))

/-- The search ends at a splitter that is the key, or between the smaller and the larger
splitters. -/
theorem equalSearch_spec (hs : (preorderSplitters samples n).Pairwise (· ≤ ·)) {key : KeyType}
    {fuel lo hi : ℕ} (hlo : lo ≤ hi) (hhi : hi ≤ n)
    (hbelow : ∀ i < lo, preorderSplitter samples i < key)
    (habove : ∀ i, hi ≤ i → i < n → key < preorderSplitter samples i) (hfuel : hi - lo ≤ fuel) :
    IsBucket (preorderSplitters samples n) key
      (equalSearch (preorderSplitter samples) key fuel lo hi) := by
  have hmono : ∀ i j, i ≤ j → j < n → preorderSplitter samples i ≤ preorderSplitter samples j := by
    intro i j hij hj
    rcases Nat.eq_or_lt_of_le hij with rfl | hlt
    · exact le_refl _
    · have := List.pairwise_iff_getElem.mp hs i j (by rw [length_preorderSplitters]; omega)
        (by rwa [length_preorderSplitters]) hlt
      simpa [preorderSplitters] using this
  -- by induction on the rounds: below `lo` splitters are smaller, from `hi` on larger
  induction fuel generalizing lo hi with
  | zero =>
    rw [equalSearch]
    exact isBucket_of_between hs (by omega) hbelow fun i hi => habove i (by omega)
  | succ fuel ih =>
    rw [equalSearch]
    split
    · next hlt =>
      have hmid : (lo + hi) >>> 1 = (lo + hi) / 2 := by rw [Nat.shiftRight_eq_div_pow, pow_one]
      simp only [hmid]
      have hmidn : (lo + hi) / 2 < n := by omega
      split
      · -- the splitter in the middle is the key
        next heq => exact Or.inl ⟨_, rfl, heq ▸ getElem?_preorderSplitters hmidn⟩
      · next hne =>
        split
        · next hkey =>
          refine ih (by omega) (by omega) hbelow (fun i h₁ h₂ => ?_) (by omega)
          exact hkey.trans_le (hmono _ i h₁ h₂)
        · next hkey =>
          have hgt : preorderSplitter samples ((lo + hi) / 2) < key :=
            lt_of_le_of_ne (not_lt.mp hkey) (Ne.symm hne)
          refine ih (by omega) hhi (fun i h => ?_) habove (by omega)
          exact (hmono i _ (by omega) hmidn).trans_lt hgt
    · exact isBucket_of_between hs (by omega) hbelow fun i hi => habove i (by omega)

/-- Which one of several equal splitters is found does not matter. -/
theorem findBktEqual_spec (n : ℕ) : FindsBuckets findBktEqual n := fun _ _ hs =>
  equalSearch_spec hs (Nat.zero_le _) (le_refl _) (fun _ h => absurd h (Nat.not_lt_zero _))
    (fun _ h₁ h₂ => absurd h₂ (not_lt.mpr h₁)) (le_refl _)

end Searches

/-! ## The tree of `sample_sortBT` -/

section Tree

variable (splitter : ℕ → KeyType) {n : ℕ}

/-- A level of `c` nodes takes the odd multiples of `highbit`. -/
theorem treeRow_eq {highbit c : ℕ} (hpos : 0 < highbit) (hn : n + 1 = 2 * c * highbit)
    {fuel x : ℕ} (hx : x ≤ c) (hfuel : c - x < fuel) :
    treeRow splitter n (2 * highbit) fuel ((2 * x + 1) * highbit - 1) =
      (List.range' x (c - x)).map fun x => splitter ((2 * x + 1) * highbit - 1) := by
  induction fuel generalizing x with
  | zero => omega
  | succ fuel ih =>
    rw [treeRow]
    have hge : 0 < (2 * x + 1) * highbit := Nat.mul_pos (Nat.succ_pos _) hpos
    rcases Nat.eq_or_lt_of_le hx with rfl | hlt
    · -- the next multiple lies behind the last splitter
      have hout : n + 1 < (2 * x + 1) * highbit := by
        rw [hn, Nat.add_mul, one_mul]
        omega
      rw [if_neg (by omega), Nat.sub_self]
      rfl
    · -- the next multiple is that of `x + 1`
      have hin : (2 * x + 1) * highbit ≤ n + 1 := hn ▸ Nat.mul_le_mul_right _ (by omega)
      have hnext : (2 * x + 1) * highbit - 1 + 2 * highbit = (2 * (x + 1) + 1) * highbit - 1 := by
        rw [show 2 * (x + 1) + 1 = 2 * x + 1 + 2 by omega, Nat.add_mul (2 * x + 1)]
        omega
      rw [if_pos (by omega), hnext, ih (by omega) (by omega),
        show c - x = c - (x + 1) + 1 by omega, List.range'_succ, List.map_cons]

/-- The level of the highest bit `k`. -/
theorem treeRow_level {r k d : ℕ} (hn : n + 1 = 2 ^ r) (hr : k + d + 1 = r) :
    treeRow splitter n ((2 ^ k) <<< 1) (n + 1) (2 ^ k - 1) =
      (List.range (2 ^ d)).map fun x => splitter ((2 * x + 1) * 2 ^ k - 1) := by
  have hk := Nat.two_pow_pos k
  have hd := Nat.two_pow_pos d
  have hsplit : n + 1 = 2 * 2 ^ d * 2 ^ k := by
    rw [hn, ← hr]
    ring
  have hle : 2 ^ d ≤ 2 ^ d * 2 ^ k := Nat.le_mul_of_pos_right _ hk
  have hrow := treeRow_eq splitter hk hsplit (Nat.zero_le (2 ^ d))
    (by rw [hsplit, Nat.mul_assoc]; omega : 2 ^ d - 0 < n + 1)
  rw [Nat.shiftLeft_eq, pow_one, mul_comm (2 ^ k)]
  rwa [Nat.mul_zero, Nat.zero_add, one_mul, Nat.sub_zero, ← List.range_eq_range'] at hrow

/-- From level `d` on, node `x` of level `e` is the splitter at its position in sorted order. -/
theorem getElem?_splitterTree {r k d : ℕ} (hn : n + 1 = 2 ^ r) (hr : k + d + 1 = r) {fuel : ℕ}
    (hfuel : k < fuel) {e x : ℕ} (hde : d ≤ e) (her : e < r) (hx : x < 2 ^ e) :
    (splitterTree splitter n fuel (2 ^ k))[2 ^ e - 2 ^ d + x]? =
      some (splitter ((2 * x + 1) * 2 ^ (r - 1 - e) - 1)) := by
  induction k generalizing d fuel with
  | zero =>
    obtain ⟨fuel, rfl⟩ : ∃ f, fuel = f + 1 := ⟨fuel - 1, by omega⟩
    obtain rfl : e = d := by omega
    rw [splitterTree, if_pos (Nat.two_pow_pos 0), treeRow_level splitter hn hr, Nat.sub_self,
      Nat.zero_add, List.getElem?_append_left (by simpa using hx), List.getElem?_map, List.getElem?_range hx,
      show r - 1 - e = 0 by omega, Option.map_some]
  | succ k ih =>
    obtain ⟨fuel, rfl⟩ : ∃ f, fuel = f + 1 := ⟨fuel - 1, by omega⟩
    rw [splitterTree, if_pos (Nat.two_pow_pos _), treeRow_level splitter hn hr]
    -- the node is on the level that is written now, or on one below
    rcases Nat.eq_or_lt_of_le hde with rfl | hlt
    · rw [Nat.sub_self, Nat.zero_add, List.getElem?_append_left (by simpa using hx),
        List.getElem?_map, List.getElem?_range hx, show r - 1 - d = k + 1 by omega, Option.map_some]
    · -- the node is on one of the levels below
      have hpow : 2 ^ (d + 1) ≤ 2 ^ e := Nat.pow_le_pow_right (by norm_num) hlt
      rw [pow_succ] at hpow
      have hhalf : 2 ^ (k + 1) >>> 1 = 2 ^ k := by
        rw [Nat.shiftRight_eq_div_pow, pow_one, pow_succ, Nat.mul_div_cancel _ two_pos]
      rw [List.getElem?_append_right (by simp; omega), hhalf, List.length_map, List.length_range,
        show 2 ^ e - 2 ^ d + x - 2 ^ d = 2 ^ e - 2 ^ (d + 1) + x by rw [pow_succ]; omega]
      exact ih (by omega) (by omega) hlt

/-- The listing of the tree is that of the splitters in sorted order. -/
theorem inorder_splitterTree {r : ℕ} (hr : 0 < r) (hn : n + 1 = 2 ^ r) :
    inorder (fun i => (splitterTree splitter n (n + 1) ((n + 1) / 2)).getD (i - 1) 0) r 1 =
      (List.range n).map splitter := by
  have hlt : r < n + 1 := hn ▸ Nat.lt_two_pow_self
  have hhalf : (n + 1) / 2 = 2 ^ (r - 1) := by
    rw [hn, show r = r - 1 + 1 by omega, pow_succ, Nat.mul_div_cancel _ two_pos]
    rfl
  rw [show n = 2 ^ r - 1 by omega]
  -- a layout by levels is listed in order when each node holds the splitter of its place
  refine inorder_of_layout fun e he x hx => ?_
  have hnode := getElem?_splitterTree splitter hn (by omega : r - 1 + 0 + 1 = r)
    (by omega : r - 1 < n + 1) (Nat.zero_le e) he hx
  have hpos := Nat.two_pow_pos e
  rw [← hhalf, pow_zero, show 2 ^ e - 1 + x = 2 ^ e + x - 1 by omega] at hnode
  rw [← show n = 2 ^ r - 1 by omega, List.getD_eq_getElem?_getD, hnode, Option.getD_some]

/-- The loop descends level by level. -/
theorem descendTree_eq (tree : ℕ → KeyType) (key : KeyType) {d k r fuel i : ℕ}
    (hn : n + 1 = 2 ^ r) (hr : d + k = r) (h₁ : 2 ^ d ≤ i) (h₂ : i < 2 ^ (d + 1)) (hfuel : k ≤ fuel) :
    descendTree n key tree fuel i = descend (fun s => decide (s < key)) tree k i := by
  -- by induction on the levels left; node `i` is on level `d`
  induction k generalizing d fuel i with
  | zero =>
    obtain rfl : d = r := by omega
    cases fuel with
    | zero => rfl
    | succ fuel => rw [descendTree, if_neg (by omega), descend]
  | succ k ih =>
    obtain ⟨fuel, rfl⟩ : ∃ f, fuel = f + 1 := ⟨fuel - 1, by omega⟩
    have hpow : 2 ^ (d + 1) ≤ 2 ^ r := Nat.pow_le_pow_right (by norm_num) (by omega)
    have hlevel : 2 ^ (d + 1 + 1) = 2 * 2 ^ (d + 1) ∧ 2 ^ (d + 1) = 2 * 2 ^ d := by
      constructor <;> ring
    rw [descendTree, if_pos (by omega), descend]
    by_cases hle : key ≤ tree i
    · rw [if_pos hle, if_neg (by simpa using hle)]
      exact ih (d := d + 1) (by omega) (by omega) (by omega) (by omega)
    · rw [if_neg hle, if_pos (by simpa using hle)]
      exact ih (d := d + 1) (by omega) (by omega) (by omega) (by omega)

theorem findBktTreeLevels_spec {r : ℕ} (hr : 0 < r) (hn : n + 1 = 2 ^ r) :
    FindsBuckets findBktTreeLevels n := by
  intro samples key hs
  have hlist := inorder_splitterTree (preorderSplitter samples) hr hn
  have hlt : r < n + 1 := hn ▸ Nat.lt_two_pow_self
  -- the leaf that is reached counts the splitters below the key
  refine isBucket_of_rank hs ?_
  rw [descendTree_eq _ _ hn (Nat.zero_add r) (by norm_num) (by norm_num) (by omega),
    descend_eq (by
      rw [hlist]
      refine hs.imp fun hab => ?_
      simp only [decide_eq_true_eq]
      exact fun h => hab.trans_lt h), hlist, hn, one_mul, Nat.add_sub_cancel_left]
  rfl

end Tree

/-! ## Correctness -/

section Correctness

variable {mem : ℕ → CharType}

/-- Steps 1 to 4 rearrange the range by the buckets of the splitters. -/
theorem rightLevels_standAlone {findBkt : (ℕ → KeyType) → ℕ → KeyType → ℕ} {numsplitters : ℕ}
    (hfind : FindsBuckets findBkt numsplitters) (cached : Bool) :
    RightLevels numsplitters (@standAloneLevel mem cached findBkt numsplitters) := by
  intro rng strings n depth hn hshare
  let c : Call mem := ⟨false, strings, n, depth⟩
  let samples := sortedSample rng c (oversampleFactor * numsplitters)
  let ss := preorderSplitters samples numsplitters
  let bkt := findBkt (preorderSplitter samples) numsplitters
  have hsorted : ss.Pairwise (· ≤ ·) := preorderSplitters_pairwise (sortedSample_sorted rng c _)
  have hbucketed : Bucketed (InRange (UCharStringSet mem).chars strings n) depth ss bkt := by
    refine bucketed_of_keys hshare hsorted (fun k hk => ?_) fun key => hfind samples key hsorted
    obtain ⟨i, hi, rfl⟩ := mem_preorderSplitters hk
    exact sortedSample_mem rng c (lt_of_lt_of_le (by decide) hn) hi
  have hlen : ss.length = numsplitters := length_preorderSplitters ..
  -- both forms of the permutation arrange the strings by their buckets
  obtain ⟨sorted₁, hcached, harranged₁⟩ := permuteInPlace_arranged hshare hbucketed
  obtain ⟨sorted₂, huncached, harranged₂⟩ := permuteInPlaceFind_arranged hshare hbucketed
  have hassert := harranged₁.prefixSum_eq
  have hbound : ∀ b ∈ (contents strings n).map fun s => bkt (getChar mem s.ptr depth),
      b < 2 * numsplitters + 1 := by
    intro b hb
    obtain ⟨s, -, rfl⟩ := List.mem_map.mp hb
    exact hlen ▸ hbucketed.bucket_lt _
  rw [hlen] at hcached huncached hassert
  -- what the loop over the buckets computes from neighbouring splitters
  have hless : ∀ i < numsplitters, (preorderLcp (preorderSplitter samples) i).toNat =
      lessLcp ss i := fun i hi => preorderLcp_eq hi
  have hdone : ∀ i < numsplitters, decide (lowByte (preorderSplitter samples i) = 0) = true ↔
      lowByte (ss.getD i 0) = 0 := fun i hi => by
    rw [decide_eq_true_iff, getD_preorderSplitters hi]
  cases cached with
  | true =>
    refine ⟨⟨_, sorted₁, _, _⟩, ss, bkt, ?_, harranged₁, hlen, hless, hdone⟩
    rw [standAloneLevel]
    exact (if_pos ⟨hbound, hassert⟩).trans (congrArg (Option.map _) hcached)
  | false =>
    refine ⟨⟨_, sorted₂, _, _⟩, ss, bkt, ?_, harranged₂, hlen, hless, hdone⟩
    rw [standAloneLevel]
    exact (if_pos ⟨hbound, hassert⟩).trans (congrArg (Option.map _) huncached)

/-- Whatever numbers are drawn, each stand-alone sample sort leaves the strings sorted, and all its
calls are for strings that share their depth. -/
theorem standAlone_sorts (v : StandAlone) (rng : List ℕ → ℕ → ℕ) {strings : ℕ → CString mem}
    {n : ℕ} (hlen : ∀ p < n, (strings p).len < 2 ^ 31) :
    ∃ levels, ∀ fuel ≥ levels, ∃ r, v.sort rng fuel strings n 0 = some r ∧
      (contents r.1 n).Perm (contents strings n) ∧
      MonotoneIn ((UCharStringSet mem).chars ∘ r.1) 0 n ∧ ∀ c ∈ r.2, c.Shares := by
  have hsorts : ∃ levels, ∀ fuel ≥ levels, ∃ r, v.sort rng fuel strings n 0 = some r ∧
      StringsSorted strings n r := by
    have hleaves : 0 < leaves := by decide
    have hlevels : 0 < treeLevels := by decide
    -- each one has levels with right buckets, so the common recursion sorts
    cases v with
    | bs =>
      exact sampleSort_sorts hleaves
        (rightLevels_standAlone (findBktBinsearch_spec _) false) rng [] hlen
        (sharesDepth_zero strings n)
    | bt =>
      have hpos := numsplitters_pos hlevels
      exact sampleSort_sorts hpos (rightLevels_standAlone
        (findBktTreeLevels_spec hlevels (numsplitters_succ _)) false) rng [] hlen
        (sharesDepth_zero strings n)
    | bscBinsearch =>
      exact sampleSort_sorts hleaves
        (rightLevels_standAlone (findBktBinsearch_spec _) true) rng [] hlen
        (sharesDepth_zero strings n)
    | bscEqual =>
      exact sampleSort_sorts hleaves
        (rightLevels_standAlone (findBktEqual_spec _) true) rng [] hlen
        (sharesDepth_zero strings n)
  obtain ⟨levels, h⟩ := hsorts
  refine ⟨levels, fun fuel hfuel => ?_⟩
  obtain ⟨r, hr, hsorted⟩ := h fuel hfuel
  exact ⟨r, hr, hsorted.perm, hsorted.sorted, hsorted.log⟩

theorem standAlone_sorts_words :
    ∃ levels, ∀ fuel ≥ levels, ∃ r,
      StandAlone.bt.sort (fun _ i => i) fuel word 40000 0 = some r ∧
      (contents r.1 40000).Perm (contents word 40000) ∧
      MonotoneIn ((UCharStringSet wordMem).chars ∘ r.1) 0 40000 ∧ ∀ c ∈ r.2, c.Shares :=
  standAlone_sorts .bt _ fun _ _ => (by norm_num : 12 < 2 ^ 31)

end Correctness

end StringSampleSort
