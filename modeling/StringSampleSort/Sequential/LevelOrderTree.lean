import StringSampleSort.Sequential.AssemblerSearch

/-!
# The level-order tree of `sample_sortBT`

The loop of `src/sequential/bingmann-sample_sortBT.cpp` that copies the splitters into a tree, with
its accesses checked, and the search `find_bkt_tree` with its 32-bit index.

The inner loop runs while `p <= numsplitters`, which is one too many.  The places that it takes are
odd multiples of a power of two, less one, and `numsplitters` is not among them.  The index of
`find_bkt_tree` doubles at each level, so that a tree of more than 31 levels makes it wrap.

The counters of the copying loop are `size_t`s.  They count the keys of an array in memory and do
not wrap.

## Main results

- `fillRow_eq`, `fillTree_eq`: the loops stay within both arrays
- `findBktTree32_eq`: the search goes down the tree
- `levelOrderTree_spec`: the tree is the complete search tree of the splitters, and both searches
  find the same bucket
-/

namespace StringSampleSort

open Library X86

/-! ## Model -/

/-- The variables of the copying loop: the tree, the next entry, and the entries that have been
written. -/
structure TreeFill where
  splitter_tree : ℕ → KeyType
  t : ℕ
  writes : List ℕ

section Model

variable (splitter : ℕ → KeyType) (numsplitters : ℕ)

/-- `splitter_tree[t++] = splitter[p];` -/
def TreeFill.fill (s : TreeFill) (p : ℕ) : Option TreeFill :=
  (readAt numsplitters splitter p).bind fun x =>
    (writeAt numsplitters s.splitter_tree s.t x).map fun tree => ⟨tree, s.t + 1, s.writes ++ [s.t]⟩

/-- `while (p <= numsplitters)`, for at most `fuel` rounds. -/
def fillRow (inc : ℕ) : ℕ → ℕ → TreeFill → Option TreeFill
  | 0, _, _ => none
  | fuel + 1, p, s =>
    if p ≤ numsplitters then (s.fill splitter numsplitters p).bind (fillRow inc fuel (p + inc))
    else some s

/-- `while (highbit > 0)`, for at most `fuel` levels. -/
def fillTree (rowFuel : ℕ) : ℕ → ℕ → TreeFill → Option TreeFill
  | 0, _, _ => none
  | fuel + 1, highbit, s =>
    if highbit > 0 then
      (fillRow splitter numsplitters (highbit <<< 1) rowFuel (highbit - 1) s).bind
        (fillTree rowFuel fuel (highbit >>> 1))
    else some s

/-- Step 2.1 of `sample_sortBT`, on an array that holds `tree0`. -/
def levelOrderTree (fuel : ℕ) (tree0 : ℕ → KeyType) : Option TreeFill :=
  fillTree splitter numsplitters fuel fuel ((numsplitters + 1) / 2) ⟨tree0, 0, []⟩

variable (splitter_tree0 : ℕ → KeyType) (key : KeyType)

/-- The body of the loop of `find_bkt_tree`, with `splitter_tree = splitter_tree0 - 1`. -/
def treeBody (i : BitVec 32) : Option (BitVec 32 ⊕ BitVec 32) :=
  (subtract i.toNat 1).bind fun p => (readAt numsplitters splitter_tree0 p).map fun t =>
    .inl (if key ≤ t then 2 * i + 0 else 2 * i + 1)

/-- `find_bkt_tree(key, splitter, splitter_tree0, numsplitters)`, for at most `fuel` rounds. -/
def findBktTree32 (fuel : ℕ) : Option (BitVec 32) :=
  whileDo (fun i : BitVec 32 => i.toNat < numsplitters + 1)
    (treeBody numsplitters splitter_tree0 key)
    (fun i => binsearchBucket splitter numsplitters key (i - BitVec.ofNat 32 (numsplitters + 1)))
    fuel 1

end Model

/-! ## Copying the splitters -/

section Fill

variable (splitter : ℕ → KeyType) {tree0 : ℕ → KeyType} {n : ℕ} {s : TreeFill} {l : List KeyType}

/-- The keys `l` have been written, each to its own entry. -/
structure TreeFill.Holds (s : TreeFill) (tree0 : ℕ → KeyType) (l : List KeyType) : Prop where
  t_eq : s.t = l.length
  writes_eq : s.writes = List.range l.length
  written : ∀ i < l.length, l[i]? = some (s.splitter_tree i)
  rest : ∀ i, l.length ≤ i → s.splitter_tree i = tree0 i

/-- One copy. -/
theorem TreeFill.Holds.fill (h : s.Holds tree0 l) (hroom : l.length < n) {p : ℕ} (hp : p < n) :
    ∃ s', s.fill splitter n p = some s' ∧ s'.Holds tree0 (l ++ [splitter p]) := by
  rw [TreeFill.fill, readAt_of_lt _ hp, Option.bind_some, h.t_eq, writeAt_of_lt _ hroom]
  refine ⟨⟨Function.update s.splitter_tree l.length (splitter p), l.length + 1,
    s.writes ++ [l.length]⟩, rfl, ?_, ?_, fun i hi => ?_, fun i hi => ?_⟩
  · simp
  · rw [h.writes_eq, List.length_append, List.length_singleton, List.range_succ]
  · rw [List.length_append, List.length_singleton] at hi
    rcases Nat.eq_or_lt_of_le (Nat.le_of_lt_succ hi) with rfl | hlt
    · simp
    · rw [List.getElem?_append_left hlt, h.written i hlt]
      exact congrArg some (Function.update_of_ne hlt.ne _ _).symm
  · rw [List.length_append, List.length_singleton] at hi
    exact (Function.update_of_ne (show i ≠ l.length by omega) _ _).trans (h.rest i (by omega))

/-- The rest of a level of `c` nodes, from the `x`-th one on. -/
theorem fillRow_eq {highbit c : ℕ} (hpos : 0 < highbit) (hn : n + 1 = 2 * c * highbit)
    {fuel x : ℕ} (hx : x ≤ c) (hfuel : c - x < fuel) (h : s.Holds tree0 l)
    (hroom : l.length + (c - x) ≤ n) :
    ∃ s', fillRow splitter n (2 * highbit) fuel ((2 * x + 1) * highbit - 1) s = some s' ∧
      s'.Holds tree0
        (l ++ (List.range' x (c - x)).map fun x => splitter ((2 * x + 1) * highbit - 1)) := by
  induction fuel generalizing x s l with
  | zero => exact absurd hfuel (Nat.not_lt_zero _)
  | succ fuel ih =>
    rw [fillRow]
    have hge : 0 < (2 * x + 1) * highbit := Nat.mul_pos (Nat.succ_pos _) hpos
    rcases Nat.eq_or_lt_of_le hx with rfl | hlt
    · -- the next odd multiple lies behind the even one that is `n + 1`
      have hout : n + 1 < (2 * x + 1) * highbit := by
        rw [hn, Nat.add_mul, one_mul]
        omega
      rw [if_neg (by omega), Nat.sub_self]
      exact ⟨s, rfl, by simpa using h⟩
    · have hin : (2 * x + 1) * highbit < n + 1 := by
        rw [hn]
        exact Nat.mul_lt_mul_of_pos_right (by omega) hpos
      have hnext : (2 * x + 1) * highbit - 1 + 2 * highbit = (2 * (x + 1) + 1) * highbit - 1 := by
        rw [show 2 * (x + 1) + 1 = 2 * x + 1 + 2 by omega, Nat.add_mul (2 * x + 1)]
        omega
      -- an odd multiple is not `n + 1`, so the place is not `n`
      obtain ⟨s₁, hs₁, h₁⟩ := h.fill splitter (by omega)
        (show (2 * x + 1) * highbit - 1 < n by omega)
      obtain ⟨s₂, hs₂, h₂⟩ := ih (x := x + 1) hlt (by omega) h₁ (by simp; omega)
      rw [if_pos (by omega), hs₁, Option.bind_some, hnext]
      refine ⟨s₂, hs₂, ?_⟩
      rw [show c - x = c - (x + 1) + 1 by omega, List.range'_succ, List.map_cons]
      rwa [List.append_assoc, List.singleton_append] at h₂

/-- The level of the highest bit `k`. -/
theorem fillRow_level {r k d : ℕ} (hn : n + 1 = 2 ^ r) (hr : k + d + 1 = r) {fuel : ℕ}
    (hfuel : n < fuel) (h : s.Holds tree0 l) (hroom : l.length + 2 ^ d ≤ n) :
    ∃ s', fillRow splitter n ((2 ^ k) <<< 1) fuel (2 ^ k - 1) s = some s' ∧
      s'.Holds tree0 (l ++ treeRow splitter n ((2 ^ k) <<< 1) (n + 1) (2 ^ k - 1)) := by
  have hsplit : n + 1 = 2 * 2 ^ d * 2 ^ k := by
    rw [hn, ← hr]
    ring
  have hrow := fillRow_eq splitter (Nat.two_pow_pos k) hsplit (Nat.zero_le (2 ^ d))
    (show 2 ^ d - 0 < fuel by omega) h hroom
  rw [treeRow_level splitter hn hr, Nat.shiftLeft_eq, pow_one, mul_comm (2 ^ k)]
  rwa [Nat.mul_zero, Nat.zero_add, one_mul, Nat.sub_zero, ← List.range_eq_range'] at hrow

/-- Behind the last level. -/
theorem splitterTree_zero (n fuel : ℕ) :
    splitterTree splitter n fuel 0 = [] := by
  cases fuel with
  | zero => rfl
  | succ fuel => rw [splitterTree, if_neg (lt_irrefl 0)]

private theorem shiftRight_pow (k : ℕ) : (2 ^ (k + 1)) >>> 1 = 2 ^ k := by
  rw [Nat.shiftRight_eq_div_pow, pow_one, pow_succ, Nat.mul_div_cancel _ two_pos]

/-- From level `d` on, the tree has the entries that are left. -/
theorem length_splitterTree {r k d : ℕ} (hn : n + 1 = 2 ^ r)
    (hr : k + d + 1 = r) {fuel : ℕ} (hfuel : k < fuel) :
    (splitterTree splitter n fuel (2 ^ k)).length = 2 ^ r - 2 ^ d := by
  induction k generalizing d fuel with
  | zero =>
    obtain ⟨fuel, rfl⟩ : ∃ f, fuel = f + 1 := ⟨fuel - 1, by omega⟩
    have hpow : 2 ^ r = 2 ^ d + 2 ^ d := by rw [← hr]; ring
    rw [splitterTree, if_pos (Nat.two_pow_pos 0), treeRow_level splitter hn hr,
      show (2 ^ 0 : ℕ) >>> 1 = 0 from rfl, splitterTree_zero]
    simp [hpow]
  | succ k ih =>
    obtain ⟨fuel, rfl⟩ : ∃ f, fuel = f + 1 := ⟨fuel - 1, by omega⟩
    have hrest : (splitterTree splitter n fuel (2 ^ k)).length = 2 ^ r - 2 ^ (d + 1) :=
      ih (by omega) (by omega)
    have hpow : 2 ^ (d + 1) ≤ 2 ^ r := Nat.pow_le_pow_right (by norm_num) (by omega)
    rw [splitterTree, if_pos (Nat.two_pow_pos _), treeRow_level splitter hn hr, shiftRight_pow,
      List.length_append, hrest, List.length_map, List.length_range]
    rw [pow_succ] at hpow ⊢
    omega

/-- The levels from level `d` on. -/
theorem fillTree_eq {r k d : ℕ} (hn : n + 1 = 2 ^ r) (hr : k + d + 1 = r) {rowFuel fuel m : ℕ}
    (hrow : n < rowFuel) (hfuel : k + 1 < fuel) (hm : k < m) (h : s.Holds tree0 l)
    (hlen : l.length + 1 = 2 ^ d) :
    ∃ s', fillTree splitter n rowFuel fuel (2 ^ k) s = some s' ∧
      s'.Holds tree0 (l ++ splitterTree splitter n m (2 ^ k)) := by
  induction k generalizing d fuel m s l with
  | zero =>
    obtain ⟨fuel, rfl⟩ : ∃ f, fuel = f + 2 := ⟨fuel - 2, by omega⟩
    obtain ⟨m, rfl⟩ : ∃ f, m = f + 1 := ⟨m - 1, by omega⟩
    have hpow : 2 ^ r = 2 ^ d + 2 ^ d := by rw [← hr]; ring
    obtain ⟨s₁, hs₁, h₁⟩ := fillRow_level splitter hn hr hrow h (by omega)
    -- the last level is followed by the test of `highbit` once more
    refine ⟨s₁, ?_, ?_⟩
    · rw [fillTree, if_pos (Nat.two_pow_pos 0), hs₁, Option.bind_some,
        show (2 ^ 0 : ℕ) >>> 1 = 0 from rfl, fillTree, if_neg (lt_irrefl 0)]
    · rwa [splitterTree, if_pos (Nat.two_pow_pos 0), show (2 ^ 0 : ℕ) >>> 1 = 0 from rfl,
        splitterTree_zero, List.append_nil]
  | succ k ih =>
    obtain ⟨fuel, rfl⟩ : ∃ f, fuel = f + 1 := ⟨fuel - 1, by omega⟩
    obtain ⟨m, rfl⟩ : ∃ f, m = f + 1 := ⟨m - 1, by omega⟩
    have hpow : 2 ^ (d + 1) ≤ 2 ^ r := Nat.pow_le_pow_right (by norm_num) (by omega)
    rw [pow_succ] at hpow
    obtain ⟨s₁, hs₁, h₁⟩ := fillRow_level splitter hn hr hrow h (by omega)
    have hnext :
        (l ++ treeRow splitter n ((2 ^ (k + 1)) <<< 1) (n + 1) (2 ^ (k + 1) - 1)).length + 1 =
          2 ^ (d + 1) := by
      rw [List.length_append, treeRow_level splitter hn hr, List.length_map, List.length_range,
        pow_succ]
      omega
    obtain ⟨s₂, hs₂, h₂⟩ := ih (d := d + 1) (m := m) (by omega) (Nat.lt_of_succ_lt_succ hfuel)
      (by omega) h₁ hnext
    refine ⟨s₂, ?_, ?_⟩
    · rw [fillTree, if_pos (Nat.two_pow_pos _), hs₁, Option.bind_some, shiftRight_pow, hs₂]
    · rwa [splitterTree, if_pos (Nat.two_pow_pos _), shiftRight_pow, ← List.append_assoc]

/-- The loops write each entry of the tree once, and read only splitters. -/
theorem levelOrderTree_holds (tree0 : ℕ → KeyType) {r : ℕ} (hr : 0 < r)
    (hn : n + 1 = 2 ^ r) {fuel : ℕ} (hfuel : n + 1 < fuel) :
    ∃ s, levelOrderTree splitter n fuel tree0 = some s ∧
      s.Holds tree0 (splitterTree splitter n (n + 1) ((n + 1) / 2)) ∧
      (splitterTree splitter n (n + 1) ((n + 1) / 2)).length = n := by
  have hlt : r < n + 1 := hn ▸ Nat.lt_two_pow_self
  have hhalf : (n + 1) / 2 = 2 ^ (r - 1) := by
    rw [hn, show r = r - 1 + 1 by omega, pow_succ, Nat.mul_div_cancel _ two_pos]
    rfl
  have hstart : TreeFill.Holds ⟨tree0, 0, []⟩ tree0 [] :=
    ⟨rfl, rfl, fun i hi => absurd hi (Nat.not_lt_zero i), fun _ _ => rfl⟩
  have hlen : (splitterTree splitter n (n + 1) (2 ^ (r - 1))).length = 2 ^ r - 2 ^ 0 :=
    length_splitterTree splitter hn (by omega) (by omega)
  obtain ⟨s, hs, h⟩ := fillTree_eq splitter (d := 0) hn (show r - 1 + 0 + 1 = r by omega)
    (show n < fuel by omega) (show r - 1 + 1 < fuel by omega) (show r - 1 < n + 1 by omega)
    hstart rfl
  rw [levelOrderTree, hhalf]
  refine ⟨s, hs, by rwa [List.nil_append] at h, ?_⟩
  rw [hlen, ← hn]
  rfl

end Fill

/-! ## Searching the tree -/

section Search

variable {splitter tree0 : ℕ → KeyType} {n : ℕ} {key : KeyType}

/-- At a node the search goes to one of the children. -/
theorem treeBody_eq (tree0 : ℕ → KeyType) (key : KeyType) {i : ℕ} (hi : i < 2 ^ 32) (h₁ : 1 ≤ i)
    (h₂ : i < n + 1) : treeBody n tree0 key (BitVec.ofNat 32 i) =
      some (.inl (BitVec.ofNat 32 (2 * i + if tree0 (i - 1) < key then 1 else 0))) := by
  have hnat : (BitVec.ofNat 32 i).toNat = i := by rw [BitVec.toNat_ofNat, Nat.mod_eq_of_lt hi]
  rw [treeBody, hnat, subtract_of_le h₁, Option.bind_some, readAt_of_lt _ (by omega),
    Option.map_some, Option.some_inj, Sum.inl.injEq]
  by_cases hle : key ≤ tree0 (i - 1)
  · rw [if_pos hle, if_neg (not_lt.mpr hle), BitVec.ofNat_add, BitVec.ofNat_mul]
    rfl
  · rw [if_neg hle, if_pos (not_le.mp hle), BitVec.ofNat_add, BitVec.ofNat_mul]
    rfl

/-- From node `i` of level `d` the search goes down the other `m` levels; up to 31 levels no index
wraps. -/
theorem treeWalk_eq (tree0 : ℕ → KeyType) (key : KeyType) (finish : BitVec 32 → BitVec 32)
    {d m r fuel i : ℕ} (hn : n + 1 = 2 ^ r) (hr : d + m = r) (h31 : r ≤ 31) (h₁ : 2 ^ d ≤ i)
    (h₂ : i < 2 ^ (d + 1)) (hfuel : m < fuel) :
    whileDo (fun i : BitVec 32 => i.toNat < n + 1) (treeBody n tree0 key) finish fuel
        (BitVec.ofNat 32 i) =
      some (finish (BitVec.ofNat 32
        (descend (fun s => decide (s < key)) (fun i => tree0 (i - 1)) m i))) := by
  have hnat : ∀ {d i : ℕ}, d ≤ r → i < 2 ^ (d + 1) → (BitVec.ofNat 32 i).toNat = i := by
    intro d i hd hi
    have hpow : 2 ^ (d + 1) ≤ 2 ^ 32 := Nat.pow_le_pow_right (by norm_num) (by omega)
    rw [BitVec.toNat_ofNat, Nat.mod_eq_of_lt (by omega)]
  induction m generalizing d fuel i with
  | zero =>
    obtain ⟨fuel, rfl⟩ : ∃ f, fuel = f + 1 := ⟨fuel - 1, by omega⟩
    obtain rfl : d = r := by omega
    rw [whileDo, hnat (le_refl d) h₂, if_neg (by omega), descend]
  | succ m ih =>
    obtain ⟨fuel, rfl⟩ : ∃ f, fuel = f + 1 := ⟨fuel - 1, by omega⟩
    have hpow : 2 ^ (d + 1) ≤ 2 ^ r := Nat.pow_le_pow_right (by norm_num) (by omega)
    have hpos := Nat.two_pow_pos d
    have hlevel : 2 ^ (d + 1 + 1) = 2 * 2 ^ (d + 1) ∧ 2 ^ (d + 1) = 2 * 2 ^ d := by
      constructor <;> ring
    have hword : 2 ^ (d + 1) ≤ 2 ^ 32 := Nat.pow_le_pow_right (by norm_num) (by omega)
    rw [whileDo, hnat (by omega) h₂, if_pos (by omega), treeBody_eq tree0 key (by omega) (by omega)
      (by omega), Option.bind_some, descend]
    simp only [decide_eq_true_eq]
    -- both children lie on the next level
    have hchild : ∀ c ≤ 1, 2 ^ (d + 1) ≤ 2 * i + c ∧ 2 * i + c < 2 ^ (d + 1 + 1) := by
      intro c hc
      omega
    split
    · exact ih (by omega) (hchild 1 (le_refl 1)).1 (hchild 1 (le_refl 1)).2 (by omega)
    · exact ih (by omega) (hchild 0 (Nat.zero_le 1)).1 (hchild 0 (Nat.zero_le 1)).2 (by omega)

/-- On a search tree of the splitters, the search ends at the splitter whose index is the rank of
the key. -/
theorem findBktTree32_eq {r : ℕ} (hn : n + 1 = 2 ^ r) (h31 : r ≤ 31)
    (hs : ((List.range n).map splitter).Pairwise (· ≤ ·))
    (htree : inorder (fun i => tree0 (i - 1)) r 1 = (List.range n).map splitter) {fuel : ℕ}
    (hfuel : r < fuel) :
    findBktTree32 splitter n tree0 key fuel =
      some (binsearchBucket splitter n key
        (BitVec.ofNat 32 (rank ((List.range n).map splitter) key))) := by
  let right := fun s : KeyType => decide (s < key)
  have hfirst : (inorder (fun i => tree0 (i - 1)) r 1).Pairwise
      fun a b => right b = true → right a = true := by
    rw [htree]
    refine hs.imp fun hab => ?_
    simp only [right, decide_eq_true_eq]
    exact fun h => hab.trans_lt h
  have hleaf : descend right (fun i => tree0 (i - 1)) r 1 =
      n + 1 + rank ((List.range n).map splitter) key := by
    rw [descend_eq hfirst, htree, one_mul, hn]
    rfl
  have hwalk := treeWalk_eq tree0 key
    (fun i => binsearchBucket splitter n key (i - BitVec.ofNat 32 (n + 1))) hn (Nat.zero_add r) h31
    (i := 1) (by norm_num) (by norm_num) hfuel
  rw [findBktTree32]
  refine hwalk.trans ?_
  rw [hleaf, BitVec.ofNat_add, BitVec.add_comm, BitVec.add_sub_cancel]

/-- The plain binary search ends there, too. -/
theorem findBktBinsearch32_rank (hn : n ≤ 2 ^ 31)
    (hs : ((List.range n).map splitter).Pairwise (· ≤ ·)) {fuel : ℕ} (hfuel : n < fuel) :
    findBktBinsearch32 splitter n key fuel =
      some (binsearchBucket splitter n key
        (BitVec.ofNat 32 (rank ((List.range n).map splitter) key))) := by
  obtain ⟨fuel, rfl⟩ : ∃ f, fuel = f + 1 := ⟨fuel - 1, by omega⟩
  have hle : rank ((List.range n).map splitter) key ≤ n := by
    refine (rank_le_length _ key).trans_eq ?_
    simp
  have hrank : ∀ i, 0 ≤ i → i < n →
      (i < rank ((List.range n).map splitter) key ↔ splitter i < key) := fun i _ hi =>
    lt_rank_iff hs (by simp [hi])
  have hsearch : binarySearch splitter key fuel 0 n = rank ((List.range n).map splitter) key :=
    binarySearch_eq hrank (Nat.zero_le _) hle (by omega)
  rw [← hsearch]
  exact binsearch_eq hn (Nat.zero_le n) (le_refl n) (by omega)

/-- For a key that is above no splitter, the search in a tree of 32 levels goes to the left until
the index wraps to 0, in front of the tree. -/
theorem findBktTree32_wraps (hn : n + 1 = 2 ^ 32)
    (htree : ∀ i, 1 ≤ i → i < n + 1 → key ≤ tree0 (i - 1)) (splitter : ℕ → KeyType) (fuel : ℕ) :
    findBktTree32 splitter n tree0 key fuel = none := by
  -- the search is at node `2 ^ j` of level `j`
  suffices h : ∀ finish : BitVec 32 → BitVec 32, ∀ j ≤ 32,
      whileDo (fun i : BitVec 32 => i.toNat < n + 1) (treeBody n tree0 key) finish fuel
        (BitVec.ofNat 32 (2 ^ j)) = none from h _ 0 (Nat.zero_le 32)
  intro finish
  induction fuel with
  | zero => exact fun _ _ => rfl
  | succ fuel ih =>
    intro j hj
    rw [whileDo, if_pos (hn ▸ BitVec.isLt _)]
    rcases Nat.eq_or_lt_of_le hj with rfl | hlt
    · -- `2 ^ 32` is 0, and `splitter_tree[0]` is not an entry of `splitter_tree0`
      rfl
    · have hpow : 2 ^ j < 2 ^ 32 := Nat.pow_lt_pow_right (by norm_num) hlt
      have hpos := Nat.two_pow_pos j
      have hleft : ¬tree0 (2 ^ j - 1) < key := not_lt.mpr (htree _ hpos (hn ▸ hpow))
      rw [treeBody_eq tree0 key hpow hpos (hn ▸ hpow), if_neg hleft, Option.bind_some, Nat.add_zero,
        ← pow_succ']
      exact ih (j + 1) hlt

end Search

/-! ## The tree and its search -/

section Spec

/-- For splitters that fill a tree, the entries list the splitters in sorted order. -/
theorem levelOrderTree_inorder (splitter tree0 : ℕ → KeyType) {k n : ℕ} (hk : 1 ≤ k)
    (hn : n + 1 = 2 ^ k) {fuel : ℕ} (hfuel : n + 1 < fuel) :
    ∃ s, levelOrderTree splitter n fuel tree0 = some s ∧ s.writes = List.range n ∧
      (∀ i, n ≤ i → s.splitter_tree i = tree0 i) ∧
      inorder (fun i => s.splitter_tree (i - 1)) k 1 = (List.range n).map splitter := by
  obtain ⟨s, hrun, hholds, hlen⟩ := levelOrderTree_holds splitter tree0 hk hn hfuel
  refine ⟨s, hrun, ?_, fun i hi => hholds.rest i (hlen.trans_le hi), ?_⟩
  · rw [hholds.writes_eq, hlen]
  · -- the entries of the array are those of the list that the levels make up
    rw [← inorder_splitterTree splitter hk hn]
    refine inorder_congr fun j hj => ?_
    obtain ⟨h₁, h₂⟩ := (inSubtree_root_iff k j).mp hj
    rw [List.getD_eq_getElem?_getD, hholds.written _ (by omega), Option.getD_some]

/-- For splitters that fill a tree, the loops stay within both arrays although the inner one runs
while `p <= numsplitters`, and write each entry of the tree once.  The entries are a search tree
that lists the splitters in sorted order.  Up to 31 levels, the search in it ends and finds the
bucket that the plain binary search finds. -/
theorem levelOrderTree_spec (k : ℕ) (hk : 1 ≤ k) (splitter tree0 : ℕ → KeyType)
    (hs : ∀ i j, i ≤ j → j < 2 ^ k - 1 → splitter i ≤ splitter j) :
    let n := 2 ^ k - 1
    ∃ fuel₀, ∀ fuel ≥ fuel₀, ∃ s, levelOrderTree splitter n fuel tree0 = some s ∧
      s.writes = List.range n ∧ (∀ i, n ≤ i → s.splitter_tree i = tree0 i) ∧
      inorder (fun i => s.splitter_tree (i - 1)) k 1 = (List.range n).map splitter ∧
      SearchTree (fun i => s.splitter_tree (i - 1)) k 1 ∧
      (k ≤ 31 → ∀ key, ∃ b, findBktTree32 splitter n s.splitter_tree key fuel = some b ∧
        findBktBinsearch32 splitter n key fuel = some b) := by
  intro n
  have hpos := Nat.two_pow_pos k
  have hn : n + 1 = 2 ^ k := by omega
  have hlt : k < n + 1 := hn ▸ Nat.lt_two_pow_self
  have hsorted : ((List.range n).map splitter).Pairwise (· ≤ ·) := by
    refine List.pairwise_map.mpr (List.pairwise_lt_range.imp_of_mem fun _ hj hij => ?_)
    exact hs _ _ hij.le (List.mem_range.mp hj)
  refine ⟨n + 2, fun fuel hfuel => ?_⟩
  obtain ⟨s, hrun, hwrites, hrest, hlist⟩ := levelOrderTree_inorder splitter tree0 hk hn hfuel
  refine ⟨s, hrun, hwrites, hrest, hlist, ?_, fun h31 key => ?_⟩
  · exact (searchTree_iff _ k 1).mpr (hlist ▸ hsorted)
  · have hle : 2 ^ k ≤ 2 ^ 31 := Nat.pow_le_pow_right (by norm_num) h31
    exact ⟨_, findBktTree32_eq hn h31 hsorted hlist (by omega),
      findBktBinsearch32_rank (by omega) hsorted (by omega)⟩

theorem levelOrderTree_spec_two :
    let splitter := fun i => BitVec.ofNat 64 (i / 2)
    let n := 2 ^ 2 - 1
    ∃ fuel₀, ∀ fuel ≥ fuel₀, ∃ s, levelOrderTree splitter n fuel (fun _ => 7) = some s ∧
      s.writes = List.range n ∧ (∀ i, n ≤ i → s.splitter_tree i = 7) ∧
      inorder (fun i => s.splitter_tree (i - 1)) 2 1 = (List.range n).map splitter ∧
      SearchTree (fun i => s.splitter_tree (i - 1)) 2 1 ∧
      (2 ≤ 31 → ∀ key, ∃ b, findBktTree32 splitter n s.splitter_tree key fuel = some b ∧
        findBktBinsearch32 splitter n key fuel = some b) :=
  levelOrderTree_spec 2 (by decide) (fun i => BitVec.ofNat 64 (i / 2)) (fun _ => 7) (by
    intro i j hij hj
    rw [BitVec.le_def, BitVec.toNat_ofNat, BitVec.toNat_ofNat]
    omega)

/-- In a tree of 32 levels of the splitter 0, the search for 0 does not end, whereas the plain
binary search finds its bucket. -/
theorem levelOrderTree_wraps :
    ∃ fuel s, levelOrderTree (fun _ => 0) (2 ^ 32 - 1) fuel (fun _ => 0) = some s ∧
      (∀ fuel, findBktTree32 (fun _ => 0) (2 ^ 32 - 1) s.splitter_tree 0 fuel = none) ∧
      findBktBinsearch32 (fun _ => 0) (2 ^ 32 - 1) 0 33 = some 1 := by
  obtain ⟨s, hrun, -, -, -⟩ := levelOrderTree_inorder (fun _ => 0) (fun _ => 0)
    (show 1 ≤ 32 by decide) (show 2 ^ 32 - 1 + 1 = 2 ^ 32 by decide)
    (show 2 ^ 32 - 1 + 1 < 2 ^ 32 + 1 by decide)
  refine ⟨2 ^ 32 + 1, s, hrun, findBktTree32_wraps (by decide) (fun i _ _ => ?_) _,
    by decide +kernel⟩
  rw [BitVec.le_def]
  exact Nat.zero_le _

end Spec

end StringSampleSort
