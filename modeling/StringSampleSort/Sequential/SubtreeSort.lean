import StringSampleSort.Library.StableDistribute
import StringSampleSort.Sequential.BucketRecursion
import StringSampleSort.Sequential.StandAlone
import StringSampleSort.Sequential.SubtreeBuilder

/-!
# Sample sort with nested splitter trees

Model of `SplitterTree::sort` of `src/sequential/bingmann-sample_sortRBTCE.cpp`.  Strings whose keys
are splitters with many samples are classified by further trees at once, the strings are rearranged
tree by tree, and only then the recursion starts.

## Main results

- `classifyStrings_spec`: the bucket caches after all strings have been classified
- `recursivePermute_spec`: each tree finds its strings in the order of its bucket cache
- `recursiveSort_spec`: strings that have been rearranged by nested trees are sorted
- `sampleSortRBTCE_sorts`: the strings are sorted, whatever numbers are drawn
-/

namespace StringSampleSort

open Library Slice SubtreeBuilder

/-! ## Model -/

/-- `treebits`: `tlx::Log2Floor` of `(l2cache - sizeof(size_t)) / (2 * sizeof(size_t))`. -/
def subtreeBits : ℕ := ((l2cache - 8) / (2 * 8)).log2

/-- `treeid_to_bkt(id, treebits, numsplitters)`; none where the assertion `id > 0` fails. -/
def treeidToBkt (treebits numsplitters id : ℕ) : Option ℕ :=
  if id = 0 then none
  else
    let hi := treebits + TreeCalculations.countHighZeroBits32 id - 32
    some ((id <<< (hi + 1) &&& numsplitters) ||| 1 <<< hi)

namespace SplitterTree

variable (treebits : ℕ) (T : SplitterTree)

/-- `find_bkt_tree_equal(key)`. -/
def findBktTreeEqual (key : KeyType) : Option ℕ :=
  match whileLoop (numsplitters treebits) (equalStep T.tree key) (numsplitters treebits + 1) 1 with
  | .inl i => (treeidToBkt treebits (numsplitters treebits) i).map fun bkt => 2 * bkt - 1
  | .inr i => some (2 * (i - (numsplitters treebits + 1)))

/-- `(b & 1) && (t = splitter_subtree[b / 2]) != 0`: the number of the tree that is attached to
bucket `b`, or zero. -/
def attached (b : ℕ) : ℕ := if b % 2 = 1 then (T.subtree (b / 2)).toNat else 0

end SplitterTree

section Model

variable {mem : ℕ → CharType} (treebits : ℕ)

/-- `treelist[t]->bktcache.push_back(b)`. -/
def pushBucket (caches : ℕ → List ℕ) (t b : ℕ) : ℕ → List ℕ :=
  Function.update caches t (caches t ++ [b])

/-- The loop of step 2.2 over the attached trees, for at most `fuel` rounds; the string is in bucket
`b` of tree `t`, at depth `depth`. -/
def classifyLoop (trees : List SplitterTree) (s : CString mem) :
    ℕ → ℕ → ℕ → ℕ → (ℕ → List ℕ) → Option (ℕ → List ℕ)
  | 0, _, _, _, _ => none
  | fuel + 1, t, depth, b, caches =>
    (trees[t]?).bind fun T =>
    let t := T.attached b
    if t ≠ 0 then
      (trees[t]?).bind fun T =>
      (T.findBktTreeEqual treebits (getChar mem s.ptr (depth + 8))).bind fun b =>
      if b < 2 * numsplitters treebits + 1 then
        classifyLoop trees s fuel t (depth + 8) b (pushBucket caches t b)
      else none
    else some caches

/-- Step 2.2 for one string; the cache with number zero is the array `bktcache`. -/
def classifyString (trees : List SplitterTree) (depth : ℕ) (caches : ℕ → List ℕ) (s : CString mem) :
    Option (ℕ → List ℕ) :=
  (trees[0]?).bind fun T =>
  (T.findBktTreeEqual treebits (getChar mem s.ptr depth)).bind fun b =>
  if b < 2 * numsplitters treebits + 1 then
    classifyLoop treebits trees s 255 0 depth b (pushBucket caches 0 b)
  else none

/-- `bktindex` of `calc_bktsize_prefixsum`. -/
def bktindex (bktsize : ℕ → ℕ) : ℕ → ℕ
  | 0 => 0
  | i + 1 => bktindex bktsize i + bktsize i

/-- `assert(bktindex[bktnum - 1] + bktsize[bktnum - 1] == n)` for a bucket cache. -/
def PrefixSumOk (bktcache : List ℕ) : Prop :=
  bktindex (fun b => bktcache.count b) (2 * numsplitters treebits) +
    bktcache.count (2 * numsplitters treebits) = bktcache.length

instance (bktcache : List ℕ) : Decidable (PrefixSumOk treebits bktcache) :=
  inferInstanceAs (Decidable (_ = _))

/-- A call of `recursive_permute`: the number of its tree and the strings that it is given.  The
depth of the tree is no argument. -/
structure PermuteCall (mem : ℕ → CharType) where
  t : ℕ
  strings : ℕ → CString mem
  n : ℕ
  depth : ℕ

/-- What `recursive_permute` has done: the strings as it leaves them, and the calls that it has
made. -/
abbrev PermuteResult (mem : ℕ → CharType) := (ℕ → CString mem) × List (PermuteCall mem)

/-- Step 4.5 from the even bucket `i` on, which starts at `bsum`, with `pairs` pairs of buckets left;
`permute t` is the call for tree `t`. -/
def permuteSubtrees (permute : ℕ → (ℕ → CString mem) → ℕ → Option (PermuteResult mem))
    (trees : List SplitterTree) (caches : ℕ → List ℕ) (T : SplitterTree) (bktsize : ℕ → ℕ) :
    ℕ → ℕ → ℕ → PermuteResult mem → Option (PermuteResult mem × ℕ × ℕ)
  | 0, i, bsum, r => some (r, i + 1, bsum + bktsize i)
  | pairs + 1, i, bsum, r =>
    (if T.subtree ((i + 1) / 2) ≠ 0 then
      let t := (T.subtree ((i + 1) / 2)).toNat
      -- assert(splitter_subtree[i / 2] < treelist.size()); assert(bktsize[i] == t.bktcache.size());
      if t < trees.length ∧ bktsize (i + 1) = (caches t).length then
        sortWindow (fun A => permute t A (bktsize (i + 1))) (bsum + bktsize i) (bktsize (i + 1)) r
      else none
      else some r).bind fun r =>
    permuteSubtrees permute trees caches T bktsize pairs (i + 2)
      (bsum + bktsize i + bktsize (i + 1)) r

/-- `recursive_permute(strings, n, bktcache, sorted, treelist)` of tree `t`, for at most `nest` trees
inside each other.  `sorted` is written before it is read, so what it holds before does not matter. -/
def recursivePermute (trees : List SplitterTree) (caches : ℕ → List ℕ) :
    ℕ → ℕ → ℕ → (ℕ → CString mem) → ℕ → Option (PermuteResult mem)
  | 0, _, _, _, _ => none
  | nest + 1, t, depth, strings, n =>
    (trees[t]?).bind fun T =>
    let bktcache := caches t
    let bktsize := fun b => bktcache.count b
    let sorted := (distributeInOrder (fun i => bktcache.getD i 0) strings n (bktindex bktsize)
      strings).2
    -- memcpy(strings, sorted, n * sizeof(string));
    (permuteSubtrees (fun t => recursivePermute trees caches nest t (depth + 8)) trees caches T
      bktsize (numsplitters treebits) 0 0
      (splice strings 0 n sorted, [⟨t, strings, n, depth⟩])).bind fun r =>
    -- assert(i == bktnum && bsum == n);
    if r.2.1 = 2 * numsplitters treebits + 1 ∧ r.2.2 = n then some r.1 else none

/-- What steps 1 to 4 leave: the trees, the bucket caches, the strings, and the calls of
`recursive_permute` that they have made. -/
structure NestedLevel (mem : ℕ → CharType) where
  treelist : List SplitterTree
  bktcaches : ℕ → List ℕ
  strings : ℕ → CString mem
  calls : List (PermuteCall mem)

/-- Step 1: the sorted sample; `rng` gives the numbers that `LCGRandom` draws. -/
def sortedPairs (rng : ℕ → ℕ) (strings : ℕ → CString mem) (n depth samplesize : ℕ) :
    ℕ → SamplePair :=
  sortPairs ((List.range samplesize).map fun i =>
    let p := rng i % n
    ⟨getChar mem (strings p).ptr depth, p, depth⟩)

/-- Steps 1 to 4 of `sort(strings, n, depth)`. -/
def nestedLevel (rng : ℕ → ℕ) (strings : ℕ → CString mem) (n depth : ℕ) :
    Option (NestedLevel mem) :=
  let samplesize := oversampleFactor * numsplitters treebits
  let samples := sortedPairs rng strings n depth samplesize
  (build treebits strings 255 depth samples [default] 0 samplesize).bind fun r =>
  let treelist := r.2.1.set 0 r.2.2
  ((contents strings n).foldlM (classifyString treebits treelist depth) fun _ => []).bind
    fun caches =>
  if ∀ t < treelist.length, PrefixSumOk treebits (caches t) then
    (recursivePermute treebits treelist caches 255 0 depth strings n).map fun r =>
      ⟨treelist, caches, r.1, r.2⟩
  else none

/-- The buckets of a tree, as `recursive_sort` sees them. -/
def SplitterTree.level (T : SplitterTree) (bktcache : List ℕ) (strings : ℕ → CString mem) :
    Level mem where
  bktsize b := bktcache.count b
  strings := strings
  less i := (T.lcp i &&& 0x7F).toNat
  done i := decide (T.lcp i &&& 0x80 ≠ 0)

/-- `recursive_sort(strings, n, treelist, depth)` of tree `t`, for at most `nest` trees inside each
other; `sort path` is the call of `sort` on that path. -/
def recursiveSort (trees : List SplitterTree) (caches : ℕ → List ℕ)
    (sort : List ℕ → (ℕ → CString mem) → ℕ → ℕ → Option (SortResult mem)) :
    ℕ → List ℕ → ℕ → (ℕ → CString mem) → ℕ → ℕ → Option (SortResult mem)
  | 0, _, _, _, _, _ => none
  | nest + 1, path, t, strings, n, depth =>
    (trees[t]?).bind fun T =>
    (recursionLoop (fun b A m d =>
        let t := T.attached b
        if t ≠ 0 then
          if t < trees.length then recursiveSort trees caches sort nest (path ++ [b]) t A m d
          else none
        else sort (path ++ [b]) A m d)
      (T.level (caches t) strings) depth (numsplitters treebits) 0 0 (strings, [])).bind fun r =>
    -- assert(i == bktnum && bsum == n);
    if r.2.1 = 2 * numsplitters treebits + 1 ∧ r.2.2 = n then some r.1 else none

/-- `SplitterTree::sort(strings, n, depth)` with `find_bkt_tree_equal`, for at most `fuel` levels of
recursion.  The random numbers depend on the path to the call, since `LCGRandom` is seeded with a
stack address.  No result means that an assertion fails or that a builder reads a key that has been
replaced. -/
def sortNested (rng : List ℕ → ℕ → ℕ) :
    ℕ → List ℕ → (ℕ → CString mem) → ℕ → ℕ → Option (SortResult mem)
  | 0, _, _, _, _ => none
  | fuel + 1, path, strings, n, depth =>
    if n < samplesortSmallsort then
      (msdCI fuel strings n depth).map fun r => (r.1, ⟨strings, n, depth⟩ :: r.2)
    else
      (nestedLevel treebits (rng path) strings n depth).bind fun lv =>
      (recursiveSort treebits lv.treelist lv.bktcaches (sortNested rng fuel) 255 path 0 lv.strings n
        depth).map fun r => (r.1, ⟨strings, n, depth⟩ :: r.2)

/-- `bingmann_sample_sortRBTCE(strings, n)`. -/
def bingmannSampleSortRBTCE (rng : List ℕ → ℕ → ℕ) (fuel : ℕ) (strings : ℕ → CString mem) (n : ℕ) :
    Option (SortResult mem) :=
  sortNested subtreeBits rng fuel [] strings n 0

end Model

/-! ## Buckets -/

section BucketOf

variable {treebits : ℕ} {T : SplitterTree}

theorem SplitterTree.findBktTreeEqual_eq (treebits : ℕ) (T : SplitterTree) (key : KeyType) :
    T.findBktTreeEqual treebits key = equalBucket treebits (locate T.tree key treebits 1) := by
  rw [findBktTreeEqual, whileLoop_root (goesDown_equalStep _ _), unrolledSteps_equalStep]
  cases locate T.tree key treebits 1 with
  | inl i => rfl
  | inr i => rfl

/-- The bucket of a key; there always is one. -/
def SplitterTree.bucket (treebits : ℕ) (T : SplitterTree) (key : KeyType) : ℕ :=
  (T.findBktTreeEqual treebits key).getD 0

theorem SplitterTree.bucket_spec (ht : treebits ≤ 32)
    (hs : (splitterList treebits T.tree).Pairwise (· ≤ ·)) (key : KeyType) :
    T.findBktTreeEqual treebits key = some (T.bucket treebits key) ∧
      IsBucket (splitterList treebits T.tree) key (T.bucket treebits key) := by
  obtain ⟨b, hb, hbucket⟩ := equalBucket_locate ht hs key
  rw [← findBktTreeEqual_eq] at hb
  rw [bucket, hb]
  exact ⟨rfl, hbucket⟩

theorem SplitterTree.bucket_lt (ht : treebits ≤ 32)
    (hs : (splitterList treebits T.tree).Pairwise (· ≤ ·)) (key : KeyType) :
    T.bucket treebits key < 2 * numsplitters treebits + 1 := by
  have h := (bucket_spec ht hs key).2.lt
  rwa [length_splitterList] at h

/-- A tree is attached to an odd bucket. -/
theorem SplitterTree.attached_odd {b j : ℕ} (hb : b = 2 * j + 1) :
    T.attached b = (T.subtree j).toNat := by
  rw [attached, if_pos (by omega), show b / 2 = j by omega]

theorem SplitterTree.attached_ne_zero {b : ℕ} (h : T.attached b ≠ 0) :
    ∃ j, b = 2 * j + 1 ∧ T.subtree j ≠ 0 := by
  rw [attached] at h
  split at h
  · next hodd =>
    refine ⟨b / 2, by omega, fun h0 => h ?_⟩
    rw [h0]
    rfl
  · exact absurd rfl h

theorem bktindex_eq (size : ℕ → ℕ) (i : ℕ) : bktindex size i = bucketStart size i := by
  induction i with
  | zero => rfl
  | succ i ih => rw [bktindex, bucketStart_succ, ih]

end BucketOf

/-! ## Classifying -/

section Classify

variable {mem : ℕ → CharType} {treebits : ℕ} {strings : ℕ → CString mem}
  {trees : List SplitterTree} {nest t e depth : ℕ} {P : ℕ → Prop} {T : SplitterTree} {ends : ℕ → ℕ}

/-- The trees that a string passes from tree `t` on, with its buckets. -/
def route (treebits : ℕ) (trees : List SplitterTree) (s : CString mem) :
    ℕ → ℕ → ℕ → List (ℕ × ℕ)
  | 0, _, _ => []
  | nest + 1, t, depth =>
    let T := trees.getD t default
    let b := T.bucket treebits (getChar mem s.ptr depth)
    (t, b) :: if T.attached b ≠ 0 then route treebits trees s nest (T.attached b) (depth + 8) else []

/-- The buckets in tree `t`. -/
def entries (l : List (ℕ × ℕ)) (t : ℕ) : List ℕ :=
  (l.filter fun x => decide (x.1 = t)).map Prod.snd

theorem entries_cons (x : ℕ × ℕ) (l : List (ℕ × ℕ)) (t : ℕ) :
    entries (x :: l) t = if x.1 = t then x.2 :: entries l t else entries l t := by
  rw [entries, List.filter_cons]
  by_cases h : x.1 = t
  · rw [if_pos h, if_pos (decide_eq_true h)]
    rfl
  · rw [if_neg h, if_neg (by simpa using h)]
    rfl

theorem entries_eq_nil {l : List (ℕ × ℕ)} (h : ∀ x ∈ l, x.1 ≠ t) : entries l t = [] := by
  rw [entries, List.filter_eq_nil_iff.mpr fun x hx => by simpa using h x hx]
  rfl

theorem pushBucket_apply (caches : ℕ → List ℕ) (t b : ℕ) (l : List (ℕ × ℕ)) :
    (fun t' => pushBucket caches t b t' ++ entries l t') =
      fun t' => caches t' ++ entries ((t, b) :: l) t' := by
  funext t'
  rw [entries_cons, pushBucket]
  by_cases h : t = t'
  · subst h
    rw [Function.update_self, if_pos rfl, List.append_assoc, List.singleton_append]
  · rw [Function.update_of_ne (Ne.symm h), if_neg h]

theorem route_succ (h : trees[t]? = some T) (s : CString mem) :
    route treebits trees s (nest + 1) t depth =
      (t, T.bucket treebits (getChar mem s.ptr depth)) ::
        if T.attached (T.bucket treebits (getChar mem s.ptr depth)) ≠ 0 then
          route treebits trees s nest (T.attached (T.bucket treebits (getChar mem s.ptr depth)))
            (depth + 8)
        else [] := by
  rw [route, List.getD_eq_getElem?_getD, h]
  rfl

/-- The tree that is attached to a bucket is below a splitter. -/
theorem SubtreeBuilder.HasChildren.attached
    (h : HasChildren treebits strings trees nest t e depth P T ends) {b : ℕ}
    (hb : b < 2 * numsplitters treebits + 1) (hne : T.attached b ≠ 0) :
    ∃ j < numsplitters treebits, b = 2 * j + 1 ∧ T.subtree j ≠ 0 ∧ T.attached b = ends j ∧
      Nested treebits strings trees nest (ends j) (ends (j + 1)) (depth + 8) fun p =>
        P p ∧ getChar mem (strings p).ptr depth = (splitterList treebits T.tree).getD j 0 := by
  obtain ⟨j, hj, hsub⟩ := SplitterTree.attached_ne_zero hne
  refine ⟨j, by omega, hj, hsub, ?_⟩
  rcases h.child j (by omega) with ⟨h0, -⟩ | ⟨-, hval, -, -, -, hN⟩
  · exact absurd h0 hsub
  · exact ⟨(SplitterTree.attached_odd hj).trans hval, hN⟩

/-- A string passes trees of the range only, and it is in a bucket of each. -/
theorem route_mem (ht : treebits ≤ 32) (h : Nested treebits strings trees nest t e depth P)
    (s : CString mem) : ∀ x ∈ route treebits trees s nest t depth,
      t ≤ x.1 ∧ x.1 < e ∧ x.2 < 2 * numsplitters treebits + 1 := by
  induction nest generalizing t e depth P with
  | zero => exact h.elim
  | succ nest ih =>
    have hlt := h.lt
    obtain ⟨T, ends, hc⟩ := h.hasChildren
    intro x hx
    rw [route_succ hc.tree] at hx
    rcases List.mem_cons.mp hx with rfl | hx
    · exact ⟨le_refl _, hlt, SplitterTree.bucket_lt ht hc.ok.sorted _⟩
    · split at hx
      · next hne =>
        obtain ⟨j, hj, -, -, hval, hN⟩ := hc.attached (SplitterTree.bucket_lt ht hc.ok.sorted _) hne
        rw [hval] at hx
        have hin := ih hN x hx
        have hfirst := hc.mono (Nat.zero_le j) hj.le
        have hlast := hc.mono (show j + 1 ≤ _ from hj) (le_refl _)
        rw [hc.first] at hfirst
        rw [hc.last] at hlast
        omega
      · exact absurd hx List.not_mem_nil

/-- The loop over the attached trees pushes the buckets behind the first one. -/
theorem classifyLoop_spec (ht : treebits ≤ 32)
    (h : Nested treebits strings trees nest t e depth P) (s : CString mem) (hT : trees[t]? = some T)
    (caches : ℕ → List ℕ) :
    classifyLoop treebits trees s nest t depth (T.bucket treebits (getChar mem s.ptr depth))
        (pushBucket caches t (T.bucket treebits (getChar mem s.ptr depth))) =
      some fun t' => caches t' ++ entries (route treebits trees s nest t depth) t' := by
  induction nest generalizing t e depth P T caches with
  | zero => exact h.elim
  | succ nest ih =>
    obtain ⟨T', ends, hc⟩ := h.hasChildren
    obtain rfl : T' = T := Option.some_inj.mp (hc.tree.symm.trans hT)
    rw [classifyLoop, hT, Option.bind_some, route_succ hT]
    dsimp only
    split
    · next hne =>
      obtain ⟨j, hj, -, -, hval, hN⟩ := hc.attached (SplitterTree.bucket_lt ht hc.ok.sorted _) hne
      obtain ⟨T₂, hT₂, hok₂⟩ := hN.exists_tree
      rw [hval, hT₂, Option.bind_some, (SplitterTree.bucket_spec ht hok₂.sorted _).1,
        Option.bind_some, if_pos (SplitterTree.bucket_lt ht hok₂.sorted _), ih hN hT₂,
        pushBucket_apply]
    · rw [Option.some_inj, ← pushBucket_apply]
      exact funext fun t' => (List.append_nil _).symm

theorem classifyString_spec (ht : treebits ≤ 32) (h : Nested treebits strings trees 255 0 e depth P)
    (caches : ℕ → List ℕ) (s : CString mem) :
    classifyString treebits trees depth caches s =
      some fun t => caches t ++ entries (route treebits trees s 255 0 depth) t := by
  obtain ⟨T, hT, hok⟩ := h.exists_tree
  rw [classifyString, hT, Option.bind_some, (SplitterTree.bucket_spec ht hok.sorted _).1,
    Option.bind_some, if_pos (SplitterTree.bucket_lt ht hok.sorted _), classifyLoop_spec ht h s hT]

/-- The bucket caches hold the buckets of the strings that pass their trees, in the order of the
strings. -/
theorem classifyStrings_spec (ht : treebits ≤ 32)
    (h : Nested treebits strings trees 255 0 e depth P) (l : List (CString mem))
    (caches : ℕ → List ℕ) :
    l.foldlM (classifyString treebits trees depth) caches =
      some fun t => caches t ++
        l.flatMap fun s => entries (route treebits trees s 255 0 depth) t := by
  induction l generalizing caches with
  | nil =>
    rw [List.foldlM_nil]
    exact congrArg some (funext fun t => (List.append_nil _).symm)
  | cons s l ih =>
    rw [List.foldlM_cons, classifyString_spec ht h]
    refine (ih _).trans (congrArg some (funext fun t => ?_))
    rw [List.flatMap_cons, List.append_assoc]

/-- The caches of the trees from `t` to `e` are those for the strings `W`. -/
def CachesFor (treebits : ℕ) (trees : List SplitterTree) (caches : ℕ → List ℕ) (nest t e depth : ℕ)
    (W : List (CString mem)) : Prop :=
  ∀ t', t ≤ t' → t' < e →
    caches t' = W.flatMap fun s => entries (route treebits trees s nest t depth) t'

variable {caches : ℕ → List ℕ} {W : List (CString mem)}

/-- The cache of a tree holds one bucket for each string. -/
theorem CachesFor.self (ht : treebits ≤ 32)
    (h : CachesFor treebits trees caches (nest + 1) t e depth W) (hlt : t < e)
    (hc : HasChildren treebits strings trees nest t e depth P T ends) :
    caches t = W.map fun s => T.bucket treebits (getChar mem s.ptr depth) := by
  rw [h t (le_refl t) hlt, List.map_eq_flatMap]
  refine List.flatMap_congr fun s _ => ?_
  rw [route_succ hc.tree, entries_cons, if_pos rfl]
  refine congrArg _ (entries_eq_nil fun x hx => ?_)
  split at hx
  · next hne =>
    obtain ⟨j, hj, -, -, hval, hN⟩ := hc.attached (SplitterTree.bucket_lt ht hc.ok.sorted _) hne
    rw [hval] at hx
    have hin := route_mem ht hN s x hx
    have hfirst := hc.mono (Nat.zero_le j) hj.le
    rw [hc.first] at hfirst
    omega
  · exact absurd hx List.not_mem_nil

theorem CachesFor.length_eq (ht : treebits ≤ 32)
    (h : CachesFor treebits trees caches nest t e depth W)
    (hN : Nested treebits strings trees nest t e depth P) : (caches t).length = W.length := by
  cases nest with
  | zero => exact hN.elim
  | succ nest =>
    have hlt := hN.lt
    obtain ⟨T, ends, hc⟩ := hN.hasChildren
    rw [h.self ht hlt hc, List.length_map]

theorem flatMap_filter {α β : Type*} (q : α → Bool) (f : α → List β) (l : List α) :
    (l.filter q).flatMap f = l.flatMap fun x => if q x then f x else [] := by
  induction l with
  | nil => rfl
  | cons x l ih =>
    rw [List.filter_cons, List.flatMap_cons]
    split
    · rw [List.flatMap_cons, ih]
    · rw [ih, List.nil_append]

/-- The caches of the trees below a splitter are those for the strings of its bucket. -/
theorem CachesFor.child (ht : treebits ≤ 32)
    (h : CachesFor treebits trees caches (nest + 1) t e depth W)
    (hc : HasChildren treebits strings trees nest t e depth P T ends) {j : ℕ}
    (hj : j < numsplitters treebits) (hsub : T.subtree j ≠ 0) :
    CachesFor treebits trees caches nest (ends j) (ends (j + 1)) (depth + 8)
      (W.filter fun s => decide (T.bucket treebits (getChar mem s.ptr depth) = 2 * j + 1)) := by
  intro t' hlo hhi
  have hfirst := hc.mono (Nat.zero_le j) hj.le
  have hlast := hc.mono (show j + 1 ≤ _ from hj) (le_refl _)
  rw [hc.first] at hfirst
  rw [hc.last] at hlast
  rw [h t' (by omega) (by omega), flatMap_filter]
  refine List.flatMap_congr fun s _ => ?_
  rw [route_succ hc.tree, entries_cons, if_neg (by dsimp only; omega)]
  by_cases hb : T.bucket treebits (getChar mem s.ptr depth) = 2 * j + 1
  · have hval : T.attached (2 * j + 1) = ends j := by
      rcases hc.child j hj with ⟨h0, -⟩ | ⟨-, hval, -⟩
      · exact absurd h0 hsub
      · exact (SplitterTree.attached_odd rfl).trans hval
    have hne : T.attached (2 * j + 1) ≠ 0 := by omega
    rw [hb, if_pos hne, if_pos (decide_eq_true rfl), hval]
  · -- a string of another bucket passes trees below another splitter
    have hfalse : ¬ decide (T.bucket treebits (getChar mem s.ptr depth) = 2 * j + 1) = true := by
      simpa using hb
    rw [if_neg hfalse]
    refine entries_eq_nil fun x hx => ?_
    split at hx
    · next hne =>
      obtain ⟨i, hi, hbi, -, hval, hN⟩ :=
        hc.attached (SplitterTree.bucket_lt ht hc.ok.sorted _) hne
      rw [hval] at hx
      have hin := route_mem ht hN s x hx
      rcases Nat.lt_trichotomy i j with hlt | rfl | hgt
      · have := hc.mono (show i + 1 ≤ j from hlt) hj.le
        omega
      · exact absurd hbi hb
      · have := hc.mono (show j + 1 ≤ i from hgt) hi.le
        omega
    · exact absurd hx List.not_mem_nil

end Classify

/-! ## Permuting -/

/-- Only the strings of the range matter. -/
theorem Arranged.congr_sorted {S : Type} {chars : S → List CharType} {strings sorted sorted' : ℕ → S}
    {n depth : ℕ} {ss : List KeyType} {bkt : KeyType → ℕ} {size : ℕ → ℕ}
    (h : Arranged chars strings n depth ss bkt size sorted) (heq : ∀ p < n, sorted p = sorted' p) :
    Arranged chars strings n depth ss bkt size sorted' where
  bucketed := h.bucketed
  perm := contents_congr heq ▸ h.perm
  total := h.total
  bucket b hb p hp := by
    rw [← heq p (h.lt_size hb hp)]
    exact h.bucket b hb p hp

section Permute

variable {mem : ℕ → CharType} (treebits : ℕ) (trees : List SplitterTree) (caches : ℕ → List ℕ)

/-- The bucket cache of the tree has one entry for each string, which classifies it. -/
def PermuteCall.Ok (c : PermuteCall mem) : Prop :=
  (caches c.t).length = c.n ∧ ∃ T, trees[c.t]? = some T ∧ ∀ k < c.n,
    (caches c.t)[k]? = T.findBktTreeEqual treebits (getChar mem (c.strings k).ptr c.depth)

/-- The strings have been rearranged by the buckets of tree `t`, and those of a bucket with a tree of
its own by that tree. -/
def Settled : ℕ → ℕ → ℕ → (ℕ → CString mem) → ℕ → Prop
  | 0, _, _, _, _ => False
  | nest + 1, t, depth, A, n => ∃ T strings ss bkt, trees[t]? = some T ∧
      (T.level (caches t) A).Ok (numsplitters treebits) strings n depth ss bkt ∧
      ∀ j < numsplitters treebits, T.subtree j ≠ 0 → (T.subtree j).toNat < trees.length ∧
        (0 < (caches t).count (2 * j + 1) → Settled nest (T.subtree j).toNat (depth + 8)
          (fun k => A (bucketStart (fun b => (caches t).count b) (2 * j + 1) + k))
          ((caches t).count (2 * j + 1)))

variable {treebits trees caches}

theorem Settled.congr {nest t depth n : ℕ} {A A' : ℕ → CString mem}
    (h : Settled treebits trees caches nest t depth A n) (heq : ∀ k < n, A k = A' k) :
    Settled treebits trees caches nest t depth A' n := by
  induction nest generalizing t depth A A' n with
  | zero => exact h.elim
  | succ nest ih =>
    obtain ⟨T, strings, ss, bkt, hT, hok, hsub⟩ := h
    refine ⟨T, strings, ss, bkt, hT,
      ⟨hok.arranged.congr_sorted heq, hok.length_eq, hok.less_eq, hok.done_iff⟩, fun j hj hne => ?_⟩
    obtain ⟨hlt, hsettled⟩ := hsub j hj hne
    refine ⟨hlt, fun hpos => ih (hsettled hpos) fun k hk => heq _ ?_⟩
    have hlen := hok.length_eq
    exact hok.arranged.lt_size (b := 2 * j + 1) (by omega)
      ⟨Nat.le_add_right .., Nat.add_lt_add_left hk _⟩

theorem range'_append_range' {a b c : ℕ} (hab : a ≤ b) (hbc : b ≤ c) :
    List.range' a (b - a) ++ List.range' b (c - b) = List.range' a (c - a) := by
  obtain ⟨m, rfl⟩ := Nat.exists_eq_add_of_le hab
  obtain ⟨n, rfl⟩ := Nat.exists_eq_add_of_le hbc
  rw [Nat.add_sub_cancel_left, Nat.add_sub_cancel_left, List.range'_append_1, Nat.add_assoc,
    Nat.add_sub_cancel_left]

/-- Step 4.5 rearranges the buckets with trees of their own, and goes through all trees in the order
of their numbers. -/
theorem permuteSubtrees_spec
    (permute : ℕ → (ℕ → CString mem) → ℕ → Option (PermuteResult mem)) (T : SplitterTree)
    (ends size : ℕ → ℕ) (A : ℕ → CString mem) (post : ℕ → (ℕ → CString mem) → Prop)
    (good : PermuteCall mem → Prop)
    (hpost : ∀ j C C', (∀ k < size (2 * j + 1), C k = C' k) → post j C → post j C')
    (hchild : ∀ j < numsplitters treebits, (T.subtree j = 0 ∧ ends (j + 1) = ends j) ∨
      (T.subtree j ≠ 0 ∧ (T.subtree j).toNat < trees.length ∧
        size (2 * j + 1) = (caches (T.subtree j).toNat).length ∧ ends j ≤ ends (j + 1) ∧
        ∃ r, permute (T.subtree j).toNat (fun k => A (bucketStart size (2 * j + 1) + k))
            (size (2 * j + 1)) = some r ∧
          (contents r.1 (size (2 * j + 1))).Perm
            (slice A (bucketStart size (2 * j + 1)) (size (2 * j + 1))) ∧
          (∀ c ∈ r.2, good c) ∧
          r.2.map PermuteCall.t = List.range' (ends j) (ends (j + 1) - ends j) ∧ post j r.1))
    {t pairs j : ℕ} {r : PermuteResult mem} (hj : j + pairs = numsplitters treebits)
    (hdone : DoneBelow (fun b B => ∀ j, b = 2 * j + 1 → T.subtree j ≠ 0 → post j B) size A (2 * j)
      r.1) (hlog : ∀ c ∈ r.2, good c) (hle : t ≤ ends j)
    (hts : r.2.map PermuteCall.t = List.range' t (ends j - t)) :
    ∃ r', permuteSubtrees permute trees caches T size pairs (2 * j) (bucketStart size (2 * j)) r =
        some (r', 2 * numsplitters treebits + 1, bucketStart size (2 * numsplitters treebits + 1)) ∧
      DoneBelow (fun b B => ∀ j, b = 2 * j + 1 → T.subtree j ≠ 0 → post j B) size A
        (2 * numsplitters treebits + 1) r'.1 ∧ (∀ c ∈ r'.2, good c) ∧
      r'.2.map PermuteCall.t = List.range' t (ends (numsplitters treebits) - t) := by
  induction pairs generalizing j r with
  | zero =>
    obtain rfl : j = numsplitters treebits := hj
    refine ⟨r, ?_, hdone.skip fun i hi => by omega, hlog, hts⟩
    rw [permuteSubtrees, bucketStart_succ]
  | succ pairs ih =>
    have heven := hdone.skip fun i hi => by omega
    rw [permuteSubtrees, show (2 * j + 1) / 2 = j by omega, ← bucketStart_succ, ← bucketStart_succ]
    rcases hchild j (by omega) with ⟨h0, hends⟩ | ⟨hne, hlt, hlen, hmono, q, hq, hperm, hgood, hq_ts,
      hq_post⟩
    · -- no tree of its own
      rw [if_neg (not_not.mpr h0), Option.bind_some]
      refine ih (j := j + 1) (by omega) (heven.skip fun i hi hne => ?_) hlog (hends ▸ hle)
        (hends ▸ hts)
      obtain rfl : i = j := by omega
      exact absurd h0 hne
    · rw [if_pos hne]
      dsimp only
      rw [if_pos ⟨hlt, hlen⟩, sortWindow, heven.view, hq, Option.map_some, Option.bind_some]
      refine ih (j := j + 1) (by omega)
        (heven.splice (fun b C C' hC hCpost i hi hne' => ?_) hperm fun i hi _ => ?_)
        (fun c hc => ?_) (hle.trans hmono) ?_
      · subst hi
        exact hpost i C C' hC (hCpost i rfl hne')
      · obtain rfl : i = j := by omega
        exact hq_post
      · exact (List.mem_append.mp hc).elim (hlog c) (hgood c)
      · rw [List.map_append, hts, hq_ts, range'_append_range' hle hmono]

end Permute

/-! ## The trees find their strings -/

section Trees

variable {mem : ℕ → CharType} {treebits : ℕ} {strings : ℕ → CString mem}
  {trees : List SplitterTree} {caches : ℕ → List ℕ} {nest t e depth n : ℕ} {P : ℕ → Prop}
  {T : SplitterTree} {ends : ℕ → ℕ} {A : ℕ → CString mem}

/-- The buckets of a tree with its bucket cache: as large as the number of strings in them, and the
distribution puts the strings into them in their order. -/
theorem distribute_cache
    (hcache : caches t = (contents A n).map fun s => T.bucket treebits (getChar mem s.ptr depth))
    (hbound : ∀ key, T.bucket treebits key < 2 * numsplitters treebits + 1) :
    let size := fun b => (caches t).count b
    let B := splice A 0 n (distributeInOrder (fun i => (caches t).getD i 0) A n (bktindex size) A).2
    bucketStart size (2 * numsplitters treebits + 1) = n ∧
      (contents B n).Perm (contents A n) ∧
      ∀ b < 2 * numsplitters treebits + 1, slice B (bucketStart size b) (size b) =
        (contents A n).filter fun s => decide (T.bucket treebits (getChar mem s.ptr depth) = b) := by
  intro size B
  let cls := fun i => (caches t).getD i 0
  have hcls : ∀ i < n, cls i = T.bucket treebits (getChar mem (A i).ptr depth) := fun i hi => by
    simp [cls, hcache, contents, hi]
  have hcontents : contents cls n = caches t := by
    rw [hcache, contents, contents, List.map_map]
    exact List.map_congr_left fun i hi => hcls i (List.mem_range.mp hi)
  have hsize : ∀ b, size b = (classOf cls A n b).length := fun b => by
    rw [length_classOf, hcontents]
  have htotal : bucketStart size (2 * numsplitters treebits + 1) = n := by
    have h := (tallies_count (fun s => T.bucket treebits (getChar mem s.ptr depth)) A
      fun p (_ : p < n) => hbound _).total
    rwa [← hcache] at h
  have hB : ∀ p < n, B p = (distributeInOrder cls A n (bucketStart size) A).2 p := fun p hp => by
    simp only [B, ← funext (bktindex_eq size)]
    have h := splice_add A (distributeInOrder cls A n (bktindex size) A).2 0 hp
    rwa [Nat.zero_add] at h
  refine ⟨htotal, ?_, fun b hb => ?_⟩
  · rw [contents_congr hB]
    exact distributeInOrder_perm hsize htotal fun i hi => hcls i hi ▸ hbound _
  · have hend := bucketEnd_le size hb
    rw [htotal] at hend
    rw [slice_congr fun p hp => hB p (hp.2.trans_le hend), slice_distributeInOrder hsize, classOf,
      contents, List.filter_map]
    refine congrArg _ (List.filter_congr fun i hi => ?_)
    rw [hcls i (List.mem_range.mp hi)]
    rfl

/-- A range that holds the strings that a tree has been built from is arranged by its buckets. -/
theorem arranged_of_slices (ht : treebits ≤ 32) {B : ℕ → CString mem} {size : ℕ → ℕ}
    (hok : TreeOk treebits strings P depth T)
    (hshare : SharesDepth (UCharStringSet mem).chars A n depth)
    (hsamples : ∀ p, P p → strings p ∈ contents A n) (hperm : (contents B n).Perm (contents A n))
    (htotal : bucketStart size (2 * numsplitters treebits + 1) = n)
    (hslice : ∀ b < 2 * numsplitters treebits + 1, (slice B (bucketStart size b) (size b)).Perm
      ((contents A n).filter fun s => decide (T.bucket treebits (getChar mem s.ptr depth) = b))) :
    Arranged (UCharStringSet mem).chars A n depth (splitterList treebits T.tree)
      (T.bucket treebits) size B := by
  have hlen := length_splitterList treebits T.tree
  have hbucketed : Bucketed (InRange (UCharStringSet mem).chars A n) depth
      (splitterList treebits T.tree) (T.bucket treebits) := by
    refine bucketed_of_keys hshare hok.sorted (fun k hk => ?_)
      fun key => (SplitterTree.bucket_spec ht hok.sorted key).2
    obtain ⟨p, hp, rfl⟩ := hok.splitter k hk
    obtain ⟨q, hq, heq⟩ := mem_contents.mp (hsamples p hp)
    exact ⟨q, hq, by rw [heq]⟩
  refine hbucketed.arranged hshare hperm (hlen.symm ▸ htotal) fun b hb p hlo hhi => ?_
  have hmem := (hslice b (hlen ▸ hb)).mem_iff.mp (mem_slice.mpr ⟨p, ⟨hlo, hhi⟩, rfl⟩)
  exact of_decide_eq_true (List.mem_filter.mp hmem).2

/-- The samples of a subtree are strings of its bucket, when there are any. -/
theorem samples_of_bucket (ht : treebits ≤ 32) (hok : TreeOk treebits strings P depth T)
    (hsamples : ∀ p, P p → strings p ∈ contents A n) {j : ℕ} {s : CString mem}
    (hs : T.bucket treebits (getChar mem s.ptr depth) = 2 * j + 1) {p : ℕ} (hp : P p)
    (hkey : getChar mem (strings p).ptr depth = (splitterList treebits T.tree).getD j 0) :
    strings p ∈ (contents A n).filter fun s =>
      decide (T.bucket treebits (getChar mem s.ptr depth) = 2 * j + 1) := by
  refine List.mem_filter.mpr ⟨hsamples p hp, decide_eq_true ?_⟩
  rcases (SplitterTree.bucket_spec ht hok.sorted (getChar mem s.ptr depth)).2 with
    ⟨i, hi, hget⟩ | ⟨-, hi⟩
  · obtain rfl : i = j := by omega
    rwa [hkey, List.getD_eq_getElem?_getD, hget, Option.getD_some]
  · omega

/-- Each tree from `t` to `e` is given its strings in the order of its bucket cache, and when the
strings share their depth, they are left for `recursive_sort`. -/
theorem recursivePermute_spec (ht : treebits ≤ 32)
    (h : Nested treebits strings trees nest t e depth P) (caches : ℕ → List ℕ)
    (hcaches : CachesFor treebits trees caches nest t e depth (contents A n)) :
    ∃ r, recursivePermute treebits trees caches nest t depth A n = some r ∧
      (contents r.1 n).Perm (contents A n) ∧ (∀ c ∈ r.2, c.Ok treebits trees caches) ∧
      r.2.map PermuteCall.t = List.range' t (e - t) ∧
      (SharesDepth (UCharStringSet mem).chars A n depth → (∀ p, P p → strings p ∈ contents A n) →
        Settled treebits trees caches nest t depth r.1 n) := by
  induction nest generalizing t e depth P A n with
  | zero => exact h.elim
  | succ nest ih =>
    have hlt := h.lt
    obtain ⟨T, ends, hc⟩ := h.hasChildren
    have hlen := length_splitterList treebits T.tree
    have hbound := SplitterTree.bucket_lt ht hc.ok.sorted
    have hcache := hcaches.self ht hlt hc
    obtain ⟨htotal, hperm, hslice⟩ := distribute_cache hcache hbound
    let size := fun b => (caches t).count b
    let B := splice A 0 n
      (distributeInOrder (fun i => (caches t).getD i 0) A n (bktindex size) A).2
    change bucketStart size _ = n at htotal
    change (contents B n).Perm _ at hperm
    change ∀ b < _, slice B (bucketStart size b) (size b) = _ at hslice
    -- what the strings are left for, once the buckets before are done
    let post := fun (j : ℕ) (C : ℕ → CString mem) => 0 < size (2 * j + 1) →
      SharesDepth (UCharStringSet mem).chars A n depth →
      (∀ p, P p → strings p ∈ contents A n) →
      Settled treebits trees caches nest (T.subtree j).toNat (depth + 8) C (size (2 * j + 1))
    obtain ⟨r, hr, hdone, hgood, hts⟩ := permuteSubtrees_spec
      (fun t => recursivePermute treebits trees caches nest t (depth + 8)) T ends size B post
      (fun c => c.Ok treebits trees caches) (t := t) (j := 0) (r := (B, [⟨t, A, n, depth⟩]))
      (fun j C C' hC hpost hpos hshare hsamples => (hpost hpos hshare hsamples).congr hC)
      (fun j hj => by
        rcases hc.child j hj with h0 | ⟨hne, hval, -, -, hlow, hN⟩
        · exact Or.inl h0
        · have hchild := hcaches.child ht hc hj hne
          have hwindow := hslice (2 * j + 1) (by omega)
          rw [← hwindow] at hchild
          obtain ⟨T', hT', -⟩ := hN.exists_tree
          obtain ⟨r, hr, hrperm, hrgood, hrts, hrsettled⟩ := ih hN hchild
          refine Or.inr ⟨hne, ?_, ?_, hN.lt.le, r, hval.symm ▸ hr, hrperm, hrgood, hrts, ?_⟩
          · rw [hval]
            exact (List.getElem?_eq_some_iff.mp hT').1
          · rw [hval, hchild.length_eq ht hN, length_slice]
          · intro hpos hshare hsamples
            have harranged := arranged_of_slices ht hc.ok hshare hsamples hperm htotal
              fun b hb => List.Perm.of_eq (hslice b hb)
            -- some string of the bucket has the key of the splitter
            have hmem : B (bucketStart size (2 * j + 1)) ∈
                slice B (bucketStart size (2 * j + 1)) (size (2 * j + 1)) :=
              mem_slice.mpr ⟨_, ⟨le_refl _, by omega⟩, rfl⟩
            rw [hwindow] at hmem
            have hs := of_decide_eq_true (List.mem_filter.mp hmem).2
            rw [hval]
            refine hrsettled (harranged.odd_share (by omega) hlow) fun p hp => ?_
            change strings p ∈ slice B (bucketStart size (2 * j + 1)) (size (2 * j + 1))
            rw [hwindow]
            exact samples_of_bucket ht hc.ok hsamples hs hp.1 hp.2)
      (Nat.zero_add _) (doneBelow_zero _ _ _) (fun c hmem => by
        rw [List.mem_singleton.mp hmem]
        refine ⟨by rw [hcache, List.length_map, length_contents], T, hc.tree, fun k hk => ?_⟩
        rw [hcache, (SplitterTree.bucket_spec ht hc.ok.sorted _).1]
        simp [contents, hk])
      (by rw [hc.first]; exact Nat.le_succ t)
      (by rw [hc.first, Nat.add_sub_cancel_left]; rfl)
    rw [htotal] at hr
    refine ⟨r, ?_, ?_, hgood, hc.last ▸ hts, fun hshare hsamples => ?_⟩
    · rw [recursivePermute, hc.tree, Option.bind_some]
      exact (congrArg (fun o => Option.bind o _) hr).trans (if_pos ⟨rfl, rfl⟩)
    · have hrperm := hdone.contents_perm
      rw [htotal] at hrperm
      exact hrperm.trans hperm
    · have hrperm := hdone.contents_perm
      rw [htotal] at hrperm
      refine ⟨T, A, splitterList treebits T.tree, T.bucket treebits, hc.tree,
        ⟨arranged_of_slices ht hc.ok hshare hsamples (hrperm.trans hperm) htotal fun b hb =>
          (hdone.perm b hb).trans (List.Perm.of_eq (hslice b hb)), hlen, hc.ok.less, fun i hi =>
          decide_eq_true_iff.trans (hc.ok.done i hi)⟩, fun j hj hne => ?_⟩
      rcases hc.child j hj with ⟨h0, -⟩ | ⟨-, hval, -, -, -, hN⟩
      · exact absurd h0 hne
      · obtain ⟨T', hT', -⟩ := hN.exists_tree
        refine ⟨?_, fun hpos => hdone.done (2 * j + 1) (by omega) j rfl hne hpos hshare hsamples⟩
        rw [hval]
        exact (List.getElem?_eq_some_iff.mp hT').1

end Trees

/-! ## Steps 1 to 4 -/

section Steps

variable {mem : ℕ → CharType} {treebits : ℕ} {strings : ℕ → CString mem} {n depth : ℕ}

/-- What holds after steps 1 to 4: attached trees are in the list, and each tree has been given its
strings once, in the order of its bucket cache. -/
structure NestedLevel.Ok (treebits : ℕ) (lv : NestedLevel mem) : Prop where
  attached : ∀ T ∈ lv.treelist, ∀ j < numsplitters treebits, T.subtree j ≠ 0 →
    1 ≤ (T.subtree j).toNat ∧ (T.subtree j).toNat ≤ 254 ∧
      (T.subtree j).toNat < lv.treelist.length
  calls : ∀ c ∈ lv.calls, c.Ok treebits lv.treelist lv.bktcaches
  once : lv.calls.map PermuteCall.t = List.range lv.treelist.length

theorem contents_getD {α : Type*} (l : List α) (x : α) :
    contents (fun i => l.getD i x) l.length = l := by
  refine List.ext_getElem (by simp) fun i h₁ h₂ => ?_
  simp [contents, h₂]

theorem prefixSumOk {l : List ℕ} (h : ∀ b ∈ l, b < 2 * numsplitters treebits + 1) :
    PrefixSumOk treebits l := by
  have htotal := (tallies_count (n := l.length) id (fun i => l.getD i 0) fun p hp => by
    refine h _ ?_
    rw [List.getD_eq_getElem _ _ hp]
    exact List.getElem_mem hp).total
  rw [contents_getD, List.map_id, bucketStart_succ] at htotal
  rw [PrefixSumOk, bktindex_eq]
  exact htotal

/-- A sample is the key of a string of the range. -/
theorem sortedPairs_isSample (rng : ℕ → ℕ) (hn : 0 < n) {samplesize i : ℕ} (hi : i < samplesize) :
    IsSample strings (fun p => p < n) depth (sortedPairs rng strings n depth samplesize i) := by
  have hmem : sortedPairs rng strings n depth samplesize i ∈ (List.range samplesize).map fun i =>
      (⟨getChar mem (strings (rng i % n)).ptr depth, rng i % n, depth⟩ : SamplePair) :=
    sortPairs_mem (by simpa using hi)
  obtain ⟨k, -, hk⟩ := List.mem_map.mp hmem
  rw [← hk]
  exact ⟨rfl, rfl, Nat.mod_lt _ hn⟩

/-- Attached trees are in the list, and their numbers fit into a character. -/
theorem attached_of_nested {trees : List SplitterTree} {nest e : ℕ} {P : ℕ → Prop}
    (h : Nested treebits strings trees nest 0 e depth P) (hlen : trees.length = e)
    {T : SplitterTree} (hT : T ∈ trees) {j : ℕ} (hj : j < numsplitters treebits)
    (hne : T.subtree j ≠ 0) :
    1 ≤ (T.subtree j).toNat ∧ (T.subtree j).toNat ≤ 254 ∧ (T.subtree j).toNat < trees.length := by
  obtain ⟨x, hx, rfl⟩ := List.mem_iff_getElem.mp hT
  obtain ⟨nest', e', depth', P', hN⟩ := h.exists_nested (Nat.zero_le x) (hlen ▸ hx)
  cases nest' with
  | zero => exact hN.elim
  | succ nest' =>
    obtain ⟨T', ends, hc⟩ := hN.hasChildren
    obtain rfl : trees[x] = T' := Option.some_inj.mp
      ((List.getElem?_eq_getElem hx).symm.trans hc.tree)
    rcases hc.child j hj with ⟨h0, -⟩ | ⟨-, hval, hpos, hlt, -, hN'⟩
    · exact absurd h0 hne
    · obtain ⟨T'', hT'', -⟩ := hN'.exists_tree
      rw [hval]
      exact ⟨hpos, by omega, (List.getElem?_eq_some_iff.mp hT'').1⟩

/-- Steps 1 to 4, whatever numbers are drawn. -/
theorem nestedLevel_spec (ht : treebits ≤ 31) (hns : 1 ≤ numsplitters treebits / 2) (rng : ℕ → ℕ)
    (strings : ℕ → CString mem) (hn : 0 < n) (depth : ℕ) :
    ∃ lv, nestedLevel treebits rng strings n depth = some lv ∧ lv.Ok treebits ∧
      (contents lv.strings n).Perm (contents strings n) ∧
      (SharesDepth (UCharStringSet mem).chars strings n depth →
        Settled treebits lv.treelist lv.bktcaches 255 0 depth lv.strings n) := by
  obtain ⟨samples, block, T, hbuild, -, hlen, hnested⟩ := build_ok ht hns strings 255 depth
    (fun p => p < n) (sortedPairs rng strings n depth (oversampleFactor * numsplitters treebits))
    [default] 0 (oversampleFactor * numsplitters treebits)
    (Nat.mul_pos (by decide) (by omega)) (by simp) (by simp) (by simp)
    (fun x _ hx => sortedPairs_isSample rng hn hx)
    (fun x y _ hxy hy => sortPairs_sorted hxy (by simpa using hy))
  have hset : ([default] ++ block).set 0 T = T :: block := rfl
  have hN := hnested (T :: block) rfl fun y _ => by
    rw [List.length_singleton, Nat.add_comm, List.getElem?_cons_succ]
  rw [List.length_singleton, Nat.sub_self, Nat.add_comm, ← List.length_cons (a := T)] at hN
  -- the caches are those for the strings
  have hclassify := classifyStrings_spec (ht.trans (by norm_num)) hN (contents strings n) fun _ => []
  simp only [List.nil_append] at hclassify
  obtain ⟨r, hr, hperm, hcalls, hts, hsettled⟩ := recursivePermute_spec (A := strings)
    (ht.trans (by norm_num)) hN
    (fun t => (contents strings n).flatMap fun s =>
      entries (route treebits (T :: block) s 255 0 depth) t) fun _ _ _ => rfl
  have hprefix : ∀ t < (T :: block).length, PrefixSumOk treebits
      ((contents strings n).flatMap fun s =>
        entries (route treebits (T :: block) s 255 0 depth) t) := by
    intro t _
    refine prefixSumOk fun b hb => ?_
    obtain ⟨s, -, hb⟩ := List.mem_flatMap.mp hb
    obtain ⟨x, hx, rfl⟩ := List.mem_map.mp hb
    exact (route_mem (ht.trans (by norm_num)) hN s x (List.mem_of_mem_filter hx)).2.2
  refine ⟨⟨T :: block, _, r.1, r.2⟩, ?_, ⟨fun T' hT' j hj hne =>
    attached_of_nested hN rfl hT' hj hne, hcalls, ?_⟩, hperm, fun hshare => hsettled hshare
      fun p hp => mem_contents.mpr ⟨p, hp, rfl⟩⟩
  · rw [nestedLevel]
    dsimp only
    rw [hbuild, Option.bind_some, hset, hclassify, Option.bind_some, if_pos hprefix, hr]
    rfl
  · rw [hts, Nat.sub_zero, List.range_eq_range']

end Steps

/-! ## Step 5 -/

section Recursion

variable {mem : ℕ → CharType} {treebits : ℕ} {trees : List SplitterTree} {caches : ℕ → List ℕ}

theorem recursionMeasure_perm {A B : ℕ → CString mem} {n : ℕ}
    (hperm : (contents A n).Perm (contents B n)) (depth : ℕ) :
    recursionMeasure (UCharStringSet mem).chars A n depth =
      recursionMeasure (UCharStringSet mem).chars B n depth := by
  rw [recursionMeasure, recursionMeasure, charsLeft_perm hperm]

/-- Strings that have been left for `recursive_sort` are sorted, if the calls of `sort` that go down
sort their strings. -/
theorem recursiveSort_spec (hns : 0 < numsplitters treebits) {M : ℕ ×ₗ ℕ}
    (sort : ℕ → List ℕ → (ℕ → CString mem) → ℕ → ℕ → Option (SortResult mem))
    (hsort : ∀ (path : List ℕ) (A : ℕ → CString mem) (m d : ℕ),
      SharesDepth (UCharStringSet mem).chars A m d → (∀ p < m, (A p).len < 2 ^ 31) →
      recursionMeasure (UCharStringSet mem).chars A m d < M → ∃ levels, ∀ fuel ≥ levels, ∃ r,
        sort fuel path A m d = some r ∧ StringsSorted A m r)
    (path : List ℕ) {nest t n depth : ℕ} {A : ℕ → CString mem}
    (h : Settled treebits trees caches nest t depth A n)
    (hM : recursionMeasure (UCharStringSet mem).chars A n depth ≤ M)
    (hlen : ∀ p < n, (A p).len < 2 ^ 31) :
    ∃ levels, ∀ fuel ≥ levels, ∃ r,
      recursiveSort treebits trees caches (sort fuel) nest path t A n depth = some r ∧
        StringsSorted A n r := by
  induction nest generalizing path t n depth A with
  | zero => exact h.elim
  | succ nest ih =>
    obtain ⟨T, strings, ss, bkt, hT, hok, hsub⟩ := h
    have hperm : (contents A n).Perm (contents strings n) := hok.arranged.perm
    obtain ⟨levels, hlevels⟩ := hok.exists_levels
      (fun fuel b A m d =>
        let t := T.attached b
        if t ≠ 0 then
          if t < trees.length then
            recursiveSort treebits trees caches (sort fuel) nest (path ++ [b]) t A m d
          else none
        else sort fuel (path ++ [b]) A m d)
      (fun b hb hrec => by
        have hdecreases := hok.decreases hns hb hrec
        rw [← recursionMeasure_perm hperm] at hdecreases
        have hlen' : ∀ p < (T.level (caches t) A).bktsize b,
            ((T.level (caches t) A).bucketStrings b p).len < 2 ^ 31 := by
          intro p hp
          obtain ⟨q, hq, heq⟩ := hok.bucketStrings_mem hb hp
          obtain ⟨q', hq', heq'⟩ := exists_of_perm hperm.symm hq
          rw [← heq, ← heq']
          exact hlen q' hq'
        dsimp only
        by_cases hne : T.attached b ≠ 0
        · -- the bucket has a tree of its own
          obtain ⟨j, rfl, hsubtree⟩ := SplitterTree.attached_ne_zero hne
          obtain ⟨hlt, hsettled⟩ := hsub j (by omega) hsubtree
          have hdepth : (T.level (caches t) A).bucketDepth (numsplitters treebits) depth
              (2 * j + 1) = depth + 8 := Level.Ok.bucketDepth_odd (by omega)
          rw [hdepth] at hdecreases ⊢
          rw [SplitterTree.attached_odd rfl] at hne ⊢
          obtain ⟨levels, hlevels⟩ := ih (path ++ [2 * j + 1])
            (hsettled (Level.Ok.pos_of_recurses hrec)) (hdecreases.le.trans hM) hlen'
          refine ⟨levels, fun fuel hfuel => ?_⟩
          rw [if_pos hne, if_pos hlt]
          exact hlevels fuel hfuel
        · obtain ⟨levels, hlevels⟩ := hsort (path ++ [b]) _ _ _ (hok.shares hb hrec) hlen'
            (hdecreases.trans_le hM)
          refine ⟨levels, fun fuel hfuel => ?_⟩
          rw [if_neg hne]
          exact hlevels fuel hfuel)
      (show ∀ c ∈ ([] : List (SortCall mem)), c.Shares from fun c hc =>
        absurd hc List.not_mem_nil)
    refine ⟨levels, fun fuel hfuel => ?_⟩
    obtain ⟨r, hr, hsorted⟩ := hlevels fuel hfuel
    refine ⟨r, ?_, hsorted.perm.trans hperm.symm, hsorted.sorted, hsorted.log⟩
    rw [recursiveSort, hT, Option.bind_some]
    exact (congrArg (fun o => Option.bind o _) hr).trans (if_pos ⟨rfl, rfl⟩)

/-- With enough levels of recursion, the strings of a range that share their depth are sorted. -/
theorem sortNested_sorts (ht : treebits ≤ 31) (hns : 1 ≤ numsplitters treebits / 2)
    (rng : List ℕ → ℕ → ℕ) (path : List ℕ) {strings : ℕ → CString mem} {n depth : ℕ}
    (hlen : ∀ p < n, (strings p).len < 2 ^ 31)
    (hshare : SharesDepth (UCharStringSet mem).chars strings n depth) :
    ∃ levels, ∀ fuel ≥ levels, ∃ r, sortNested treebits rng fuel path strings n depth = some r ∧
      StringsSorted strings n r := by
  rcases Nat.lt_or_ge n samplesortSmallsort with hsmall | hlarge
  · -- a small range is sorted within as many levels as it has characters
    refine ⟨2 ^ 31 + 2, fun fuel hfuel => ?_⟩
    obtain ⟨fuel, rfl⟩ : ∃ m, fuel = m + 1 := ⟨fuel - 1, by omega⟩
    obtain ⟨r, hr, hsorted⟩ := msdCI_spec (show 0 < fuel by omega) hlen
      (fun p hp => by have := hlen p hp; omega) hshare
    refine ⟨(r.1, ⟨strings, n, depth⟩ :: r.2), ?_, hsorted.perm, hsorted.sorted,
      List.forall_mem_cons.mpr ⟨hshare, hsorted.log⟩⟩
    rw [sortNested, if_pos hsmall, hr]
    rfl
  · obtain ⟨lv, hlv, -, hperm, hsettled⟩ := nestedLevel_spec ht hns (rng path) strings
      (lt_of_lt_of_le (by decide) hlarge) depth
    obtain ⟨levels, hlevels⟩ := recursiveSort_spec (by omega)
      (fun fuel => sortNested treebits rng fuel)
      (fun path' A m d hshare' hlen' hdecreases =>
        sortNested_sorts ht hns rng path' hlen' hshare') path (hsettled hshare)
      (recursionMeasure_perm hperm depth).le fun p hp => by
        obtain ⟨q, hq, heq⟩ := exists_of_perm hperm hp
        rw [← heq]
        exact hlen q hq
    refine ⟨levels + 1, fun fuel hfuel => ?_⟩
    obtain ⟨fuel, rfl⟩ : ∃ m, fuel = m + 1 := ⟨fuel - 1, by omega⟩
    obtain ⟨r, hr, hsorted⟩ := hlevels fuel (by omega)
    refine ⟨(r.1, ⟨strings, n, depth⟩ :: r.2), ?_, hsorted.perm.trans hperm, hsorted.sorted,
      List.forall_mem_cons.mpr ⟨hshare, hsorted.log⟩⟩
    rw [sortNested, if_neg (by omega), hlv, Option.bind_some, hr]
    rfl
termination_by recursionMeasure (UCharStringSet mem).chars strings n depth
decreasing_by exact hdecreases

/-- Whatever numbers are drawn, the strings are sorted, by calls for strings that share their depth.
In each call the builders read no key that has been replaced, the attached trees are in the list, and
each tree is given its strings in the order of its bucket cache. -/
theorem sampleSortRBTCE_sorts (rng : List ℕ → ℕ → ℕ) {strings : ℕ → CString mem} {n : ℕ}
    (hlen : ∀ p < n, (strings p).len < 2 ^ 31) :
    (∃ levels, ∀ fuel ≥ levels, ∃ r, bingmannSampleSortRBTCE rng fuel strings n = some r ∧
      (contents r.1 n).Perm (contents strings n) ∧
      MonotoneIn ((UCharStringSet mem).chars ∘ r.1) 0 n ∧ ∀ c ∈ r.2, c.Shares) ∧
    ∀ (rng : ℕ → ℕ) (c : SortCall mem), samplesortSmallsort ≤ c.n → ∃ lv,
      nestedLevel subtreeBits rng c.strings c.n c.depth = some lv ∧ lv.Ok subtreeBits := by
  have hbits : subtreeBits ≤ 31 := by decide
  have hns : 1 ≤ numsplitters subtreeBits / 2 := by decide
  refine ⟨?_, fun rng c hn => ?_⟩
  · obtain ⟨levels, hlevels⟩ := sortNested_sorts hbits hns rng [] hlen
      (sharesDepth_zero strings n)
    refine ⟨levels, fun fuel hfuel => ?_⟩
    obtain ⟨r, hr, hsorted⟩ := hlevels fuel hfuel
    exact ⟨r, hr, hsorted.perm, hsorted.sorted, hsorted.log⟩
  · obtain ⟨lv, hlv, hok, -⟩ := nestedLevel_spec hbits hns rng c.strings
      (lt_of_lt_of_le (by decide) hn) c.depth
    exact ⟨lv, hlv, hok⟩

theorem sampleSortRBTCE_sorts_words :
    (∃ levels, ∀ fuel ≥ levels, ∃ r,
      bingmannSampleSortRBTCE (fun _ i => i) fuel word 40000 = some r ∧
      (contents r.1 40000).Perm (contents word 40000) ∧
      MonotoneIn ((UCharStringSet wordMem).chars ∘ r.1) 0 40000 ∧ ∀ c ∈ r.2, c.Shares) ∧
    ∀ (rng : ℕ → ℕ) (c : SortCall wordMem), samplesortSmallsort ≤ c.n → ∃ lv,
      nestedLevel subtreeBits rng c.strings c.n c.depth = some lv ∧ lv.Ok subtreeBits :=
  sampleSortRBTCE_sorts _ fun _ _ => (by norm_num : 12 < 2 ^ 31)

end Recursion

end StringSampleSort
