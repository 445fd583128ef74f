import StringSampleSort.Sequential.EqualBuckets
import StringSampleSort.Sequential.SubtreeSort
/-!
# Laws of the classifiers

What the classifier classes promise to each other and to the recursion.  For any splitter tree
whose in-order sequence is sorted, wherever it comes from, the plain tree classes write the number
that counting the splitters gives, in whatever batches they take the strings; the classes that
stop at the key choose among equal splitters as they meet them, but still in the order of the keys.
With the builders, even buckets share the prefix that `splitter_lcp` records.

## Main results

- `classify_countBucket`: the plain tree classes write the counted buckets of all strings
- `IsBucket.orderPreserving`: any right choice of buckets keeps the order of the keys
- `findBktEqual_orderPreserving`: the classes that stop at the key make such a choice
- `evenBucket_agree`: strings of one even bucket agree behind the depth
-/

namespace StringSampleSort

open Library TreeCalculations

/-! ## Plain tree classes -/

namespace ClassifierClass

/-- The tree classes in C++ that test for the key only behind the descent. -/
def IsPlainTree : ClassifierClass → Prop
  | treeSimple | treeUnroll | treeUnrollInterleave _ => True
  | treeCalcSimple | treeCalcUnroll | treeCalcUnrollInterleave _ => True
  | _ => False

/-- The class has a member array `splitter`. -/
def KeepsSplitters : ClassifierClass → Prop
  | binarySearch | treeSimple | treeAssembler | treeUnroll | treeUnrollInterleave _ => True
  | _ => False

end ClassifierClass

section PlainTree

variable {S : Type} {treebits : ℕ}

/-- `classify(strset, begin, end, bktout, depth)`: what it writes to `bktout`, whose elements are
`uint16_t`. -/
def Classify.classifyRange (c : Classify) (a : SplitterArrays) (ss : StringSet S)
    (strings : List S) (depth : ℕ) : Option (List (BitVec 16)) :=
  (c.classify a (strings.map fun s => getUint64 ss s depth)).map
    (List.map (BitVec.ofNat 16))

/-- The bucket of a key by counting: two for each smaller splitter, and one if it is a
splitter. -/
def countBucket (s : List KeyType) (key : KeyType) : ℕ :=
  2 * s.countP (fun x => decide (x < key)) + if s.contains key then 1 else 0

theorem firstBucket_eq_countBucket (s : List KeyType) (key : KeyType) :
    firstBucket s key = countBucket s key := by
  simp only [firstBucket, countBucket, rank, List.contains_iff_mem]
  split <;> omega

theorem countBucket_lt (s : List KeyType) (key : KeyType) :
    countBucket s key < 2 * s.length + 2 := by
  have := s.countP_le_length (p := fun x => decide (x < key))
  rw [countBucket]
  split <;> omega

theorem ClassifierClass.IsPlainTree.instantiable {cl : ClassifierClass} (hcl : cl.IsPlainTree)
    (ht : 1 ≤ treebits ∧ treebits ≤ 15) : cl.Instantiable treebits := by
  cases cl <;> first | exact hcl.elim | exact ht | exact ⟨ht.1, ht.2.trans (by norm_num)⟩

theorem ClassifierClass.IsPlainTree.not_equalFamily {cl : ClassifierClass}
    (hcl : cl.IsPlainTree) : ¬ cl.IsEqualFamily ∧ cl ≠ .binarySearch := by
  cases cl <;> first | exact hcl.elim | exact ⟨fun h => h, by simp⟩

/-- The array `splitter` holds the in-order sequence of the tree, in the classes that have one. -/
def SplittersInOrder (cl : ClassifierClass) (treebits : ℕ) (a : SplitterArrays) : Prop :=
  cl.KeepsSplitters →
    ∀ i < numsplitters treebits, a.splitter i = (splitterList treebits a.tree).getD i 0

/-- The splitter that a plain tree class compares with is that at the counted place, whether it
is read from the array or its place in the tree is computed. -/
theorem SplittersInOrder.reads {cl : ClassifierClass} (hcl : cl.IsPlainTree)
    (ht : treebits ≤ 32) {a : SplitterArrays} (h : SplittersInOrder cl treebits a) :
    ReadsSplitters treebits a.tree ((cl.instantiate treebits).getSplitter a) := by
  have harray : cl.KeepsSplitters → ReadsSplitters treebits a.tree (getSplitterArray a) := by
    intro hkeeps i hi
    rw [getSplitterArray, h hkeeps i hi, List.getD_eq_getElem?_getD,
      List.getElem?_eq_getElem (by rwa [length_splitterList])]
    rfl
  cases cl with
  | treeSimple => exact harray trivial
  | treeUnroll => exact harray trivial
  | treeUnrollInterleave rollout => exact harray trivial
  | treeCalcSimple => exact readsSplitters_calc ht a
  | treeCalcUnroll => exact readsSplitters_calc ht a
  | treeCalcUnrollInterleave rollout => exact readsSplitters_calc ht a
  | _ => exact hcl.elim

theorem findBkt_countBucket {cl : ClassifierClass} (hcl : cl.IsPlainTree)
    (ht : 1 ≤ treebits ∧ treebits ≤ 15) {a : SplitterArrays}
    (hs : (splitterList treebits a.tree).Pairwise (· ≤ ·)) (h : SplittersInOrder cl treebits a)
    (key : KeyType) : (cl.instantiate treebits).findBkt a key =
      some (countBucket (splitterList treebits a.tree) key) := by
  obtain ⟨hne, hbs⟩ := hcl.not_equalFamily
  rw [findBkt_treeFamily (hcl.instantiable ht) hne hbs,
    treeBucket_descend (h.reads hcl (ht.2.trans (by norm_num))) hs, firstBucket_eq_countBucket]

/-- `find_bkt_tree` of an array that holds a sorted list. -/
theorem findBktTree_countBucket {s : List KeyType} (hs : s.Pairwise (· ≤ ·))
    (hlen : s.length = numsplitters treebits) {a : SplitterArrays}
    (ha : ∀ i < numsplitters treebits, a.splitter i = s.getD i 0) (key : KeyType) :
    findBktTree treebits a key = some (countBucket s key) := by
  have hlist : ClassifierClass.binarySearch.splitters treebits a = s := by
    refine List.ext_getElem (by simp [ClassifierClass.splitters, hlen]) fun i hi hi' => ?_
    simp only [ClassifierClass.splitters, List.getElem_map, List.getElem_range]
    rw [ha i (by omega), List.getD_eq_getElem _ _ hi']
  rw [findBktTree_eq (by rwa [hlist]), hlist, firstBucket_eq_countBucket]

/-- Every plain tree class writes for every string of a range the bucket that counting the
splitters gives, and `find_bkt_tree` finds the same one in the array of the splitters. -/
theorem classify_countBucket {cl : ClassifierClass} (hcl : cl.IsPlainTree)
    (ht : 1 ≤ treebits ∧ treebits ≤ 15) (hr : 1 ≤ cl.rollout) {a : SplitterArrays}
    (hs : (splitterList treebits a.tree).Pairwise (· ≤ ·)) (h : SplittersInOrder cl treebits a)
    (ss : StringSet S) (strings : List S) (depth : ℕ) :
    let s := splitterList treebits a.tree
    ((cl.instantiate treebits).classifyRange a ss strings depth).map (List.map BitVec.toNat) =
        some (strings.map fun str => countBucket s (getUint64 ss str depth)) ∧
      ∀ arr : SplitterArrays, (∀ i < numsplitters treebits, arr.splitter i = s.getD i 0) →
        ∀ key, findBktTree treebits arr key = some (countBucket s key) := by
  intro s
  refine ⟨?_, fun arr harr => findBktTree_countBucket hs (length_splitterList ..) harr⟩
  rw [Classify.classifyRange, classify_of_findBkt (hcl.instantiable ht) ht.2 hr
    (findBkt_countBucket hcl ht hs h)]
  simp only [Option.map_some, List.map_map, Option.some_inj]
  refine List.map_congr_left fun str _ => ?_
  -- the numbers of the buckets fit into 16 bits
  have hlt := countBucket_lt s (getUint64 ss str depth)
  have hpow := Nat.pow_le_pow_right (n := 2) (by norm_num) ht.2
  have hnum := numsplitters_succ treebits
  rw [length_splitterList] at hlt
  exact Nat.mod_eq_of_lt (show countBucket s (getUint64 ss str depth) < 2 ^ 16 by omega)

/-- Three equal splitters and six empty strings, the first four of which are taken at once. -/
theorem classify_countBucket_equalSplitters :
    let a : SplitterArrays := ⟨fun _ => 0, fun _ => 0, fun _ => 0⟩
    let strings := List.replicate 6 emptyString
    (((ClassifierClass.treeUnrollInterleave 4).instantiate 2).classifyRange a
        (UCharStringSet fun _ => 0) strings 0).map (List.map BitVec.toNat) =
        some (strings.map fun str => countBucket (splitterList 2 a.tree)
          (getUint64 (UCharStringSet fun _ => 0) str 0)) ∧
      ∀ arr : SplitterArrays,
        (∀ i < numsplitters 2, arr.splitter i = (splitterList 2 a.tree).getD i 0) →
        ∀ key, findBktTree 2 arr key = some (countBucket (splitterList 2 a.tree) key) :=
  @classify_countBucket _ 2 (.treeUnrollInterleave 4) trivial ⟨by decide, by decide⟩ (by decide) _
    (by decide) (fun _ => by decide) _ _ _

end PlainTree

/-! ## Classes that stop at the key -/

/-- Buckets of keys keep the order of the keys, among the splitters `s` of a tree with `n`
nodes. -/
structure OrderPreserving (n : ℕ) (tree : ℕ → KeyType) (s : List KeyType)
    (bkt : KeyType → ℕ) : Prop where
  lt : ∀ key, bkt key < 2 * n + 1
  odd_iff : ∀ key, bkt key % 2 = 1 ↔ ∃ i, 1 ≤ i ∧ i ≤ n ∧ tree i = key
  equal : ∀ key j, bkt key = 2 * j + 1 → s[j]? = some key
  less : ∀ key j, bkt key = 2 * j →
    (∀ i < j, ∀ k, s[i]? = some k → k < key) ∧ ∀ i, j ≤ i → ∀ k, s[i]? = some k → key < k
  mono : ∀ k₁ k₂, k₁ < k₂ → bkt k₁ ≤ bkt k₂
  common_even : ∀ k₁ k₂, k₁ < k₂ → bkt k₁ = bkt k₂ → bkt k₁ % 2 = 0

/-- Any choice of right buckets keeps the order, also among equal splitters. -/
theorem IsBucket.orderPreserving {treebits : ℕ} {tree : ℕ → KeyType} {bkt : KeyType → ℕ}
    (hs : (splitterList treebits tree).Pairwise (· ≤ ·))
    (h : ∀ key, IsBucket (splitterList treebits tree) key (bkt key)) :
    OrderPreserving (numsplitters treebits) tree (splitterList treebits tree) bkt where
  lt key := by
    rw [← length_splitterList treebits tree]
    exact (h key).lt
  odd_iff key := by
    have hmem : (∃ i, 1 ≤ i ∧ i ≤ numsplitters treebits ∧ tree i = key) ↔
        key ∈ splitterList treebits tree := by
      simp only [splitterList, mem_inorder_iff, inSubtree_root_iff_le, and_assoc]
    rw [hmem]
    constructor
    · intro hodd
      exact List.mem_of_getElem? ((h key).splitter_of_odd (i := bkt key / 2) (by omega))
    · intro hkey
      by_contra heven
      exact ((h key).rank_of_even (i := bkt key / 2) (by omega)).1 hkey
  equal key j hb := (h key).splitter_of_odd hb
  less key j hb := (h key).between hs hb
  mono k₁ k₂ hlt := not_lt.mp fun hgt => (key_lt_of_isBucket hs h hgt).asymm hlt
  common_even k₁ k₂ hlt heq := by
    by_contra hodd
    have h₁ := (h k₁).splitter_of_odd (i := bkt k₁ / 2) (by omega)
    have h₂ := (h k₂).splitter_of_odd (i := bkt k₁ / 2) (by omega)
    exact hlt.ne (Option.some_inj.mp (h₁.symm.trans h₂))

/-- For every sorted tree `ClassifyEqual` and `ClassifyEqualUnroll` find the same buckets, which
keep the order of the keys, and so does `find_bkt_tree_equal` in its tree. -/
theorem findBktEqual_orderPreserving {treebits : ℕ} (ht : 1 ≤ treebits ∧ treebits ≤ 15)
    {a : SplitterArrays} (hs : (splitterList treebits a.tree).Pairwise (· ≤ ·))
    {T : SplitterTree} (hT : (splitterList treebits T.tree).Pairwise (· ≤ ·)) :
    (∃ bkt, (∀ key, (ClassifyEqual treebits).findBkt a key = some (bkt key) ∧
          (ClassifyEqualUnroll treebits).findBkt a key = some (bkt key)) ∧
        OrderPreserving (numsplitters treebits) a.tree (splitterList treebits a.tree) bkt) ∧
      ∃ bkt, (∀ key, T.findBktTreeEqual treebits key = some (bkt key)) ∧
        OrderPreserving (numsplitters treebits) T.tree (splitterList treebits T.tree) bkt := by
  have h32 : treebits ≤ 32 := ht.2.trans (by norm_num)
  constructor
  · choose bkt hbkt hright using equalBucket_locate h32 hs
    refine ⟨bkt, fun key => ⟨?_, ?_⟩, IsBucket.orderPreserving hs hright⟩
    · exact (@findBkt_equalFamily treebits .equal ⟨ht.1, ht.2.trans (by norm_num)⟩ trivial a
        key).trans (hbkt key)
    · exact (@findBkt_equalFamily treebits .equalUnroll ht trivial a key).trans (hbkt key)
  · exact ⟨T.bucket treebits, fun key => (T.bucket_spec h32 hT key).1,
      IsBucket.orderPreserving hT fun key => (T.bucket_spec h32 hT key).2⟩

/-- Three equal splitters. -/
theorem findBktEqual_orderPreserving_equalSplitters :
    let a : SplitterArrays := ⟨fun _ => 0, fun _ => 1, fun _ => 0⟩
    let T : SplitterTree := ⟨fun _ => 1, fun _ => 0, fun _ => 0⟩
    (∃ bkt, (∀ key, (ClassifyEqual 2).findBkt a key = some (bkt key) ∧
          (ClassifyEqualUnroll 2).findBkt a key = some (bkt key)) ∧
        OrderPreserving (numsplitters 2) a.tree (splitterList 2 a.tree) bkt) ∧
      ∃ bkt, (∀ key, T.findBktTreeEqual 2 key = some (bkt key)) ∧
        OrderPreserving (numsplitters 2) T.tree (splitterList 2 T.tree) bkt :=
  findBktEqual_orderPreserving ⟨by decide, by decide⟩ (by decide) (by decide)

/-! ## Even buckets -/

section EvenBuckets

variable {mem : ℕ → CharType} {cl : ClassifierClass} {treebits : ℕ}

/-- Two strings agree on the `l` characters behind the depth, and none of these is the
terminator. -/
def AgreeBehind (depth l : ℕ) (s t : CString mem) : Prop :=
  ∀ k < l, mem (s.ptr + (depth + k)) = mem (t.ptr + (depth + k)) ∧ mem (s.ptr + (depth + k)) ≠ 0

theorem AgreeBehind.of_sharePrefix {depth l : ℕ} {s t : CString mem}
    (h : SharePrefix (depth + l) ((UCharStringSet mem).chars s) ((UCharStringSet mem).chars t)) :
    AgreeBehind depth l s t := by
  intro k hk
  have hs : depth + l ≤ s.len := h.left.trans_eq (StringSet.length_chars ..)
  have ht : depth + l ≤ t.len := h.right.trans_eq (StringSet.length_chars ..)
  refine ⟨?_, s.notNul _ (by omega)⟩
  have hget := congrArg (·[depth + k]?) h.take_eq
  simp only [List.getElem?_take, if_pos (Nat.add_lt_add_left hk depth)] at hget
  rw [StringSet.getElem?_chars _ s (show depth + k < s.len by omega),
    StringSet.getElem?_chars _ t (show depth + k < t.len by omega)] at hget
  exact Option.some_inj.mp hget

/-- For every class, every array of strings (`unsigned char*`) that agree before the depth, and
every sorted sample of their keys: strings of one even bucket agree on as many characters more as
`splitter_lcp` says, whether their buckets are found one by one or written by `classify`. -/
theorem evenBucket_agree (hcl : cl.Instantiable treebits) {strings : ℕ → CString mem}
    {n depth : ℕ} (hshare : SharesDepth (UCharStringSet mem).chars strings n depth)
    {samples : ℕ → KeyType} {samplesize : ℕ} (hsize : 0 < samplesize)
    (hs : SortedSamples samples samplesize)
    (hkeys : ∀ i < samplesize, ∃ p < n,
      samples i = getUint64 (UCharStringSet mem) (strings p) depth) :
    let a := (cl.instantiate treebits).build samples samplesize
    let key := fun p => getUint64 (UCharStringSet mem) (strings p) depth
    (∀ p < n, ∀ q < n, ∀ j, (cl.instantiate treebits).findBkt a (key p) = some (2 * j) →
        (cl.instantiate treebits).findBkt a (key q) = some (2 * j) →
        AgreeBehind depth (a.lcp j &&& 0x7F).toNat (strings p) (strings q)) ∧
      (treebits ≤ 15 → 1 ≤ cl.rollout → ∃ bktcache,
        (cl.instantiate treebits).classifyRange a (UCharStringSet mem) (contents strings n) depth =
          some bktcache ∧ bktcache.length = n ∧
        ∀ p < n, ∀ q < n, ∀ j, (bktcache.getD p 0).toNat = 2 * j →
          (bktcache.getD q 0).toNat = 2 * j →
          AgreeBehind depth (a.lcp j &&& 0x7F).toNat (strings p) (strings q)) ∧
      a.lcp 0 &&& 0x7F = 0 ∧ a.lcp (numsplitters treebits) &&& 0x7F = 0 ∧
      ∀ j, 0 < j → j < numsplitters treebits →
        (cl.splitters treebits a)[j - 1]? = (cl.splitters treebits a)[j]? →
        ∀ k, (cl.instantiate treebits).findBkt a k ≠ some (2 * j) := by
  intro a key
  choose bkt hfind hbkt using findBkt_spec hcl hsize hs
  have hsorted := splitters_pairwise hcl hsize hs
  have hlen := length_splitters cl treebits a
  have hread : ∀ p < n, key p = keyAt ((UCharStringSet mem).chars (strings p)) depth :=
    fun p hp => (UCharStringSet.sortable mem).key_eq _ _ (hshare.reaches hp)
  have hbucketed : Bucketed (InRange (UCharStringSet mem).chars strings n) depth
      (cl.splitters treebits a) bkt := by
    refine bucketed_of_keys hshare hsorted (fun k hk => ?_) hbkt
    obtain ⟨i, hi, rfl⟩ := splitters_mem_samples hcl hsize hk
    obtain ⟨p, hp, hkey⟩ := hkeys i hi
    exact ⟨p, hp, hkey.trans
      ((hread p hp).trans (getChar_eq_keyAt _ (hshare.reaches hp)).symm)⟩
  have hless := fun i => @splitterLcp_eq_lessLcp treebits cl hcl samples samplesize i
  -- strings of one even bucket share what the splitters around it have in common
  have hagree : ∀ p < n, ∀ q < n, ∀ j, bkt (key p) = 2 * j → bkt (key q) = 2 * j →
      AgreeBehind depth (a.lcp j &&& 0x7F).toNat (strings p) (strings q) := by
    intro p hp q hq j hbp hbq
    have hj := hbucketed.bucket_lt (key p)
    rw [hbp, hlen] at hj
    refine AgreeBehind.of_sharePrefix ?_
    rw [hless j (by omega)]
    rw [hread p hp] at hbp
    rw [hread q hq] at hbq
    exact hbucketed.less_share ⟨p, hp, rfl⟩ ⟨q, hq, rfl⟩ hbp hbq
  have hzero : ∀ i ≤ numsplitters treebits, lessLcp (cl.splitters treebits a) i = 0 →
      a.lcp i &&& 0x7F = 0 := fun i hi h0 =>
    BitVec.eq_of_toNat_eq ((hless i hi).trans h0)
  refine ⟨fun p hp q hq j hbp hbq => ?_, fun ht hr => ?_,
    hzero 0 (Nat.zero_le _) (if_pos (Or.inl rfl)),
    hzero _ (le_refl _) (if_pos (Or.inr hlen.le)), fun j h0 hj heq k hk => ?_⟩
  · refine hagree p hp q hq j ?_ ?_
    · exact Option.some_inj.mp ((hfind (key p)).symm.trans hbp)
    · exact Option.some_inj.mp ((hfind (key q)).symm.trans hbq)
  · refine ⟨(contents strings n).map fun s => BitVec.ofNat 16
      (bkt (getUint64 (UCharStringSet mem) s depth)), ?_, by simp, ?_⟩
    · rw [Classify.classifyRange, classify_of_findBkt hcl ht hr hfind, Option.map_some,
        List.map_map, List.map_map]
      rfl
    · -- the numbers of the buckets fit into 16 bits
      have hfits : ∀ k, bkt k < 2 ^ 16 := fun k => by
        have hlt := hbucketed.bucket_lt k
        have hpow := Nat.pow_le_pow_right (n := 2) (by norm_num) ht
        have hnum := numsplitters_succ treebits
        omega
      have hcache : ∀ p < n, (((contents strings n).map fun s => BitVec.ofNat 16
          (bkt (getUint64 (UCharStringSet mem) s depth))).getD p 0).toNat = bkt (key p) := by
        intro p hp
        rw [List.getD_eq_getElem _ _ (by simpa using hp)]
        simp only [contents, List.map_map, List.getElem_map, List.getElem_range]
        exact Nat.mod_eq_of_lt (hfits (key p))
      intro p hp q hq j hbp hbq
      rw [hcache p hp] at hbp
      rw [hcache q hq] at hbq
      exact hagree p hp q hq j hbp hbq
  · -- a key between equal splitters would be smaller and larger than both
    have hb : bkt k = 2 * j := Option.some_inj.mp ((hfind k).symm.trans hk)
    obtain ⟨hlow, hhigh⟩ := (hbkt k).between hsorted hb
    have hget := List.getElem?_eq_getElem (hlen.symm ▸ hj)
    exact ((hlow (j - 1) (by omega) _ (heq.trans hget)).trans (hhigh j (le_refl _) _ hget)).false

/-- The strings `"aa"`, `"ad"`, `"b"`, `"ab"` and `"ac"`. -/
def evenBucketMem : ℕ → CharType :=
  fun i => [97, 97, 0, 97, 100, 0, 98, 0, 97, 98, 0, 97, 99, 0].getD i 0

def evenBucketStrings : ℕ → CString evenBucketMem
  | 0 => ⟨0, 2, by decide, by decide⟩
  | 1 => ⟨3, 2, by decide, by decide⟩
  | 2 => ⟨6, 1, by decide, by decide⟩
  | 3 => ⟨8, 2, by decide, by decide⟩
  | _ => ⟨11, 2, by decide, by decide⟩

/-- The first three strings are the sample.  The last two are different and come into the bucket
between the first splitters, where `splitter_lcp` is one. -/
theorem evenBucket_agree_twoStrings :
    let ss := UCharStringSet evenBucketMem
    let c := ClassifierClass.treeCalcSimple.instantiate 2
    let a := c.build (fun i => getUint64 ss (evenBucketStrings i) 0) 3
    c.findBkt a (getUint64 ss (evenBucketStrings 3) 0) = some 2 ∧
      c.findBkt a (getUint64 ss (evenBucketStrings 4) 0) = some 2 ∧
      (a.lcp 1 &&& 0x7F).toNat = 1 ∧
      AgreeBehind 0 (a.lcp 1 &&& 0x7F).toNat (evenBucketStrings 3) (evenBucketStrings 4) := by
  intro ss c a
  have hthird : c.findBkt a (getUint64 ss (evenBucketStrings 3) 0) = some (2 * 1) := by decide
  have hfourth : c.findBkt a (getUint64 ss (evenBucketStrings 4) 0) = some (2 * 1) := by decide
  have hsorted : SortedSamples (fun i => getUint64 ss (evenBucketStrings i) 0) 3 := by
    have h : ∀ i < 3, ∀ j < 3, i ≤ j →
        getUint64 ss (evenBucketStrings i) 0 ≤ getUint64 ss (evenBucketStrings j) 0 := by decide
    intro i j hij hj
    exact h i (by omega) j hj hij
  refine ⟨hthird, hfourth, by decide, ?_⟩
  exact (@evenBucket_agree _ .treeCalcSimple 2 ⟨by decide, by decide⟩ evenBucketStrings 5 0
    (fun _ _ _ _ => SharePrefix.zero _ _) _ 3 (by decide) hsorted
    fun i hi => ⟨i, by omega, rfl⟩).1 3 (by decide) 4 (by decide) 1 hthird hfourth

end EvenBuckets

end StringSampleSort
