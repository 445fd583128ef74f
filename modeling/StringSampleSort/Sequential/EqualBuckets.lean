import StringSampleSort.Sequential.Classifier

/-!
# Equal buckets and `get_splitter`

`sample_sort_lcp` and the `fill_lcp` calls take the splitter of an equal bucket `2 * j + 1` from
`get_splitter(j)`.  The tree classes return the splitter at the zero-based position `j`; the
`ClassifyEqual` family passes `j` to `pre_to_levelorder`, which counts from one, and so returns
the splitter before it.

## Main results

- `getSplitterEqual_iff`: when the splitter before that of an equal bucket is the same
- `splitterAgrees_iff`: for which keys `find_bkt` and `get_splitter` agree
-/

namespace StringSampleSort

open Library TreeCalculations

/-! ## Agreement -/

/-- If the key falls into the equal bucket `2 * j + 1`, then `get_splitter(j)` is defined and
is the key. -/
def SplitterAgrees (c : Classify) (a : SplitterArrays) (key : KeyType) : Prop :=
  ∀ j, c.findBkt a key = some (2 * j + 1) → c.getSplitter a j = some key

/-- Node `m` is the first node in level order that holds the key. -/
structure IsTopNode (treebits : ℕ) (tree : ℕ → KeyType) (key : KeyType) (m : ℕ) : Prop where
  pos : 1 ≤ m
  le_numsplitters : m ≤ numsplitters treebits
  holds : tree m = key
  first : ∀ i, 1 ≤ i → i ≤ numsplitters treebits → tree i = key → m ≤ i

section Agreement

variable {treebits : ℕ} {tree : ℕ → KeyType} {key : KeyType}

theorem inSubtree_root_iff_le (i : ℕ) :
    InSubtree treebits 1 i ↔ 1 ≤ i ∧ i ≤ numsplitters treebits := by
  rw [inSubtree_root_iff, ← numsplitters_succ, Nat.lt_succ_iff]

/-- The walk of the `ClassifyEqual` family stops at the first node with the key. -/
theorem locate_isTopNode (hs : (splitterList treebits tree).Pairwise (· ≤ ·)) {m : ℕ}
    (hm : locate tree key treebits 1 = .inl m) : IsTopNode treebits tree key m where
  pos := ((inSubtree_root_iff_le m).mp (locate_mem hm)).1
  le_numsplitters := ((inSubtree_root_iff_le m).mp (locate_mem hm)).2
  holds := (locate_found hs hm).1
  first i h₁ h₂ hi := (locate_found hs hm).2.1 i ((inSubtree_root_iff_le i).mpr ⟨h₁, h₂⟩) hi

theorem IsTopNode.unique {m m' : ℕ} (h : IsTopNode treebits tree key m)
    (h' : IsTopNode treebits tree key m') : m = m' :=
  le_antisymm (h.first m' h'.pos h'.le_numsplitters h'.holds)
    (h'.first m h.pos h.le_numsplitters h.holds)

/-- The index that the `ClassifyEqual` family passes on is off by one: the splitter at position
`j`, counted from one. -/
theorem getSplitterEqual_succ (ht : treebits ≤ 32) (a : SplitterArrays) {j : ℕ}
    (hj : j + 1 < 2 ^ treebits) :
    getSplitterEqual treebits a (j + 1) = (splitterList treebits a.tree)[j]? := by
  obtain ⟨node, hnode, hget⟩ := inorder_preToLevelorder ht a.tree (Nat.succ_pos j) hj
  rw [getSplitterEqual, hnode, splitterList]
  exact hget.symm

/-- The splitter before that of node `m` is the key as well exactly when the left child of `m`
exists and holds the key. -/
theorem getSplitterEqual_iff {samples : ℕ → KeyType} {size : ℕ} (ht : treebits ≤ 32)
    (hsize : 0 < size) (hsorted : SortedSamples samples size) {a : SplitterArrays}
    (hbuilt : TreeBuilder.Built samples a.tree treebits 1 0 size) {m pos : ℕ}
    (hm : locate a.tree key treebits 1 = .inl m)
    (hpos : levelToPreorder treebits m = some pos) :
    getSplitterEqual treebits a (pos - 1) = some key ↔
      2 * m ≤ numsplitters treebits ∧ a.tree (2 * m) = key := by
  have hs := hbuilt.pairwise hsorted (Nat.zero_le _) (le_refl _) hsize
  obtain ⟨hkey, -, d, x, hd, hx, hmx, A, B, hA, hsplit, hsmall⟩ := locate_found hs hm
  rw [one_mul] at hmx
  obtain ⟨k, rfl⟩ : ∃ k, treebits = d + 1 + k := ⟨treebits - d - 1, by omega⟩
  have hpow := Nat.two_pow_pos k
  -- the place of the node, counted from one, is behind `A` and its left subtree
  have hposval : pos = A.length + 2 ^ k := by
    rw [hmx, levelToPreorder_eq ht hd hx, Option.some_inj,
      show d + 1 + k - 1 - d = k by omega] at hpos
    rw [← hpos, hA, show d + 1 + k - d = k + 1 by omega, pow_succ]
    ring
  have hlast : pos < 2 ^ (d + 1 + k) := by
    obtain ⟨h₁, h₂⟩ := (inSubtree_root_iff _ m).mp (locate_mem hm)
    obtain ⟨pos', hpos', -, hlt, -⟩ := inorder_levelToPreorder ht a.tree h₁ h₂
    rw [hpos, Option.some_inj] at hpos'
    omega
  have hn := numsplitters_succ (d + 1 + k)
  have hlevel : 2 ^ (d + 1 + k) = 2 * 2 ^ d * 2 ^ k := by ring
  rw [← splitterList, show d + 1 + k - d = k + 1 by omega, inorder] at hsplit
  cases k with
  | zero =>
    -- a leaf has no left child, and all splitters before it are smaller
    refine iff_of_false (fun hget => ?_) fun h => by omega
    rw [hposval, pow_zero, Nat.add_sub_cancel] at hget
    cases hAlen : A.length with
    | zero =>
      rw [hAlen] at hget
      exact absurd hget (by simp [getSplitterEqual, preToLevelorder])
    | succ j =>
      rw [hAlen, getSplitterEqual_succ ht a (by omega), hsplit, List.append_assoc,
        List.getElem?_append_left (by omega)] at hget
      exact lt_irrefl key (hsmall key (List.mem_of_getElem? hget))
  | succ k =>
    have htwo : 2 ^ (k + 1) = 2 * 2 ^ k := pow_succ' 2 k
    have hk := Nat.two_pow_pos k
    -- the splitter before the node is the last one of its left subtree
    have hget : getSplitterEqual (d + 1 + (k + 1)) a (pos - 1) =
        (inorder a.tree (k + 1) (2 * m))[2 ^ (k + 1) - 2]? := by
      rw [show pos - 1 = A.length + (2 ^ (k + 1) - 2) + 1 by omega,
        getSplitterEqual_succ ht a (by omega), hsplit, List.append_assoc,
        List.getElem?_append_right (by omega), Nat.add_sub_cancel_left, List.append_assoc,
        List.getElem?_append_left (by rw [length_inorder]; omega)]
    have hlen : 2 ^ (k + 1) - 2 < (inorder a.tree (k + 1) (2 * m)).length := by
      rw [length_inorder]
      omega
    have hchild : a.tree (2 * m) ∈ inorder a.tree (k + 1) (2 * m) :=
      (mem_inorder_iff ..).mpr ⟨_, (inSubtree_succ ..).mpr (Or.inl rfl), rfl⟩
    have hnode : 2 * m ≤ numsplitters (d + 1 + (k + 1)) := by
      have hm2 : m + 1 ≤ 2 * 2 ^ d := by omega
      have := Nat.mul_le_mul hm2 (show 2 ≤ 2 ^ (k + 1) by omega)
      omega
    obtain ⟨lo, hi, hle, hhi, hlo, hsub⟩ :=
      hbuilt.subtree (Nat.zero_le _) (le_refl _) hsize hd.le hx
    rw [show d + 1 + (k + 1) - d = k + 1 + 1 by omega, one_mul, ← hmx] at hsub
    rw [hget, List.getElem?_eq_getElem hlen, Option.some_inj]
    rcases hsub.left_uniform hsorted hle hhi hlo with hall | hall
    · rw [hkey] at hall
      exact iff_of_false (hall _ (List.getElem_mem hlen)).ne fun h => (hall _ hchild).ne h.2
    · rw [hkey] at hall
      exact iff_of_true (hall _ (List.getElem_mem hlen)) ⟨hnode, hall _ hchild⟩

/-- Outside the `ClassifyEqual` family `get_splitter` returns the splitter at a position. -/
theorem getSplitter_of_splitters {cl : ClassifierClass} (hcl : cl.Instantiable treebits)
    (hne : ¬ cl.IsEqualFamily) (samples : ℕ → KeyType) (samplesize : ℕ) {j : ℕ}
    (hj : (cl.splitters treebits
      ((cl.instantiate treebits).build samples samplesize))[j]? = some key) :
    (cl.instantiate treebits).getSplitter
      ((cl.instantiate treebits).build samples samplesize) j = some key := by
  by_cases hbs : cl = .binarySearch
  · subst hbs
    rw [ClassifierClass.splitters, List.getElem?_map, Option.map_eq_some_iff] at hj
    obtain ⟨i, hi, hkey⟩ := hj
    have hij : j = i := by
      have := List.getElem?_eq_some_iff.mp hi
      simpa using this.2
    rw [hij]
    exact congrArg some hkey
  · have hlen := (List.getElem?_eq_some_iff.mp hj).1
    rw [splitters_eq hbs] at hj hlen
    rw [length_splitterList] at hlen
    have hreads := readsSplitters hcl hne hbs samples samplesize j hlen
    rw [build_tree hbs] at hreads
    rw [hreads, hj]

end Agreement

/-- For every class, every size and every sorted sample: a key for which `find_bkt` and
`get_splitter` disagree belongs to the `ClassifyEqual` family, and the first node that holds
the key has no left child that holds it too. -/
theorem splitterAgrees_iff (cl : ClassifierClass) {treebits : ℕ}
    (hcl : cl.Instantiable treebits) {samples : ℕ → KeyType} {samplesize : ℕ}
    (hsize : 0 < samplesize) (hs : SortedSamples samples samplesize) (key : KeyType) :
    let a := (cl.instantiate treebits).build samples samplesize
    SplitterAgrees (cl.instantiate treebits) a key ↔
      (cl.IsEqualFamily → ∀ m, IsTopNode treebits a.tree key m →
        2 * m ≤ numsplitters treebits ∧ a.tree (2 * m) = key) := by
  intro a
  by_cases hfam : cl.IsEqualFamily
  · have hbs : cl ≠ .binarySearch := by
      rintro rfl
      exact hfam
    have ht : treebits ≤ 32 := (instantiable_le hcl).2.trans (by norm_num)
    have htree : a.tree = _ := build_tree hbs treebits samples samplesize
    have hbuilt := (treeBuilder_spec (instantiable_le_31 hcl) samples samplesize).1
    rw [← htree] at hbuilt
    have hsorted := hbuilt.pairwise hs (Nat.zero_le _) (le_refl _) hsize
    have hget : (cl.instantiate treebits).getSplitter a = getSplitterEqual treebits a := by
      cases cl <;> first | rfl | exact hfam.elim
    rw [SplitterAgrees, findBkt_equalFamily hcl hfam, hget]
    cases hm : locate a.tree key treebits 1 with
    | inr leaf =>
      -- the key is in no node, and its bucket is even
      have hnot := (locate_missed hsorted hm).2
      refine iff_of_true (fun j hj => ?_) fun _ m hmtop => ?_
      · rw [equalBucket, Option.some_inj] at hj
        omega
      · refine absurd ((mem_inorder_iff ..).mpr ⟨m, ?_, hmtop.holds⟩) hnot
        exact (inSubtree_root_iff_le m).mpr ⟨hmtop.pos, hmtop.le_numsplitters⟩
    | inl m =>
      have htop := locate_isTopNode hsorted hm
      obtain ⟨h₁, h₂⟩ := (inSubtree_root_iff treebits m).mp (locate_mem hm)
      obtain ⟨pos, hpos, hpos1, -, -⟩ := inorder_levelToPreorder ht a.tree h₁ h₂
      have hiff := getSplitterEqual_iff ht hsize hs hbuilt hm hpos
      rw [equalBucket, hpos, Option.map_some]
      constructor
      · intro h _ m' hm'
        rw [← htop.unique hm']
        exact hiff.mp (h (pos - 1) (congrArg some (by omega)))
      · intro h j hj
        rw [Option.some_inj] at hj
        rw [show j = pos - 1 by omega]
        exact hiff.mpr (h hfam m htop)
  · refine iff_of_true (fun j hj => ?_) fun h => absurd h hfam
    obtain ⟨b, hb, hbucket⟩ := findBkt_spec hcl hsize hs key
    rw [hb, Option.some_inj] at hj
    rcases hbucket with ⟨i, hbi, hi⟩ | ⟨-, hbi⟩
    · rw [show j = i by omega]
      exact getSplitter_of_splitters hcl hfam samples samplesize hi
    · omega

/-- Keys of strings of one character. -/
def oneCharKeys (i : ℕ) : KeyType := BitVec.ofNat 64 (i + 1) <<< 56

theorem sortedSamples_oneCharKeys : SortedSamples oneCharKeys 6 := by
  intro i j hij hj
  interval_cases j <;> interval_cases i <;> decide

theorem splitterAgrees_iff_oneCharKeys :
    let a := (ClassifierClass.equal.instantiate 2).build oneCharKeys 6
    SplitterAgrees (ClassifierClass.equal.instantiate 2) a (oneCharKeys 3) ↔
      (ClassifierClass.equal.IsEqualFamily → ∀ m, IsTopNode 2 a.tree (oneCharKeys 3) m →
        2 * m ≤ numsplitters 2 ∧ a.tree (2 * m) = oneCharKeys 3) :=
  splitterAgrees_iff .equal ⟨by decide, by decide⟩ (by decide) sortedSamples_oneCharKeys _

/-- In a `ClassifyEqual` tree of two levels the first equal bucket has no splitter at all, and
the second one has the splitter of the first. -/
theorem equalBucket_disagrees :
    let c := ClassifierClass.equal.instantiate 2
    let a := c.build oneCharKeys 6
    c.findBkt a (oneCharKeys 1) = some 1 ∧ c.getSplitter a 0 = none ∧
      c.findBkt a (oneCharKeys 3) = some 3 ∧ c.getSplitter a 1 = some (oneCharKeys 1) ∧
      ¬ SplitterAgrees c a (oneCharKeys 3) := by
  intro c a
  have hbkt : c.findBkt a (oneCharKeys 3) = some 3 := by decide
  have hget : c.getSplitter a 1 = some (oneCharKeys 1) := by decide
  refine ⟨by decide, by decide, hbkt, hget, fun h => ?_⟩
  have := hget.symm.trans (h 1 hbkt)
  exact absurd this (by decide)

end StringSampleSort
