import StringSampleSort.Tools.KeyPacking
import StringSampleSort.Tools.TreeCalculations

/-!
# Building the splitter tree

Model of `src/sequential/bingmann-sample_sort_tree_builder.hpp`: the three builders that turn
a sorted sample into splitters, a level-order tree and the LCP bytes of the splitters.

`TreeBuilderPreAndLevelOrder` and `TreeBuilderLevelOrder` share one recursion; the latter
does not keep the splitters in sorted order.

## Main results

- `recurse_spec`: what one call of the recursion writes
- `Built.pairwise`: the splitters are sorted
- `Built.left_uniform`: left of a node all splitters are smaller, or all are the same
- `treeBuilder_spec`: the arrays that the builders leave
-/

namespace StringSampleSort

open Library

namespace TreeBuilder

/-! ## Model -/

/-- The loop that moves `midlo` down over keys equal to `mykey`. -/
def skipLow (samples : ℕ → KeyType) (mykey : KeyType) (lo : ℕ) : ℕ → ℕ
  | 0 => 0
  | m + 1 => if lo < m + 1 ∧ samples m = mykey then skipLow samples mykey lo m else m + 1

/-- The loop that moves `midhi` up over keys equal to `mykey`, for at most `fuel` rounds. -/
def skipHigh (samples : ℕ → KeyType) (mykey : KeyType) (hi : ℕ) : ℕ → ℕ → ℕ
  | 0, m => m
  | fuel + 1, m =>
    if m + 1 < hi ∧ samples m = mykey then skipHigh samples mykey hi fuel (m + 1) else m

/-- Index of the sample that a range is split at. -/
def mid (lo hi : ℕ) : ℕ := lo + (hi - lo) / 2

/-- `midlo` of the range from `lo` to `hi`. -/
def midlo (samples : ℕ → KeyType) (lo hi : ℕ) : ℕ :=
  skipLow samples (samples (mid lo hi)) lo (mid lo hi)

/-- `midhi` of the range from `lo` to `hi`. -/
def midhi (samples : ℕ → KeyType) (lo hi : ℕ) : ℕ :=
  skipHigh samples (samples (mid lo hi)) hi hi (mid lo hi)

/-- The byte of `splitter_lcp` for a splitter behind `prevkey`: the number of common bytes
and the marker for done splitters. -/
def lcpByte (prevkey mykey : KeyType) : BitVec 8 :=
  BitVec.ofNat 8 (countHighZeroBits (prevkey ^^^ mykey) / 8) |||
    if lowByte mykey = 0 then 0x80 else 0

/-- What the recursion has written: `m_tree`, and the ranges before `m_splitter` and
`m_lcp_iter`. -/
structure State where
  tree : ℕ → KeyType
  splitter : List KeyType
  lcp : List (BitVec 8)

/-- `*m_splitter++ = mykey` and `*m_lcp_iter++ = ...`. -/
def State.emit (st : State) (prevkey mykey : KeyType) : State :=
  { st with splitter := st.splitter ++ [mykey], lcp := st.lcp ++ [lcpByte prevkey mykey] }

/-- The node `2 * treeidx + bit`, an `unsigned int` like `treeidx`. -/
def child (treeidx bit : ℕ) : ℕ := (2 * treeidx + bit) % 2 ^ 32

/-- `recurse(lo, hi, treeidx, rec_prevkey)`, for at most `fuel` levels; it returns the last
key of the range's subtree. -/
def recurse (numsplitters : ℕ) (samples : ℕ → KeyType) :
    ℕ → ℕ → ℕ → ℕ → KeyType → State → KeyType × State
  | 0, _, _, _, rec_prevkey, st => (rec_prevkey, st)
  | fuel + 1, lo, hi, treeidx, rec_prevkey, st =>
    let mykey := samples (mid lo hi)
    let st := { st with tree := Function.update st.tree treeidx mykey }
    if child treeidx 0 < numsplitters then
      let left := recurse numsplitters samples fuel lo (midlo samples lo hi) (child treeidx 0)
        rec_prevkey st
      recurse numsplitters samples fuel (midhi samples lo hi) hi (child treeidx 1) mykey
        (left.2.emit left.1 mykey)
    else (mykey, st.emit rec_prevkey mykey)

end TreeBuilder

/-- What a builder leaves to a classifier: `splitter`, `splitter_tree` and `splitter_lcp`. -/
structure SplitterArrays where
  splitter : ℕ → KeyType
  tree : ℕ → KeyType
  lcp : ℕ → BitVec 8

/-- `numsplitters` of a classifier. -/
def numsplitters (treebits : ℕ) : ℕ := 1 <<< treebits - 1

open TreeBuilder in
/-- `TreeBuilderPreAndLevelOrder`: the recursion, then the sentinels. -/
def TreeBuilderPreAndLevelOrder (treebits : ℕ) (samples : ℕ → KeyType) (samplesize : ℕ) :
    SplitterArrays :=
  let st := (recurse (numsplitters treebits) samples treebits 0 samplesize 1 0
    ⟨fun _ => 0, [], []⟩).2
  { splitter := fun i => st.splitter.getD i 0
    tree := st.tree
    lcp := fun i =>
      if i = numsplitters treebits then 0
      else if i = 0 then st.lcp.getD 0 0 &&& 0x80 else st.lcp.getD i 0 }

/-- `TreeBuilderLevelOrder`: the same without the array `splitter`. -/
def TreeBuilderLevelOrder (treebits : ℕ) (samples : ℕ → KeyType) (samplesize : ℕ) :
    SplitterArrays :=
  { TreeBuilderPreAndLevelOrder treebits samples samplesize with splitter := fun _ => 0 }

/-- `TreeBuilderPreorder`: every `oversample_factor`-th sample, no tree and no markers. -/
def TreeBuilderPreorder (treebits : ℕ) (samples : ℕ → KeyType) (samplesize : ℕ) :
    SplitterArrays :=
  let oversample_factor := samplesize / numsplitters treebits
  let splitter := fun i => samples (oversample_factor / 2 + i * oversample_factor)
  { splitter := splitter
    tree := fun _ => 0
    lcp := fun i =>
      if i = numsplitters treebits ∨ i = 0 then 0
      else BitVec.ofNat 8 (countHighZeroBits (splitter (i - 1) ^^^ splitter i) / 8) }

/-- The sample array is sorted. -/
def SortedSamples (samples : ℕ → KeyType) (samplesize : ℕ) : Prop :=
  ∀ i j, i ≤ j → j < samplesize → samples i ≤ samples j

/-- `std::sort(samples, samples + samplesize)`. -/
def stdSort (samples : List KeyType) : ℕ → KeyType :=
  fun i => (samples.mergeSort fun a b => decide (a ≤ b)).getD i 0

theorem stdSort_eq {samples : List KeyType} {i : ℕ} (hi : i < samples.length) :
    (samples.mergeSort fun a b => decide (a ≤ b))[i]? = some (stdSort samples i) := by
  rw [stdSort, List.getD_eq_getElem?_getD, List.getElem?_eq_getElem (by simpa using hi)]
  rfl

theorem stdSort_sorted (samples : List KeyType) :
    SortedSamples (stdSort samples) samples.length := by
  intro i j hij hj
  have hsorted : (samples.mergeSort fun a b => decide (a ≤ b)).Pairwise
      fun a b => decide (a ≤ b) = true := List.pairwise_mergeSort
    (fun a b d h₁ h₂ => by simp only [decide_eq_true_eq] at *; exact h₁.trans h₂)
    (fun a b => by simpa using le_total a b) samples
  rcases Nat.eq_or_lt_of_le hij with rfl | hlt
  · exact le_refl _
  · obtain ⟨hi', hgeti⟩ := List.getElem?_eq_some_iff.mp (stdSort_eq (hlt.trans hj))
    obtain ⟨hj', hgetj⟩ := List.getElem?_eq_some_iff.mp (stdSort_eq hj)
    have hle := List.pairwise_iff_getElem.mp hsorted i j hi' hj' hlt
    rw [hgeti, hgetj] at hle
    exact of_decide_eq_true hle

theorem stdSort_mem {samples : List KeyType} {i : ℕ} (hi : i < samples.length) :
    stdSort samples i ∈ samples :=
  List.mem_mergeSort.mp (List.mem_of_getElem? (stdSort_eq hi))

namespace TreeBuilder

/-! ## Ranges -/

section Ranges

variable (samples : ℕ → KeyType)

theorem skipLow_spec (mykey : KeyType) (lo m : ℕ) (hm : lo ≤ m) :
    lo ≤ skipLow samples mykey lo m ∧ skipLow samples mykey lo m ≤ m ∧
      (∀ j, skipLow samples mykey lo m ≤ j → j < m → samples j = mykey) ∧
      (lo < skipLow samples mykey lo m → samples (skipLow samples mykey lo m - 1) ≠ mykey) := by
  -- by induction on `m`, the place from which the loop goes down
  induction m with
  | zero => exact ⟨hm, le_refl _, fun j _ h => absurd h (by omega), fun h => absurd h (by simp [skipLow])⟩
  | succ m ih =>
    rw [skipLow]
    split
    · next h =>
      obtain ⟨h₁, h₂, h₃, h₄⟩ := ih (by omega)
      refine ⟨h₁, by omega, fun j hj hlt => ?_, h₄⟩
      rcases Nat.lt_succ_iff_lt_or_eq.mp hlt with hlt' | rfl
      · exact h₃ j hj hlt'
      · exact h.2
    · next h =>
      exact ⟨hm, le_refl _, fun j h₁ h₂ => absurd h₁ (by omega), fun hlo hkey => h ⟨hlo, hkey⟩⟩

theorem skipHigh_spec (mykey : KeyType) (hi fuel m : ℕ) :
    m ≤ skipHigh samples mykey hi fuel m ∧ (m < hi → skipHigh samples mykey hi fuel m < hi) := by
  induction fuel generalizing m with
  | zero => exact ⟨le_refl _, id⟩
  | succ fuel ih =>
    rw [skipHigh]
    split
    · next h =>
      obtain ⟨h₁, h₂⟩ := ih (m + 1)
      exact ⟨by omega, fun _ => h₂ h.1⟩
    · exact ⟨le_refl _, id⟩

theorem mid_lt {lo hi : ℕ} (h : lo < hi) : mid lo hi < hi := by
  unfold mid
  omega

theorem le_mid (lo hi : ℕ) : lo ≤ mid lo hi := Nat.le_add_right ..

theorem le_midlo (lo hi : ℕ) : lo ≤ midlo samples lo hi :=
  (skipLow_spec samples _ lo _ (le_mid lo hi)).1

theorem midlo_le_mid (lo hi : ℕ) : midlo samples lo hi ≤ mid lo hi :=
  (skipLow_spec samples _ lo _ (le_mid lo hi)).2.1

theorem samples_midlo (lo hi : ℕ) :
    samples (midlo samples lo hi) = samples (mid lo hi) := by
  rcases Nat.eq_or_lt_of_le (midlo_le_mid samples lo hi) with h | h
  · rw [h]
  · exact (skipLow_spec samples _ lo _ (le_mid lo hi)).2.2.1 _ (le_refl _) h

/-- The last key of a non-empty left range is another one. -/
theorem samples_before_midlo {lo hi : ℕ} (h : lo < midlo samples lo hi) :
    samples (midlo samples lo hi - 1) ≠ samples (mid lo hi) :=
  (skipLow_spec samples _ lo _ (le_mid lo hi)).2.2.2 h

theorem mid_le_midhi (lo hi : ℕ) : mid lo hi ≤ midhi samples lo hi :=
  (skipHigh_spec samples _ hi hi _).1

theorem midhi_lt {lo hi : ℕ} (h : lo < hi) : midhi samples lo hi < hi :=
  (skipHigh_spec samples _ hi hi _).2 (mid_lt h)

theorem midhi_self (lo : ℕ) : midhi samples lo lo = lo := by
  have hmid : mid lo lo = lo := by simp [mid]
  rw [midhi, hmid]
  -- in an empty range the loop does not even start
  cases lo with
  | zero => rfl
  | succ lo =>
    rw [skipHigh, if_neg]
    exact fun h => absurd h.1 (by omega)

end Ranges

/-! ## The tree of a sorted sample -/

/-- The subtree with `r` levels below node `i` holds the splitters of the samples from `lo` to
`hi`. -/
def Built (samples : ℕ → KeyType) (tree : ℕ → KeyType) : ℕ → ℕ → ℕ → ℕ → Prop
  | 0, _, _, _ => True
  | r + 1, i, lo, hi => tree i = samples (mid lo hi) ∧
      Built samples tree r (2 * i) lo (midlo samples lo hi) ∧
      Built samples tree r (2 * i + 1) (midhi samples lo hi) hi

variable {samples : ℕ → KeyType} {size : ℕ}

theorem Built.congr {tree tree' : ℕ → KeyType} {r i lo hi : ℕ} (h : Built samples tree r i lo hi)
    (heq : ∀ j, InSubtree r i j → tree' j = tree j) : Built samples tree' r i lo hi := by
  induction r generalizing i lo hi with
  | zero => trivial
  | succ r ih =>
    obtain ⟨h₁, h₂, h₃⟩ := h
    refine ⟨?_, ih h₂ fun j hj => ?_, ih h₃ fun j hj => ?_⟩
    · rw [heq i ((inSubtree_succ ..).mpr (Or.inl rfl)), h₁]
    -- both children lie in the subtree of `i`
    · exact heq j ((inSubtree_succ ..).mpr (Or.inr (Or.inl hj)))
    · exact heq j ((inSubtree_succ ..).mpr (Or.inr (Or.inr hj)))

/-- The samples determine the nodes of a subtree. -/
theorem Built.ext {tree tree' : ℕ → KeyType} {r i lo hi : ℕ} (h : Built samples tree r i lo hi)
    (h' : Built samples tree' r i lo hi) {j : ℕ} (hj : InSubtree r i j) : tree j = tree' j := by
  induction r generalizing i lo hi with
  | zero =>
    obtain ⟨d, hd, -⟩ := hj
    omega
  | succ r ih =>
    rcases (inSubtree_succ r i j).mp hj with rfl | hj | hj
    · exact h.1.trans h'.1.symm
    · exact ih h.2.1 h'.2.1 hj
    · exact ih h.2.2 h'.2.2 hj

/-- Every subtree is built from some range. -/
theorem Built.subtree {tree : ℕ → KeyType} {r i lo hi : ℕ} (h : Built samples tree r i lo hi)
    (hle : lo ≤ hi) (hsize : hi ≤ size) (hlo : lo < size) {d x : ℕ} (hd : d ≤ r)
    (hx : x < 2 ^ d) : ∃ lo' hi', lo' ≤ hi' ∧ hi' ≤ size ∧ lo' < size ∧
      Built samples tree (r - d) (i * 2 ^ d + x) lo' hi' := by
  induction d generalizing r i lo hi x with
  | zero =>
    have hx0 : x = 0 := by simpa using hx
    subst hx0
    exact ⟨lo, hi, hle, hsize, hlo, by simpa using h⟩
  | succ d ih =>
    obtain ⟨r, rfl⟩ : ∃ r', r = r' + 1 := ⟨r - 1, by omega⟩
    obtain ⟨-, hleft, hright⟩ := h
    rw [show r + 1 - (d + 1) = r - d by omega]
    have hmid := midlo_le_mid samples lo hi
    have hmidhi : lo < hi ∨ lo = hi := by omega
    -- on the level below, the first half of the nodes is under the left child
    rcases Nat.lt_or_ge x (2 ^ d) with hlt | hge
    · rw [show i * 2 ^ (d + 1) + x = 2 * i * 2 ^ d + x by ring]
      refine ih hleft (le_midlo samples lo hi) ?_ hlo (by omega) hlt
      have : mid lo hi ≤ hi := by unfold mid; omega
      omega
    · rw [show i * 2 ^ (d + 1) + x = (2 * i + 1) * 2 ^ d + (x - 2 ^ d) by
        rw [pow_succ]; ring_nf; omega]
      -- an empty range hands itself on
      have hle' : midhi samples lo hi ≤ hi ∧ midhi samples lo hi < size := by
        rcases hmidhi with hlt | rfl
        · have := midhi_lt samples hlt
          omega
        · rw [midhi_self]
          exact ⟨le_refl _, hlo⟩
      exact ih hright hle'.1 hsize hle'.2 (by omega) (by rw [pow_succ] at hx; omega)

/-- All splitters of a subtree lie between the ends of its range; those of an empty range are
the sample at its end. -/
theorem Built.mem_bounds (hs : SortedSamples samples size) {tree : ℕ → KeyType} {r i lo hi : ℕ}
    (h : Built samples tree r i lo hi) (hle : lo ≤ hi) (hhi : hi ≤ size) {k : KeyType}
    (hk : k ∈ inorder tree r i) :
    (lo < hi → samples lo ≤ k ∧ k ≤ samples (hi - 1)) ∧ (lo = hi → k = samples lo) := by
  induction r generalizing i lo hi with
  | zero => simp [inorder] at hk
  | succ r ih =>
    obtain ⟨hroot, hleft, hright⟩ := h
    have h₁ := le_midlo samples lo hi
    have h₂ := midlo_le_mid samples lo hi
    have h₃ := mid_le_midhi samples lo hi
    rw [inorder, List.mem_append, List.mem_cons] at hk
    constructor
    · intro hlt
      have h₄ := mid_lt hlt
      have h₅ := midhi_lt samples hlt
      rcases hk with hk | rfl | hk
      · -- left: up to the key of the root
        obtain ⟨hne, heq⟩ := ih hleft h₁ (by omega) hk
        rcases Nat.eq_or_lt_of_le h₁ with he | hl
        · rw [heq he]
          exact ⟨le_refl _, hs _ _ (by omega) (by omega)⟩
        · obtain ⟨ha, hb⟩ := hne hl
          exact ⟨ha, hb.trans (hs _ _ (by omega) (by omega))⟩
      · -- the root
        rw [hroot]
        exact ⟨hs _ _ (by omega) (by omega), hs _ _ (by omega) (by omega)⟩
      · -- right: from the key of the root on
        obtain ⟨ha, hb⟩ := (ih hright h₅.le hhi hk).1 h₅
        exact ⟨(hs _ _ (by omega) (by omega)).trans ha, hb⟩
    · -- an empty range has nothing but the sample at its end
      rintro rfl
      have hmid : mid lo lo = lo := by simp [mid]
      rw [hmid] at h₂ hroot
      rcases hk with hk | rfl | hk
      · exact (ih hleft h₁ (by omega) hk).2 (by omega)
      · exact hroot
      · rw [midhi_self] at hright
        exact (ih hright (le_refl _) hhi hk).2 rfl

/-- Every splitter is a sample. -/
theorem Built.mem_samples {tree : ℕ → KeyType} {r i lo hi : ℕ}
    (h : Built samples tree r i lo hi) (hle : lo ≤ hi) (hhi : hi ≤ size) (hsize : lo < size)
    {k : KeyType} (hk : k ∈ inorder tree r i) : ∃ j < size, k = samples j := by
  induction r generalizing i lo hi with
  | zero => simp [inorder] at hk
  | succ r ih =>
    obtain ⟨hroot, hleft, hright⟩ := h
    have h₁ := le_midlo samples lo hi
    have h₂ := midlo_le_mid samples lo hi
    have h₃ : mid lo hi < size ∧ mid lo hi ≤ hi := by unfold mid; omega
    rw [inorder, List.mem_append, List.mem_cons] at hk
    rcases hk with hk | rfl | hk
    · exact ih hleft h₁ (by omega) hsize hk
    · exact ⟨mid lo hi, h₃.1, hroot⟩
    · rcases Nat.eq_or_lt_of_le hle with rfl | hlt
      · rw [midhi_self] at hright
        exact ih hright (le_refl _) hhi hsize hk
      · have h₄ := midhi_lt samples hlt
        exact ih hright h₄.le hhi (by omega) hk

/-- Left of a node all splitters are smaller, or its left range is empty and all are the
same. -/
theorem Built.left_uniform (hs : SortedSamples samples size) {tree : ℕ → KeyType}
    {r i lo hi : ℕ} (h : Built samples tree (r + 1) i lo hi) (hle : lo ≤ hi) (hhi : hi ≤ size)
    (hsize : lo < size) :
    (∀ k ∈ inorder tree r (2 * i), k < tree i) ∨ (∀ k ∈ inorder tree r (2 * i), k = tree i) := by
  obtain ⟨hroot, hleft, -⟩ := h
  have h₁ := le_midlo samples lo hi
  have h₂ := midlo_le_mid samples lo hi
  have h₃ : mid lo hi < size := by unfold mid; omega
  -- equal samples have been skipped, down to the start of the range or to a smaller one
  rcases Nat.eq_or_lt_of_le h₁ with he | hl
  · right
    intro k hk
    rw [(hleft.mem_bounds hs h₁ (by omega) hk).2 he, hroot]
    conv_lhs => rw [he]
    exact samples_midlo samples lo hi
  · left
    intro k hk
    refine lt_of_le_of_lt ((hleft.mem_bounds hs h₁ (by omega) hk).1 hl).2 ?_
    rw [hroot]
    exact lt_of_le_of_ne (hs _ _ (by omega) h₃) (samples_before_midlo samples hl)

/-- The splitters are sorted. -/
theorem Built.pairwise (hs : SortedSamples samples size) {tree : ℕ → KeyType} {r i lo hi : ℕ}
    (h : Built samples tree r i lo hi) (hle : lo ≤ hi) (hhi : hi ≤ size) (hsize : lo < size) :
    (inorder tree r i).Pairwise (· ≤ ·) := by
  induction r generalizing i lo hi with
  | zero => exact List.Pairwise.nil
  | succ r ih =>
    have huniform := h.left_uniform hs hle hhi hsize
    obtain ⟨hroot, hleft, hright⟩ := h
    have h₁ := le_midlo samples lo hi
    have h₂ := midlo_le_mid samples lo hi
    have h₃ := mid_le_midhi samples lo hi
    have h₄ : mid lo hi ≤ hi := by unfold mid; omega
    -- nothing right of the root is smaller
    have hroot_le : ∀ k ∈ inorder tree r (2 * i + 1), tree i ≤ k := by
      intro k hk
      rcases Nat.eq_or_lt_of_le hle with rfl | hlt
      · rw [midhi_self] at hright
        rw [(hright.mem_bounds hs (le_refl _) hhi hk).2 rfl, hroot]
        simp [mid]
      · have h₅ := midhi_lt samples hlt
        rw [hroot]
        exact (hs _ _ h₃ (by omega)).trans ((hright.mem_bounds hs h₅.le hhi hk).1 h₅).1
    -- nothing left of it is larger
    have hle_root : ∀ k ∈ inorder tree r (2 * i), k ≤ tree i := fun k hk =>
      huniform.elim (fun h => (h k hk).le) fun h => (h k hk).le
    rw [inorder, List.pairwise_append, List.pairwise_cons]
    refine ⟨ih hleft h₁ (by omega) hsize, ⟨hroot_le, ?_⟩, fun a ha b hb => ?_⟩
    · rcases Nat.eq_or_lt_of_le hle with rfl | hlt
      · rw [midhi_self] at hright
        exact ih hright (le_refl _) hhi hsize
      · have h₅ := midhi_lt samples hlt
        exact ih hright h₅.le hhi (by omega)
    · rcases List.mem_cons.mp hb with rfl | hb
      · exact hle_root a ha
      · exact (hle_root a ha).trans (hroot_le b hb)

/-! ## The recursion -/

/-- The LCP bytes of splitters in sorted order, the first one behind `prevkey`. -/
def lcpBytes (prevkey : KeyType) : List KeyType → List (BitVec 8)
  | [] => []
  | k :: ks => lcpByte prevkey k :: lcpBytes k ks

theorem lcpBytes_append (prevkey : KeyType) (ks ls : List KeyType) :
    lcpBytes prevkey (ks ++ ls) =
      lcpBytes prevkey ks ++ lcpBytes (ks.getLastD prevkey) ls := by
  induction ks generalizing prevkey with
  | nil => rfl
  | cons k ks ih =>
    rw [List.cons_append, lcpBytes, lcpBytes, ih, List.cons_append, List.getLastD_cons]

theorem getLastD_append_cons (ks ls : List KeyType) (k prevkey : KeyType) :
    (ks ++ k :: ls).getLastD prevkey = ls.getLastD k := by
  induction ks generalizing prevkey with
  | nil => rw [List.nil_append, List.getLastD_cons]
  | cons l ks ih => rw [List.cons_append, List.getLastD_cons, ih]

theorem length_lcpBytes (prevkey : KeyType) (ks : List KeyType) :
    (lcpBytes prevkey ks).length = ks.length := by
  induction ks generalizing prevkey with
  | nil => rfl
  | cons k ks ih => rw [lcpBytes, List.length_cons, List.length_cons, ih]

/-- The byte of a splitter compares it with the one before. -/
theorem getElem?_lcpBytes (prevkey : KeyType) {ks : List KeyType} {i : ℕ} {k : KeyType}
    (hi : ks[i]? = some k) :
    (lcpBytes prevkey ks)[i]? = some (lcpByte ((prevkey :: ks).getD i 0) k) := by
  induction ks generalizing prevkey i with
  | nil => simp at hi
  | cons l ks ih =>
    cases i with
    | zero =>
      have hl : l = k := by simpa using hi
      simp [lcpBytes, hl]
    | succ i =>
      rw [lcpBytes, List.getElem?_cons_succ, ih l (by simpa using hi)]
      simp

/-- A node that is not on the last level has children among the `numsplitters` nodes, and one
on the last level has none. -/
theorem two_mul_lt_numsplitters_iff {treebits d r idx : ℕ} (hr : d + (r + 1) = treebits)
    (h₁ : 2 ^ d ≤ idx) (h₂ : idx < 2 ^ (d + 1)) :
    2 * idx < numsplitters treebits ↔ r ≠ 0 := by
  rw [numsplitters, Nat.one_shiftLeft, ← hr]
  cases r with
  | zero =>
    refine iff_of_false ?_ (by simp)
    rw [pow_succ]
    omega
  | succ r =>
    refine iff_of_true ?_ (by simp)
    have hpow : 2 ^ (d + 1) * 2 ≤ 2 ^ (d + (r + 1 + 1)) := by
      rw [← pow_succ]
      exact Nat.pow_le_pow_right (by omega) (by omega)
    omega

/-- In a tree of at most 31 levels no index wraps. -/
theorem child_eq {treebits d r idx bit : ℕ} (ht : treebits ≤ 31) (hr : d + (r + 1) = treebits)
    (hidx : idx < 2 ^ (d + 1)) (hbit : bit ≤ 1) : child idx bit = 2 * idx + bit := by
  have hpow : 2 ^ (d + 1) ≤ 2 ^ 31 := Nat.pow_le_pow_right (by omega) (by omega)
  unfold child
  apply Nat.mod_eq_of_lt
  omega

/-- From 32 levels on every index has children, as the indices wrap before they get there. -/
theorem child_lt_numsplitters {treebits : ℕ} (ht : 32 ≤ treebits) (idx : ℕ) :
    child idx 0 < numsplitters treebits := by
  have hpow : 2 ^ 32 ≤ 2 ^ treebits := Nat.pow_le_pow_right (by omega) ht
  unfold child numsplitters
  rw [Nat.one_shiftLeft]
  -- an even number below `2 ^ 32`
  omega

/-- One call of the recursion builds its subtree, leaves every other node alone, and appends
the subtree's splitters and their LCP bytes in sorted order. -/
theorem recurse_spec {t : ℕ} (ht : t ≤ 31) (samples : ℕ → KeyType) {d r i : ℕ}
    (hr : d + r = t) (h₁ : 2 ^ d ≤ i) (h₂ : i < 2 ^ (d + 1)) (lo hi : ℕ)
    (prevkey : KeyType) (st : State) :
    ∃ tree, (recurse (numsplitters t) samples r lo hi i prevkey st) =
        ((inorder tree r i).getLastD prevkey,
          ⟨tree, st.splitter ++ inorder tree r i,
            st.lcp ++ lcpBytes prevkey (inorder tree r i)⟩) ∧
      Built samples tree r i lo hi ∧ ∀ j, ¬ InSubtree r i j → tree j = st.tree j := by
  -- by induction on the levels below node `i`, which is on level `d`
  induction r generalizing d i lo hi prevkey st with
  | zero => exact ⟨st.tree, by simp [recurse, inorder, lcpBytes], trivial, fun _ _ => rfl⟩
  | succ r ih =>
    have hpos := Nat.two_pow_pos d
    rw [recurse, child_eq ht hr h₂ (Nat.zero_le 1), child_eq ht hr h₂ (le_refl 1), Nat.add_zero]
    by_cases hleaf : r = 0
    · -- last level: the key of the range is the only splitter
      have hcond := (two_mul_lt_numsplitters_iff hr h₁ h₂).not.mpr (not_not.mpr hleaf)
      subst hleaf
      refine ⟨Function.update st.tree i (samples (mid lo hi)), ?_, ?_, fun j hj => ?_⟩
      · simp [hcond, State.emit, inorder, lcpBytes]
      · exact ⟨Function.update_self .., trivial, trivial⟩
      · exact Function.update_of_ne (fun h => hj ((inSubtree_succ ..).mpr (Or.inl h))) _ _
    · have hcond := (two_mul_lt_numsplitters_iff hr h₁ h₂).mpr hleaf
      simp only [hcond, if_true]
      set st₀ : State := { st with tree := Function.update st.tree i (samples (mid lo hi)) }
      have hlevel : 2 ^ (d + 1 + 1) = 2 * 2 ^ (d + 1) ∧ 2 ^ (d + 1) = 2 * 2 ^ d := by
        constructor <;> ring
      -- the left subtree, then the key of the root, then the right subtree
      obtain ⟨tree₁, heq₁, hbuilt₁, hframe₁⟩ := ih (d := d + 1) (i := 2 * i) (by omega)
        (by omega) (by omega) lo (midlo samples lo hi) prevkey st₀
      rw [heq₁]
      obtain ⟨tree₂, heq₂, hbuilt₂, hframe₂⟩ := ih (d := d + 1) (i := 2 * i + 1) (by omega)
        (by omega) (by omega) (midhi samples lo hi) hi (samples (mid lo hi))
        (State.emit ⟨tree₁, st₀.splitter ++ inorder tree₁ r (2 * i),
          st₀.lcp ++ lcpBytes prevkey (inorder tree₁ r (2 * i))⟩
          ((inorder tree₁ r (2 * i)).getLastD prevkey) (samples (mid lo hi)))
      -- the second call does not touch the left subtree, and neither call touches the root
      have hleft : ∀ j, InSubtree r (2 * i) j → tree₂ j = tree₁ j := fun j hj =>
        hframe₂ j (not_inSubtree_sibling (by omega) hj)
      have hroot : tree₂ i = samples (mid lo hi) := by
        rw [hframe₂ i fun h => by have := le_of_inSubtree h; omega]
        change tree₁ i = _
        rw [hframe₁ i fun h => by have := le_of_inSubtree h; omega]
        exact Function.update_self ..
      have hinorder : inorder tree₂ (r + 1) i = inorder tree₁ r (2 * i) ++
          samples (mid lo hi) :: inorder tree₂ r (2 * i + 1) := by
        rw [inorder, hroot, inorder_congr hleft]
      refine ⟨tree₂, ?_, ⟨hroot, hbuilt₁.congr hleft, hbuilt₂⟩, fun j hj => ?_⟩
      · rw [heq₂, hinorder]
        refine Prod.ext ?_ ?_
        · exact (getLastD_append_cons ..).symm
        · simp [State.emit, lcpBytes_append, lcpBytes, st₀]
      · rw [inSubtree_succ, not_or, not_or] at hj
        rw [hframe₂ j hj.2.2]
        change tree₁ j = _
        rw [hframe₁ j hj.2.1]
        exact Function.update_of_ne hj.1 _ _

end TreeBuilder

/-! ## What the builders leave -/

section Builders

open TreeBuilder

/-- The splitters of a tree in sorted order. -/
def splitterList (treebits : ℕ) (tree : ℕ → KeyType) : List KeyType := inorder tree treebits 1

theorem numsplitters_succ (treebits : ℕ) : numsplitters treebits + 1 = 2 ^ treebits := by
  have := Nat.two_pow_pos treebits
  rw [numsplitters, Nat.one_shiftLeft]
  omega

theorem numsplitters_pos {treebits : ℕ} (ht : 1 ≤ treebits) : 0 < numsplitters treebits := by
  have := numsplitters_succ treebits
  have := Nat.pow_le_pow_right (by omega : 0 < 2) ht
  omega

theorem length_splitterList (treebits : ℕ) (tree : ℕ → KeyType) :
    (splitterList treebits tree).length = numsplitters treebits := by
  rw [splitterList, length_inorder, numsplitters, Nat.one_shiftLeft]

/-- The recursive builder leaves a tree built from the whole sample, its splitters in sorted
order, and the LCP byte of each splitter between the sentinels. -/
theorem treeBuilder_spec {treebits : ℕ} (ht : treebits ≤ 31) (samples : ℕ → KeyType)
    (samplesize : ℕ) :
    let arrays := TreeBuilderPreAndLevelOrder treebits samples samplesize
    Built samples arrays.tree treebits 1 0 samplesize ∧
      (∀ i, arrays.splitter i = (splitterList treebits arrays.tree).getD i 0) ∧
      arrays.lcp (numsplitters treebits) = 0 ∧
      ∀ i k, (splitterList treebits arrays.tree)[i]? = some k → arrays.lcp i =
        if i = 0 then lcpByte 0 k &&& 0x80
        else lcpByte ((splitterList treebits arrays.tree).getD (i - 1) 0) k := by
  obtain ⟨tree, heq, hbuilt, -⟩ := recurse_spec ht (d := 0) (i := 1) samples
    (Nat.zero_add _) (by simp) (by simp) 0 samplesize 0 ⟨fun _ => 0, [], []⟩
  simp only [TreeBuilderPreAndLevelOrder, heq, List.nil_append]
  refine ⟨hbuilt, fun i => rfl, if_pos trivial, fun i k hk => ?_⟩
  have hlen := length_splitterList treebits tree
  have hi : i < numsplitters treebits := by
    rw [← hlen]
    exact (List.getElem?_eq_some_iff.mp hk).1
  have hbyte := getElem?_lcpBytes 0 hk
  rw [if_neg hi.ne]
  rw [splitterList] at hbyte
  -- the builder keeps the marker of the first byte only
  rcases Nat.eq_zero_or_pos i with rfl | hpos
  · rw [if_pos rfl, if_pos rfl, List.getD_eq_getElem?_getD, hbyte]
    rfl
  · obtain ⟨j, rfl⟩ : ∃ j, i = j + 1 := ⟨i - 1, by omega⟩
    rw [if_neg (by omega), if_neg (by omega), List.getD_eq_getElem?_getD, hbyte]
    simp [splitterList]

/-- The splitters of a tree built from a sorted sample are sorted. -/
theorem splitterList_pairwise {treebits samplesize : ℕ} {samples : ℕ → KeyType}
    (ht : treebits ≤ 31) (hsize : 0 < samplesize) (hs : SortedSamples samples samplesize) :
    (splitterList treebits (TreeBuilderPreAndLevelOrder treebits samples samplesize).tree).Pairwise
      (· ≤ ·) :=
  (treeBuilder_spec ht samples samplesize).1.pairwise hs (Nat.zero_le _) (le_refl _) hsize

end Builders

end StringSampleSort
