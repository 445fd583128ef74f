import StringSampleSort.Library.CheckedArray
import StringSampleSort.Library.LcpOrder
import StringSampleSort.Sequential.Classifier

/-!
# What the tree builders read and write

The recursion of `TreeBuilderPreAndLevelOrder` and `TreeBuilderLevelOrder` of
`src/sequential/bingmann-sample_sort_tree_builder.hpp` with checked reads of the sample array, and
with a record of the slots that it writes.  A range may have become empty while nodes are still to
be filled; its middle sample then is the one behind it.

## Main results

- `recurseChecked_follows`: all reads are inside the array, and each node is written once
- `keyChars_lcp`: what the xor of two keys says about their bytes
- `treeBuilders_build`: the arrays that both builders leave
- `recurseChecked_eq_none`: from 32 levels on the 32-bit index of a node wraps, and no call returns
-/

namespace StringSampleSort

open Library TreeBuilder

/-! ## Model -/

/-- The arrays of a builder, how far `m_splitter` and `m_lcp_iter` have come, and the slots that
the recursion has written. -/
structure BuilderRun where
  arrays : SplitterArrays
  splitterPos : ℕ
  lcpPos : ℕ
  treeSlots : List ℕ
  splitterSlots : List ℕ
  lcpSlots : List ℕ

namespace BuilderRun

/-- `m_tree[treeidx] = mykey`. -/
def setTree (run : BuilderRun) (treeidx : ℕ) (mykey : KeyType) : BuilderRun :=
  { run with
    arrays := { run.arrays with tree := Function.update run.arrays.tree treeidx mykey }
    treeSlots := run.treeSlots ++ [treeidx] }

/-- `*m_splitter++ = mykey`. -/
def pushSplitter (run : BuilderRun) (mykey : KeyType) : BuilderRun :=
  { run with
    arrays := { run.arrays with
      splitter := Function.update run.arrays.splitter run.splitterPos mykey }
    splitterPos := run.splitterPos + 1
    splitterSlots := run.splitterSlots ++ [run.splitterPos] }

/-- `*m_lcp_iter++ = ...`. -/
def pushLcp (run : BuilderRun) (prevkey mykey : KeyType) : BuilderRun :=
  { run with
    arrays := { run.arrays with
      lcp := Function.update run.arrays.lcp run.lcpPos (lcpByte prevkey mykey) }
    lcpPos := run.lcpPos + 1
    lcpSlots := run.lcpSlots ++ [run.lcpPos] }

/-- `splitter_lcp[0] &= 0x80; splitter_lcp[numsplitters] = 0;`. -/
def setSentinels (run : BuilderRun) (numsplitters : ℕ) : BuilderRun :=
  let lcp := Function.update run.arrays.lcp 0 (run.arrays.lcp 0 &&& 0x80)
  { run with arrays := { run.arrays with lcp := Function.update lcp numsplitters 0 } }

end BuilderRun

/-- The recursive builders. -/
inductive RecursiveBuilder
  | preAndLevelOrder
  | levelOrder
  deriving DecidableEq

/-- What a builder writes for a splitter behind its left subtree. -/
def RecursiveBuilder.emit (run : BuilderRun) (prevkey mykey : KeyType) :
    RecursiveBuilder → BuilderRun
  | preAndLevelOrder => (run.pushSplitter mykey).pushLcp prevkey mykey
  | levelOrder => run.pushLcp prevkey mykey

section Checked

variable (sample : ℕ → Option KeyType)

/-- `while (lo < midlo && *(midlo - 1) == mykey) midlo--;`. -/
def skipLowChecked (mykey : KeyType) (lo : ℕ) : ℕ → Option ℕ
  | 0 => some 0
  | m + 1 =>
    if lo < m + 1 then
      (sample m).bind fun k =>
        if k = mykey then skipLowChecked mykey lo m else some (m + 1)
    else some (m + 1)

/-- `while (midhi + 1 < hi && *midhi == mykey) midhi++;`, for at most `fuel` rounds. -/
def skipHighChecked (mykey : KeyType) (hi : ℕ) : ℕ → ℕ → Option ℕ
  | 0, _ => none
  | fuel + 1, m =>
    if m + 1 < hi then
      (sample m).bind fun k =>
        if k = mykey then skipHighChecked mykey hi fuel (m + 1) else some m
    else some m

/-- `recurse(lo, hi, treeidx, rec_prevkey)`, for at most `fuel` levels. -/
def recurseChecked (b : RecursiveBuilder) (numsplitters : ℕ) :
    ℕ → ℕ → ℕ → ℕ → KeyType → BuilderRun → Option (KeyType × BuilderRun)
  | 0, _, _, _, _, _ => none
  | fuel + 1, lo, hi, treeidx, rec_prevkey, run =>
    (sample (mid lo hi)).bind fun mykey =>
    (skipLowChecked sample mykey lo (mid lo hi)).bind fun midlo =>
    (skipHighChecked sample mykey hi (hi + 1) (mid lo hi)).bind fun midhi =>
    let run := run.setTree treeidx mykey
    if child treeidx 0 < numsplitters then
      (recurseChecked b numsplitters fuel lo midlo (child treeidx 0) rec_prevkey run).bind
        fun left =>
      recurseChecked b numsplitters fuel midhi hi (child treeidx 1) mykey
        (b.emit left.2 left.1 mykey)
    else some (mykey, b.emit run rec_prevkey mykey)

end Checked

/-- A builder on arrays with any contents: the recursion, the assertions, and the sentinels. -/
def RecursiveBuilder.build (b : RecursiveBuilder) (treebits : ℕ) (samples : ℕ → KeyType)
    (samplesize : ℕ) (arrays : SplitterArrays) : Option BuilderRun :=
  (recurseChecked (readAt samplesize samples) b (numsplitters treebits) treebits 0 samplesize 1 0
    ⟨arrays, 0, 0, [], [], []⟩).bind fun r =>
  let run := r.2
  -- the assertion about m_splitter is that of the first builder only
  if (b = .preAndLevelOrder → run.splitterPos = numsplitters treebits) ∧
      run.lcpPos = numsplitters treebits then
    some (run.setSentinels (numsplitters treebits))
  else none

/-! ## Arrays that are filled from the front -/

section Filled

variable {α : Type*}

/-- The first `pos` slots of the array have been written once each, and hold the list. -/
structure Filled (A : ℕ → α) (pos : ℕ) (slots : List ℕ) (l : List α) : Prop where
  pos_eq : pos = l.length
  slots_eq : slots = List.range l.length
  holds : ∀ i x, l[i]? = some x → A i = x

theorem Filled.nil (A : ℕ → α) : Filled A 0 [] [] := ⟨rfl, rfl, fun _ _ h => by simp at h⟩

theorem Filled.push {A : ℕ → α} {pos : ℕ} {slots : List ℕ} {l : List α}
    (h : Filled A pos slots l) (x : α) :
    Filled (Function.update A pos x) (pos + 1) (slots ++ [pos]) (l ++ [x]) where
  pos_eq := by simp [h.pos_eq]
  slots_eq := by simp [h.pos_eq, h.slots_eq, List.range_succ]
  holds i y hy := by
    have hi := (List.getElem?_eq_some_iff.mp hy).1
    rw [List.length_append, List.length_singleton] at hi
    rcases Nat.lt_succ_iff_lt_or_eq.mp hi with hlt | rfl
    · rw [Function.update_of_ne (h.pos_eq ▸ hlt.ne)]
      exact h.holds i y (by rwa [List.getElem?_append_left hlt] at hy)
    · rw [h.pos_eq, Function.update_self]
      simpa using hy

end Filled

/-! ## The recursion -/

section Recursion

variable {samples : ℕ → KeyType} {size : ℕ} {b : RecursiveBuilder} {run : BuilderRun} {st : State}

theorem skipLowChecked_eq (mykey : KeyType) (lo : ℕ) {m : ℕ} (hm : m ≤ size) :
    skipLowChecked (readAt size samples) mykey lo m = some (skipLow samples mykey lo m) := by
  induction m with
  | zero => rfl
  | succ m ih =>
    rw [skipLowChecked, skipLow]
    by_cases hlo : lo < m + 1
    · rw [if_pos hlo, readAt_of_lt samples (by omega), Option.bind_some]
      by_cases hkey : samples m = mykey
      · rw [if_pos hkey, if_pos ⟨hlo, hkey⟩, ih (by omega)]
      · rw [if_neg hkey, if_neg fun h => hkey h.2]
    · rw [if_neg hlo, if_neg fun h => hlo h.1]

theorem skipHighChecked_eq (mykey : KeyType) {hi : ℕ} (hhi : hi ≤ size) {fuel m : ℕ}
    (hfuel : hi ≤ m + fuel) : skipHighChecked (readAt size samples) mykey hi (fuel + 1) m =
      some (skipHigh samples mykey hi fuel m) := by
  induction fuel generalizing m with
  | zero => rw [skipHighChecked, if_neg (by omega), skipHigh]
  | succ fuel ih =>
    rw [skipHighChecked, skipHigh]
    by_cases hm : m + 1 < hi
    · rw [if_pos hm, readAt_of_lt samples (by omega), Option.bind_some]
      by_cases hkey : samples m = mykey
      · rw [if_pos hkey, if_pos ⟨hm, hkey⟩, ih (by omega)]
      · rw [if_neg hkey, if_neg fun h => hkey h.2]
    · rw [if_neg hm, if_neg fun h => hm h.1]

/-- The arrays of a run are those that the recursion without checks has written. -/
structure BuilderRun.Follows (b : RecursiveBuilder) (run : BuilderRun) (st : State) : Prop where
  tree_eq : run.arrays.tree = st.tree
  lcp : Filled run.arrays.lcp run.lcpPos run.lcpSlots st.lcp
  splitter : b = .preAndLevelOrder →
    Filled run.arrays.splitter run.splitterPos run.splitterSlots st.splitter

namespace BuilderRun.Follows

theorem setTree (h : run.Follows b st) (i : ℕ) (mykey : KeyType) :
    (run.setTree i mykey).Follows b { st with tree := Function.update st.tree i mykey } where
  tree_eq := by simp only [BuilderRun.setTree, h.tree_eq]
  lcp := h.lcp
  splitter := h.splitter

theorem emit (h : run.Follows b st) (prevkey mykey : KeyType) :
    (b.emit run prevkey mykey).Follows b (st.emit prevkey mykey) := by
  cases b with
  | preAndLevelOrder => exact ⟨h.tree_eq, h.lcp.push _, fun hb => (h.splitter hb).push _⟩
  | levelOrder => exact ⟨h.tree_eq, h.lcp.push _, fun hb => by cases hb⟩

end BuilderRun.Follows

@[simp] theorem RecursiveBuilder.emit_treeSlots (b : RecursiveBuilder) (run : BuilderRun)
    (prevkey mykey : KeyType) : (b.emit run prevkey mykey).treeSlots = run.treeSlots := by
  cases b <;> rfl

/-- A call of the recursion for a range that may be empty but does not lie behind the array reads
inside the array only, writes each node of its subtree once, and otherwise does what it does
without checks. -/
theorem recurseChecked_follows {treebits d r i lo hi : ℕ} (ht : treebits ≤ 31)
    (hr : d + (r + 1) = treebits) (h₁ : 2 ^ d ≤ i) (h₂ : i < 2 ^ (d + 1)) (hle : lo ≤ hi)
    (hhi : hi ≤ size) (hlo : lo < size) (prevkey : KeyType) (h : run.Follows b st) :
    ∃ run', recurseChecked (readAt size samples) b (numsplitters treebits) (r + 1) lo hi i prevkey
        run = some ((recurse (numsplitters treebits) samples (r + 1) lo hi i prevkey st).1, run') ∧
      run'.Follows b (recurse (numsplitters treebits) samples (r + 1) lo hi i prevkey st).2 ∧
      run'.treeSlots = run.treeSlots ++ preorder (r + 1) i := by
  induction r generalizing d i lo hi prevkey run st with
  | zero =>
    have hmid : mid lo hi < size := by
      rw [mid]
      omega
    have hcond := (two_mul_lt_numsplitters_iff hr h₁ h₂).not.mpr (not_not.mpr rfl)
    rw [recurseChecked, recurse, readAt_of_lt samples hmid, Option.bind_some,
      skipLowChecked_eq _ _ hmid.le, Option.bind_some, skipHighChecked_eq _ hhi (by omega),
      Option.bind_some, child_eq ht hr h₂ (Nat.zero_le 1), Nat.add_zero]
    simp only [hcond, if_false]
    exact ⟨_, rfl, (h.setTree i _).emit _ _, by simp [BuilderRun.setTree, preorder]⟩
  | succ r ih =>
    have hpow : 2 ^ (d + 1 + 1) = 2 * 2 ^ (d + 1) ∧ 2 ^ (d + 1) = 2 * 2 ^ d := by
      constructor <;> ring
    have hmid : mid lo hi < size := by
      rw [mid]
      omega
    have hcond := (two_mul_lt_numsplitters_iff hr h₁ h₂).mpr (Nat.succ_ne_zero r)
    rw [recurseChecked, recurse, readAt_of_lt samples hmid, Option.bind_some,
      skipLowChecked_eq _ _ hmid.le, Option.bind_some, skipHighChecked_eq _ hhi (by omega),
      Option.bind_some, child_eq ht hr h₂ (Nat.zero_le 1), child_eq ht hr h₂ (le_refl 1),
      Nat.add_zero]
    simp only [hcond, if_true]
    obtain ⟨left, heq₁, hleft, hslots₁⟩ := ih (d := d + 1) (i := 2 * i) (by omega) (by omega)
      (by omega) (le_midlo samples lo hi)
      ((midlo_le_mid samples lo hi).trans hmid.le) hlo prevkey (h.setTree i (samples (mid lo hi)))
    -- the range of the right subtree does not begin behind the array, even if it is empty
    have hmidhi : midhi samples lo hi ≤ hi ∧ midhi samples lo hi < size := by
      rcases Nat.eq_or_lt_of_le hle with rfl | hlt
      · rw [midhi_self]
        exact ⟨le_refl _, hlo⟩
      · have := midhi_lt samples hlt
        omega
    obtain ⟨right, heq₂, hright, hslots₂⟩ := ih (d := d + 1) (i := 2 * i + 1) (by omega) (by omega)
      (by omega) hmidhi.1 hhi hmidhi.2 (samples (mid lo hi)) (hleft.emit _ (samples (mid lo hi)))
    refine ⟨right, ?_, hright, ?_⟩
    · exact (congrArg (Option.bind · _) heq₁).trans heq₂
    · rw [hslots₂, RecursiveBuilder.emit_treeSlots, hslots₁]
      change _ = run.treeSlots ++ i :: (preorder (r + 1) (2 * i) ++ preorder (r + 1) (2 * i + 1))
      simp [BuilderRun.setTree]

end Recursion

/-! ## What the builders leave -/

section Builders

/-- The bytes of a key, the highest one first. -/
def keyChars (k : KeyType) : List CharType := (List.range 8).map (getCharAtDepth k)

theorem isKey_keyChars (k : KeyType) : IsKey k ((keyChars k).map BitVec.toNat) := by
  obtain ⟨u, hu⟩ := exists_isKey k
  have heq : (keyChars k).map BitVec.toNat = u := by
    refine List.ext_getElem (by simp [keyChars, hu.length_eq]) fun i hi hi' => ?_
    have hbyte := getCharAtDepth_toNat hu (hu.length_eq ▸ hi')
    rw [List.getElem?_eq_getElem hi', Option.some_inj] at hbyte
    simpa [keyChars] using hbyte
  rwa [heq]

/-- The xor of two keys gives the number of leading bytes that are the same. -/
theorem keyChars_lcp (a b : KeyType) : lcpKeyType a b = lcpLen (keyChars a) (keyChars b) := by
  rw [lcpKeyType_eq (isKey_keyChars a) (isKey_keyChars b),
    lcpLen_map fun x y h => BitVec.eq_of_toNat_eq h]

variable {samples : ℕ → KeyType} {samplesize : ℕ}

/-- On arrays with any contents the recursion fills the tree, the splitters and their bytes, and
the assertions hold. -/
theorem RecursiveBuilder.build_spec (b : RecursiveBuilder) {treebits : ℕ} (ht : 1 ≤ treebits)
    (hle : treebits ≤ 31) (hsize : 0 < samplesize) (arrays : SplitterArrays) :
    ∃ run, b.build treebits samples samplesize arrays = some run ∧
      Built samples run.arrays.tree treebits 1 0 samplesize ∧
      run.treeSlots = preorder treebits 1 ∧
      run.lcpSlots = List.range (numsplitters treebits) ∧
      run.arrays.lcp (numsplitters treebits) = 0 ∧
      (∀ i k, (splitterList treebits run.arrays.tree)[i]? = some k → run.arrays.lcp i =
        if i = 0 then lcpByte 0 k &&& 0x80
        else lcpByte ((splitterList treebits run.arrays.tree).getD (i - 1) 0) k) ∧
      (b = .preAndLevelOrder → run.splitterSlots = List.range (numsplitters treebits) ∧
        ∀ i k, (splitterList treebits run.arrays.tree)[i]? = some k →
          run.arrays.splitter i = k) := by
  obtain ⟨r, rfl⟩ : ∃ r, treebits = r + 1 := ⟨treebits - 1, by omega⟩
  have hstart : (⟨arrays, 0, 0, [], [], []⟩ : BuilderRun).Follows b ⟨arrays.tree, [], []⟩ :=
    ⟨rfl, Filled.nil _, fun _ => Filled.nil _⟩
  obtain ⟨run, hrun, hfollows, hslots⟩ := @recurseChecked_follows samples samplesize b _ _
    (r + 1) 0 r 1 0 samplesize hle (Nat.zero_add _) (by simp) (by simp) (Nat.zero_le _) (le_refl _)
    hsize 0 hstart
  obtain ⟨tree, heq, hbuilt, -⟩ := recurse_spec hle (d := 0) (i := 1) samples
    (Nat.zero_add _) (by simp) (by simp) 0 samplesize 0 ⟨arrays.tree, [], []⟩
  rw [heq] at hfollows hrun
  simp only [List.nil_append] at hfollows hslots
  obtain ⟨htree, hlcp, hsplitter⟩ := hfollows
  have hlen : (inorder tree (r + 1) 1).length = numsplitters (r + 1) := length_splitterList _ tree
  have hlcplen := (length_lcpBytes 0 (inorder tree (r + 1) 1)).trans hlen
  have hpos := numsplitters_pos ht
  have hassert : (b = .preAndLevelOrder → run.splitterPos = numsplitters (r + 1)) ∧
      run.lcpPos = numsplitters (r + 1) :=
    ⟨fun hb => (hsplitter hb).pos_eq.trans hlen, hlcp.pos_eq.trans hlcplen⟩
  refine ⟨run.setSentinels (numsplitters (r + 1)), ?_, htree ▸ hbuilt, hslots,
    hlcp.slots_eq.trans (congrArg List.range hlcplen), Function.update_self .., fun i k hk => ?_,
    fun hb => ⟨?_, fun i k hk => ?_⟩⟩
  · rw [RecursiveBuilder.build, hrun, Option.bind_some]
    exact if_pos hassert
  · -- the bytes of the recursion, and the sentinel at the first one
    change (splitterList (r + 1) run.arrays.tree)[i]? = some k at hk
    change Function.update (Function.update run.arrays.lcp 0 _) _ _ i = if i = 0 then _ else
      lcpByte ((splitterList (r + 1) run.arrays.tree).getD (i - 1) 0) k
    rw [htree] at hk ⊢
    have hi : i < numsplitters (r + 1) := hlen ▸ (List.getElem?_eq_some_iff.mp hk).1
    have hbyte := hlcp.holds i _ (getElem?_lcpBytes 0 hk)
    rw [Function.update_of_ne hi.ne]
    rcases Nat.eq_zero_or_pos i with rfl | hi0
    · rw [Function.update_self, hbyte, if_pos rfl]
      rfl
    · obtain ⟨j, rfl⟩ : ∃ j, i = j + 1 := ⟨i - 1, by omega⟩
      rw [Function.update_of_ne (by omega), hbyte, if_neg (by omega)]
      rfl
  · exact (hsplitter hb).slots_eq.trans (congrArg List.range hlen)
  · change (splitterList (r + 1) run.arrays.tree)[i]? = some k at hk
    rw [htree] at hk
    exact (hsplitter hb).holds i k hk

/-- The arrays that a recursive builder leaves, and the slots that its recursion writes. -/
structure BuilderRun.Complete (treebits : ℕ) (samples : ℕ → KeyType) (samplesize : ℕ)
    (run : BuilderRun) : Prop where
  /-- each node has been written once -/
  treeSlots : run.treeSlots.Perm (List.range' 1 (numsplitters treebits))
  /-- each byte has been written once -/
  lcpSlots : run.lcpSlots = List.range (numsplitters treebits)
  sorted : (splitterList treebits run.arrays.tree).Pairwise (· ≤ ·)
  samples : ∀ k ∈ splitterList treebits run.arrays.tree, ∃ i < samplesize, k = samples i
  /-- the number of leading bytes that two neighbouring splitters have in common -/
  common : ∀ j, 1 ≤ j → j < numsplitters treebits → (run.arrays.lcp j &&& 0x7F).toNat =
    lcpLen (keyChars ((splitterList treebits run.arrays.tree).getD (j - 1) 0))
      (keyChars ((splitterList treebits run.arrays.tree).getD j 0))
  marker : ∀ j < numsplitters treebits, run.arrays.lcp j &&& 0x80 ≠ 0 ↔
    lowByte ((splitterList treebits run.arrays.tree).getD j 0) = 0
  first : run.arrays.lcp 0 &&& 0x7F = 0
  last : run.arrays.lcp (numsplitters treebits) &&& 0x7F = 0

/-- A sorted sample is enough for all of it. -/
theorem RecursiveBuilder.build_complete (b : RecursiveBuilder) {treebits : ℕ} (ht : 1 ≤ treebits)
    (hle : treebits ≤ 31) (hsize : 0 < samplesize) (hs : SortedSamples samples samplesize)
    (arrays : SplitterArrays) :
    ∃ run, b.build treebits samples samplesize arrays = some run ∧
      run.Complete treebits samples samplesize := by
  obtain ⟨run, hrun, hbuilt, htree, hlcp, hlast, hbytes, -⟩ :=
    @build_spec samples samplesize b treebits ht hle hsize arrays
  have hlen := length_splitterList treebits run.arrays.tree
  have hget : ∀ j < numsplitters treebits, (splitterList treebits run.arrays.tree)[j]? =
      some ((splitterList treebits run.arrays.tree).getD j 0) := fun j hj => by
    rw [List.getD_eq_getElem?_getD, List.getElem?_eq_getElem (hlen ▸ hj)]
    rfl
  have hmask : (0x80 &&& 0x7F : BitVec 8) = 0 ∧ (0x80 &&& 0x80 : BitVec 8) = 0x80 := by decide
  refine ⟨run, hrun, ?_, hlcp, hbuilt.pairwise hs (Nat.zero_le _) (le_refl _) hsize,
    fun k hk => hbuilt.mem_samples (Nat.zero_le _) (le_refl _) hsize hk, fun j h1 hj => ?_,
    fun j hj => ?_, ?_, by rw [hlast]; rfl⟩
  · rw [htree, numsplitters, Nat.one_shiftLeft]
    exact preorder_perm treebits
  · rw [hbytes j _ (hget j hj), if_neg (by omega), (lcpByte_and _ _).1, keyChars_lcp]
  · rw [hbytes j _ (hget j hj)]
    split
    · rw [BitVec.and_assoc, hmask.2]
      exact (lcpByte_and 0 _).2
    · exact (lcpByte_and _ _).2
  · rw [hbytes 0 _ (hget 0 (numsplitters_pos ht)), if_pos rfl, BitVec.and_assoc, hmask.1]
    exact BitVec.and_zero

/-- Two builders leave the same tree and the same bytes. -/
structure SplitterArrays.SameTree (treebits : ℕ) (a a' : SplitterArrays) : Prop where
  tree_eq : ∀ i, 1 ≤ i → i ≤ numsplitters treebits → a.tree i = a'.tree i
  lcp_eq : ∀ j ≤ numsplitters treebits, a.lcp j = a'.lcp j

/-- The samples determine the tree, and the tree determines the bytes. -/
theorem sameTree_of_built {treebits : ℕ} {a a' : SplitterArrays}
    (hbuilt : Built samples a.tree treebits 1 0 samplesize)
    (hbuilt' : Built samples a'.tree treebits 1 0 samplesize)
    (hlast : a.lcp (numsplitters treebits) = 0) (hlast' : a'.lcp (numsplitters treebits) = 0)
    (hbytes : ∀ i k, (splitterList treebits a.tree)[i]? = some k → a.lcp i =
      if i = 0 then lcpByte 0 k &&& 0x80
      else lcpByte ((splitterList treebits a.tree).getD (i - 1) 0) k)
    (hbytes' : ∀ i k, (splitterList treebits a'.tree)[i]? = some k → a'.lcp i =
      if i = 0 then lcpByte 0 k &&& 0x80
      else lcpByte ((splitterList treebits a'.tree).getD (i - 1) 0) k) :
    a.SameTree treebits a' := by
  have htree : ∀ i, InSubtree treebits 1 i → a.tree i = a'.tree i :=
    fun i hi => hbuilt.ext hbuilt' hi
  have hlist : splitterList treebits a.tree = splitterList treebits a'.tree := inorder_congr htree
  refine ⟨fun i h1 hi => htree i ((inSubtree_root_iff treebits i).mpr ⟨h1, ?_⟩), fun j hj => ?_⟩
  · rw [← numsplitters_succ]
    omega
  · rcases Nat.eq_or_lt_of_le hj with rfl | hlt
    · rw [hlast, hlast']
    · rw [← length_splitterList treebits a.tree] at hlt
      obtain ⟨k, hk⟩ : ∃ k, (splitterList treebits a.tree)[j]? = some k :=
        ⟨_, List.getElem?_eq_getElem hlt⟩
      rw [hbytes j k hk, hbytes' j k (hlist ▸ hk), hlist]

/-- For every number of levels up to 31 and every sorted sample, with any duplicates and of any
size, both recursive builders read the sample array only, write each slot once, and leave right
arrays.  They leave the same tree and the same bytes, and the array `splitter` of the first is the
in-order sequence of the tree. -/
theorem treeBuilders_build {treebits : ℕ} (ht : 1 ≤ treebits) (hle : treebits ≤ 31)
    (hsize : 0 < samplesize) (hs : SortedSamples samples samplesize) (arrays arrays' : SplitterArrays) :
    ∃ pre level,
      RecursiveBuilder.preAndLevelOrder.build treebits samples samplesize arrays = some pre ∧
      RecursiveBuilder.levelOrder.build treebits samples samplesize arrays' = some level ∧
      pre.Complete treebits samples samplesize ∧ level.Complete treebits samples samplesize ∧
      pre.arrays.SameTree treebits level.arrays ∧
      pre.splitterSlots = List.range (numsplitters treebits) ∧
      ∀ j < numsplitters treebits,
        pre.arrays.splitter j = (splitterList treebits pre.arrays.tree).getD j 0 := by
  obtain ⟨pre, hpre, hbuilt, -, -, hlast, hbytes, hsplitter⟩ :=
    RecursiveBuilder.preAndLevelOrder.build_spec ht hle hsize arrays
  obtain ⟨level, hlevel, hbuilt', -, -, hlast', hbytes', -⟩ :=
    RecursiveBuilder.levelOrder.build_spec ht hle hsize arrays'
  obtain ⟨run, hrun, hcomplete⟩ :=
    RecursiveBuilder.preAndLevelOrder.build_complete ht hle hsize hs arrays
  obtain ⟨run', hrun', hcomplete'⟩ :=
    RecursiveBuilder.levelOrder.build_complete ht hle hsize hs arrays'
  rw [Option.some_inj.mp (hrun.symm.trans hpre)] at hcomplete
  rw [Option.some_inj.mp (hrun'.symm.trans hlevel)] at hcomplete'
  refine ⟨pre, level, hpre, hlevel, hcomplete, hcomplete',
    sameTree_of_built hbuilt hbuilt' hlast hlast' hbytes hbytes', (hsplitter rfl).1,
    fun j hj => (hsplitter rfl).2 j _ ?_⟩
  rw [List.getD_eq_getElem?_getD, List.getElem?_eq_getElem (by rwa [length_splitterList])]
  rfl

/-- Two samples that are the same, for three splitters. -/
theorem treeBuilders_build_twoSamples :
    let arrays : SplitterArrays := ⟨fun _ => 7, fun _ => 7, fun _ => 7⟩
    ∃ pre level,
      RecursiveBuilder.preAndLevelOrder.build 2 (fun _ => 0x61) 2 arrays = some pre ∧
      RecursiveBuilder.levelOrder.build 2 (fun _ => 0x61) 2 arrays = some level ∧
      pre.Complete 2 (fun _ => 0x61) 2 ∧ level.Complete 2 (fun _ => 0x61) 2 ∧
      pre.arrays.SameTree 2 level.arrays ∧ pre.splitterSlots = List.range (numsplitters 2) ∧
      ∀ j < numsplitters 2, pre.arrays.splitter j = (splitterList 2 pre.arrays.tree).getD j 0 :=
  treeBuilders_build (by decide) (by decide) (by decide) (fun _ _ _ _ => le_refl _) _ _

/-- With 32 levels or more, no call of the recursion returns: every node seems to have children. -/
theorem recurseChecked_eq_none (b : RecursiveBuilder) {treebits : ℕ} (ht : 32 ≤ treebits)
    (sample : ℕ → Option KeyType) (fuel lo hi treeidx : ℕ) (rec_prevkey : KeyType)
    (run : BuilderRun) :
    recurseChecked sample b (numsplitters treebits) fuel lo hi treeidx rec_prevkey run = none := by
  induction fuel generalizing lo hi treeidx rec_prevkey run with
  | zero => rfl
  | succ fuel ih =>
    rw [recurseChecked]
    simp only [child_lt_numsplitters ht treeidx, if_true, Option.bind_eq_none_iff]
    intro mykey _ midlo _ midhi _ left hleft
    -- the call for the left child does not come back
    rw [ih] at hleft
    cases hleft

/-- A sample of one key, for 32 levels: however many calls there are, no builder returns. -/
theorem treeBuilders_overflow :
    let arrays : SplitterArrays := ⟨fun _ => 7, fun _ => 7, fun _ => 7⟩
    let recursion := fun b fuel => recurseChecked (readAt 1 fun _ => 0x61) b (numsplitters 32) fuel
      0 1 1 0 ⟨arrays, 0, 0, [], [], []⟩
    SortedSamples (fun _ => 0x61) 1 ∧ (¬ ∃ fuel r, recursion .preAndLevelOrder fuel = some r) ∧
      ¬ ∃ fuel r, recursion .levelOrder fuel = some r := by
  refine ⟨fun _ _ _ _ => le_refl _, ?_, ?_⟩
  · rintro ⟨fuel, r, h⟩
    have hnone := recurseChecked_eq_none .preAndLevelOrder (le_refl 32) (readAt 1 fun _ => 0x61)
      fuel 0 1 1 0 ⟨⟨fun _ => 7, fun _ => 7, fun _ => 7⟩, 0, 0, [], [], []⟩
    cases hnone.symm.trans h
  · rintro ⟨fuel, r, h⟩
    have hnone := recurseChecked_eq_none .levelOrder (le_refl 32) (readAt 1 fun _ => 0x61)
      fuel 0 1 1 0 ⟨⟨fun _ => 7, fun _ => 7, fun _ => 7⟩, 0, 0, [], [], []⟩
    cases hnone.symm.trans h

end Builders

end StringSampleSort
