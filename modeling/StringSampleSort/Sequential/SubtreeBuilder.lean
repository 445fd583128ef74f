import StringSampleSort.Library.Slice
import StringSampleSort.Sequential.BucketOrder
import StringSampleSort.Tools.GetChar

/-!
# Building nested splitter trees

Model of `SplitterTree::Builder` of `src/sequential/bingmann-sample_sortRBTCE.cpp`.  A splitter with
many samples gets a tree of its own: the keys of its samples are replaced by those eight characters
behind, and another builder goes over this part of the sample, while the first one is not done.

A sample keeps record here of the depth that its key has been read at, and a read by a builder of
another depth has no result.

## Main results

- `Nested`: a finished tree and all trees below it, which follow it in the list of trees
- `recurse_spec`: what one call of the recursion writes, and the trees that it appends
- `build_ok`: a builder reads keys of its own depth only, and leaves nested trees
-/

namespace StringSampleSort

open Library Slice

/-- `samplepair_type`, with the depth of the key. -/
structure SamplePair where
  first : KeyType
  second : ℕ
  depth : ℕ
  deriving Inhabited

/-- What is left of `SplitterTree` when the builder is done: `splitter_tree`, `splitter_lcp` and
`splitter_subtree`. -/
structure SplitterTree where
  tree : ℕ → KeyType
  lcp : ℕ → BitVec 8
  subtree : ℕ → BitVec 8
  deriving Inhabited

namespace SubtreeBuilder

/-! ## Model -/

section Model

/-- `std::pair` compares the keys, then the indices. -/
def pairLe (a b : SamplePair) : Bool :=
  decide (a.first < b.first ∨ (a.first = b.first ∧ a.second ≤ b.second))

/-- `std::sort` of a range of samples. -/
def sortPairs (samples : List SamplePair) : ℕ → SamplePair :=
  fun i => (samples.mergeSort pairLe).getD i default

/-- `samples[i].first`, for a builder at `depth`. -/
def readKey (samples : ℕ → SamplePair) (depth i : ℕ) : Option KeyType :=
  if (samples i).depth = depth then some (samples i).first else none

/-- `while (lo < midlo && (midlo - 1)->first == mykey) midlo--`. -/
def skipLow (samples : ℕ → SamplePair) (depth : ℕ) (mykey : KeyType) (lo : ℕ) : ℕ → Option ℕ
  | 0 => some 0
  | m + 1 =>
    if lo < m + 1 then
      (readKey samples depth m).bind fun key =>
        if key = mykey then skipLow samples depth mykey lo m else some (m + 1)
    else some (m + 1)

/-- `while (midhi + 1 < hi && midhi->first == mykey) midhi++`, for at most `fuel` rounds. -/
def skipHigh (samples : ℕ → SamplePair) (depth : ℕ) (mykey : KeyType) (hi : ℕ) :
    ℕ → ℕ → Option ℕ
  | 0, m => some m
  | fuel + 1, m =>
    if m + 1 < hi then
      (readKey samples depth m).bind fun key =>
        if key = mykey then skipHigh samples depth mykey hi fuel (m + 1) else some m
    else some m

/-- The samples and the list of trees, which all builders work on, and what the builder has written:
`m_tree`, and the ranges before `m_lcp_iter` and `m_subtree_iter`. -/
structure State where
  samples : ℕ → SamplePair
  treelist : List SplitterTree
  tree : ℕ → KeyType
  lcp : List (BitVec 8)
  subtree : List (BitVec 8)

variable {mem : ℕ → CharType} (treebits : ℕ) (strings : ℕ → CString mem)

/-- `s->first = get_char<key_type>(m_strings[p], m_depth + sizeof(key_type))`, where `p` is
`s->second`. -/
def replaceKey (depth : ℕ) (s : SamplePair) : SamplePair :=
  { s with first := getChar mem (strings s.second).ptr depth, depth := depth }

/-- `keynode(prevkey, mykey, midlo, midhi)`; `build` is the builder of the subtree. -/
def keynode (build : (ℕ → SamplePair) → List SplitterTree → ℕ → ℕ →
      Option ((ℕ → SamplePair) × List SplitterTree × SplitterTree))
    (depth : ℕ) (prevkey mykey : KeyType) (midlo midhi : ℕ) (st : State) : Option State :=
  let lcp := st.lcp ++ [TreeBuilder.lcpByte prevkey mykey]
  if midhi - midlo ≥ numsplitters treebits / 2 ∧ lowByte mykey ≠ 0 ∧ st.treelist.length < 255 then
    let samples := splice st.samples midlo (midhi - midlo)
      (sortPairs ((slice st.samples midlo (midhi - midlo)).map (replaceKey strings (depth + 8))))
    let t := st.treelist.length
    (build samples (st.treelist ++ [default]) midlo midhi).map fun r =>
      { st with
        samples := r.1
        treelist := r.2.1.set t r.2.2
        lcp := lcp
        subtree := st.subtree ++ [BitVec.ofNat 8 t] }
  else some { st with lcp := lcp, subtree := st.subtree ++ [0] }

/-- `recurse(lo, hi, treeidx, rec_prevkey)`, for at most `fuel` levels; it returns the last key of
the range's subtree. -/
def recurse (keynode : KeyType → KeyType → ℕ → ℕ → State → Option State) (depth : ℕ) :
    ℕ → ℕ → ℕ → ℕ → KeyType → State → Option (KeyType × State)
  | 0, _, _, _, rec_prevkey, st => some (rec_prevkey, st)
  | fuel + 1, lo, hi, treeidx, rec_prevkey, st =>
    let mid := TreeBuilder.mid lo hi
    (readKey st.samples depth mid).bind fun mykey =>
    let st := { st with tree := Function.update st.tree treeidx mykey }
    (skipLow st.samples depth mykey lo mid).bind fun midlo =>
    (skipHigh st.samples depth mykey hi hi mid).bind fun midhi =>
    if TreeBuilder.child treeidx 0 < numsplitters treebits then
      (recurse keynode depth fuel lo midlo (TreeBuilder.child treeidx 0) rec_prevkey st).bind
        fun left =>
      (keynode left.1 mykey midlo midhi left.2).bind fun st =>
      recurse keynode depth fuel midhi hi (TreeBuilder.child treeidx 1) mykey st
    else (keynode rec_prevkey mykey midlo midhi st).map fun st => (mykey, st)

/-- `Builder(st, samples, samples_end, treelist, strings, depth)`, for at most `nest` builders inside
each other: the samples, the list of trees, and the tree that has been built. -/
def build : ℕ → ℕ → (ℕ → SamplePair) → List SplitterTree → ℕ → ℕ →
    Option ((ℕ → SamplePair) × List SplitterTree × SplitterTree)
  | 0, _, _, _, _, _ => none
  | nest + 1, depth, samples, treelist, lo, hi =>
    (recurse treebits (keynode treebits strings (build nest (depth + 8)) depth) depth treebits
      lo hi 1 0 ⟨samples, treelist, fun _ => 0, [], []⟩).bind fun r =>
    -- assert(m_lcp_iter == st.splitter_lcp + numsplitters), and for m_subtree_iter
    if r.2.lcp.length = numsplitters treebits ∧ r.2.subtree.length = numsplitters treebits then
      some (r.2.samples, r.2.treelist,
        { tree := r.2.tree
          lcp := fun i => if i = 0 then r.2.lcp.getD 0 0 &&& 0x80 else r.2.lcp.getD i 0
          subtree := fun i => r.2.subtree.getD i 0 })
    else none

end Model

/-! ## Reads -/

section Reads

variable {samples : ℕ → SamplePair} {keys : ℕ → KeyType} {depth lo hi : ℕ}

/-- The keys of a range, all read at the depth; an empty range has one as well. -/
def Fresh (samples : ℕ → SamplePair) (keys : ℕ → KeyType) (depth lo hi : ℕ) : Prop :=
  ∀ i, lo ≤ i → i < max hi (lo + 1) → (samples i).first = keys i ∧ (samples i).depth = depth

theorem Fresh.readKey (h : Fresh samples keys depth lo hi) {i : ℕ} (hlo : lo ≤ i)
    (hhi : i < max hi (lo + 1)) : readKey samples depth i = some (keys i) := by
  obtain ⟨h₁, h₂⟩ := h i hlo hhi
  rw [SubtreeBuilder.readKey, if_pos h₂, h₁]

theorem Fresh.skipLow (h : Fresh samples keys depth lo hi) (mykey : KeyType) {m : ℕ}
    (hm : m ≤ max hi (lo + 1)) :
    skipLow samples depth mykey lo m = some (TreeBuilder.skipLow keys mykey lo m) := by
  induction m with
  | zero => rfl
  | succ m ih =>
    rw [SubtreeBuilder.skipLow, TreeBuilder.skipLow]
    by_cases hlt : lo < m + 1
    · rw [if_pos hlt, h.readKey (by omega) (by omega), Option.bind_some]
      by_cases hkey : keys m = mykey
      · rw [if_pos hkey, if_pos ⟨hlt, hkey⟩, ih (by omega)]
      · rw [if_neg hkey, if_neg fun h => hkey h.2]
    · rw [if_neg hlt, if_neg fun h => hlt h.1]

theorem Fresh.skipHigh (h : Fresh samples keys depth lo hi) (mykey : KeyType) (fuel : ℕ) {m : ℕ}
    (hm : lo ≤ m) :
    skipHigh samples depth mykey hi fuel m = some (TreeBuilder.skipHigh keys mykey hi fuel m) := by
  induction fuel generalizing m with
  | zero => rfl
  | succ fuel ih =>
    rw [SubtreeBuilder.skipHigh, TreeBuilder.skipHigh]
    by_cases hlt : m + 1 < hi
    · rw [if_pos hlt, h.readKey hm (by omega), Option.bind_some]
      by_cases hkey : keys m = mykey
      · rw [if_pos hkey, if_pos ⟨hlt, hkey⟩, ih (by omega)]
      · rw [if_neg hkey, if_neg fun h => hkey h.2]
    · rw [if_neg hlt, if_neg fun h => hlt h.1]

theorem skipHigh_eq (keys : ℕ → KeyType) (mykey : KeyType) (hi : ℕ) {fuel m j : ℕ} (hm : m ≤ j)
    (hj : j < TreeBuilder.skipHigh keys mykey hi fuel m) : keys j = mykey := by
  induction fuel generalizing m with
  | zero =>
    rw [TreeBuilder.skipHigh] at hj
    omega
  | succ fuel ih =>
    rw [TreeBuilder.skipHigh] at hj
    split at hj
    · next h =>
      rcases Nat.eq_or_lt_of_le hm with rfl | hlt
      · exact h.2
      · exact ih hlt hj
    · omega

/-- All samples between `midlo` and `midhi` have the key of the splitter. -/
theorem keys_mid (keys : ℕ → KeyType) {lo hi j : ℕ} (h₁ : TreeBuilder.midlo keys lo hi ≤ j)
    (h₂ : j < TreeBuilder.midhi keys lo hi) : keys j = keys (TreeBuilder.mid lo hi) := by
  rcases Nat.lt_or_ge j (TreeBuilder.mid lo hi) with hlt | hge
  · exact (TreeBuilder.skipLow_spec keys _ lo _ (TreeBuilder.le_mid lo hi)).2.2.1 j h₁ hlt
  · exact skipHigh_eq keys _ hi hge h₂

end Reads

/-! ## Sorted samples -/

section Sorting

theorem pairLe_trans (a b c : SamplePair) (h₁ : pairLe a b = true) (h₂ : pairLe b c = true) :
    pairLe a c = true := by
  rw [pairLe, decide_eq_true_iff] at *
  rcases h₁ with h₁ | ⟨h₁, h₁'⟩
  · rcases h₂ with h₂ | ⟨h₂, -⟩
    · exact Or.inl (h₁.trans h₂)
    · exact Or.inl (h₂ ▸ h₁)
  · rcases h₂ with h₂ | ⟨h₂, h₂'⟩
    · exact Or.inl (h₁ ▸ h₂)
    · exact Or.inr ⟨h₁.trans h₂, h₁'.trans h₂'⟩

theorem pairLe_total (a b : SamplePair) : (pairLe a b || pairLe b a) = true := by
  rw [Bool.or_eq_true, pairLe, pairLe, decide_eq_true_iff, decide_eq_true_iff]
  rcases lt_trichotomy a.first b.first with h | h | h
  · exact Or.inl (Or.inl h)
  · exact (Nat.le_total a.second b.second).imp (fun hle => Or.inr ⟨h, hle⟩)
      fun hle => Or.inr ⟨h.symm, hle⟩
  · exact Or.inr (Or.inl h)

theorem sortPairs_getElem? {l : List SamplePair} {i : ℕ} (hi : i < l.length) :
    (l.mergeSort pairLe)[i]? = some (sortPairs l i) := by
  rw [sortPairs, List.getD_eq_getElem?_getD, List.getElem?_eq_getElem (by simpa using hi)]
  rfl

theorem sortPairs_mem {l : List SamplePair} {i : ℕ} (hi : i < l.length) : sortPairs l i ∈ l :=
  List.mem_mergeSort.mp (List.mem_of_getElem? (sortPairs_getElem? hi))

/-- The keys are sorted. -/
theorem sortPairs_sorted {l : List SamplePair} {i j : ℕ} (hij : i ≤ j) (hj : j < l.length) :
    (sortPairs l i).first ≤ (sortPairs l j).first := by
  rcases Nat.eq_or_lt_of_le hij with rfl | hlt
  · exact le_refl _
  · obtain ⟨hi', hgeti⟩ := List.getElem?_eq_some_iff.mp (sortPairs_getElem? (hlt.trans hj))
    obtain ⟨hj', hgetj⟩ := List.getElem?_eq_some_iff.mp (sortPairs_getElem? hj)
    have hle := List.pairwise_iff_getElem.mp
      (List.pairwise_mergeSort pairLe_trans pairLe_total l) i j hi' hj' hlt
    rw [hgeti, hgetj, pairLe, decide_eq_true_iff] at hle
    exact hle.elim le_of_lt fun h => h.1.le

end Sorting

/-! ## Nested trees -/

section NestedTrees

variable {mem : ℕ → CharType} (treebits : ℕ) (strings : ℕ → CString mem)

/-- A sample of a builder at `depth`, drawn from the strings with numbers in `P`. -/
def IsSample (P : ℕ → Prop) (depth : ℕ) (s : SamplePair) : Prop :=
  s.first = getChar mem (strings s.second).ptr depth ∧ s.depth = depth ∧ P s.second

/-- What a splitter tree is good for, apart from its subtrees. -/
structure TreeOk (P : ℕ → Prop) (depth : ℕ) (T : SplitterTree) : Prop where
  sorted : (splitterList treebits T.tree).Pairwise (· ≤ ·)
  splitter : ∀ k ∈ splitterList treebits T.tree, ∃ p, P p ∧ getChar mem (strings p).ptr depth = k
  less : ∀ i < numsplitters treebits,
    (T.lcp i &&& 0x7F).toNat = lessLcp (splitterList treebits T.tree) i
  done : ∀ i < numsplitters treebits, T.lcp i &&& 0x80 ≠ 0 ↔
    lowByte ((splitterList treebits T.tree).getD i 0) = 0

/-- The trees with numbers from `a` to `b` are those of the splitters in a list, with all trees below
them: `N` says of each one where it starts and ends and which strings it is built from. -/
inductive Attached (N : ℕ → ℕ → (ℕ → Prop) → Prop) (P : ℕ → Prop) (key : ℕ → KeyType) :
    ℕ → List KeyType → List (BitVec 8) → ℕ → Prop
  | nil {a : ℕ} : Attached N P key a [] [] a
  | without {a b : ℕ} {k : KeyType} {ks : List KeyType} {subs : List (BitVec 8)} :
      Attached N P key a ks subs b → Attached N P key a (k :: ks) (0 :: subs) b
  | attach {a m b : ℕ} {k : KeyType} {ks : List KeyType} {subs : List (BitVec 8)} :
      1 ≤ a → a < 255 → lowByte k ≠ 0 → N a m (fun p => P p ∧ key p = k) →
      Attached N P key m ks subs b → Attached N P key a (k :: ks) (BitVec.ofNat 8 a :: subs) b

/-- Tree `t` has been built at `depth` from the strings in `P`, and the trees behind it up to `e` are
those below it, in at most `nest` levels. -/
def Nested (trees : List SplitterTree) : ℕ → ℕ → ℕ → ℕ → (ℕ → Prop) → Prop
  | 0, _, _, _, _ => False
  | nest + 1, t, e, depth, P => ∃ T, trees[t]? = some T ∧ TreeOk treebits strings P depth T ∧
      ∃ subs, (∀ i, T.subtree i = subs.getD i 0) ∧
        Attached (fun a b Q => Nested trees nest a b (depth + 8) Q) P
          (fun p => getChar mem (strings p).ptr depth) (t + 1) (splitterList treebits T.tree) subs e

/-- The list has these trees from number `a` on. -/
def HasBlock (trees : List SplitterTree) (a : ℕ) (block : List SplitterTree) : Prop :=
  ∀ y < block.length, trees[a + y]? = block[y]?

end NestedTrees

section Blocks

variable {trees block block' : List SplitterTree} {a : ℕ} {T : SplitterTree}

theorem HasBlock.left (h : HasBlock trees a (block ++ block')) : HasBlock trees a block :=
  fun y hy => by rw [h y (by rw [List.length_append]; omega), List.getElem?_append_left hy]

theorem HasBlock.right (h : HasBlock trees a (block ++ block')) :
    HasBlock trees (a + block.length) block' := fun y hy => by
  rw [Nat.add_assoc, h _ (by rw [List.length_append]; omega),
    List.getElem?_append_right (Nat.le_add_right ..), Nat.add_sub_cancel_left]

theorem HasBlock.head (h : HasBlock trees a (T :: block)) : trees[a]? = some T :=
  h 0 (Nat.succ_pos _)

theorem HasBlock.tail (h : HasBlock trees a (T :: block)) : HasBlock trees (a + 1) block :=
  fun y hy => by
    rw [show a + 1 + y = a + (y + 1) by omega, h _ (by rw [List.length_cons]; omega),
      List.getElem?_cons_succ]

end Blocks

section AttachedLemmas

variable {N : ℕ → ℕ → (ℕ → Prop) → Prop} {P : ℕ → Prop} {key : ℕ → KeyType} {a b c : ℕ}
  {ks ks' : List KeyType} {subs subs' : List (BitVec 8)}

theorem Attached.append (h : Attached N P key a ks subs b) (h' : Attached N P key b ks' subs' c) :
    Attached N P key a (ks ++ ks') (subs ++ subs') c := by
  induction h with
  | nil => exact h'
  | without _ ih => exact .without (ih h')
  | attach h₁ h₂ hlow hN _ ih => exact .attach h₁ h₂ hlow hN (ih h')

theorem Attached.length_eq (h : Attached N P key a ks subs b) : subs.length = ks.length := by
  induction h with
  | nil => rfl
  | without _ ih => rw [List.length_cons, List.length_cons, ih]
  | attach _ _ _ _ _ ih => rw [List.length_cons, List.length_cons, ih]

/-- The trees of splitter `j` start at `ends j` and end at `ends (j + 1)`. -/
theorem Attached.exists_ends (h : Attached N P key a ks subs b) :
    ∃ ends : ℕ → ℕ, ends 0 = a ∧ ends ks.length = b ∧ ∀ j k, ks[j]? = some k →
      (subs.getD j 0 = 0 ∧ ends (j + 1) = ends j) ∨
      (subs.getD j 0 ≠ 0 ∧ (subs.getD j 0).toNat = ends j ∧ 1 ≤ ends j ∧ ends j < 255 ∧
        lowByte k ≠ 0 ∧ N (ends j) (ends (j + 1)) fun p => P p ∧ key p = k) := by
  induction h with
  | @nil a => exact ⟨fun _ => a, rfl, rfl, fun j k hj => by simp at hj⟩
  | @without a b k ks subs _ ih =>
    obtain ⟨ends, h₁, h₂, h₃⟩ := ih
    refine ⟨fun j => Nat.casesOn j a ends, rfl, h₂, fun j l hj => ?_⟩
    cases j with
    | zero => exact Or.inl ⟨rfl, h₁⟩
    | succ j => exact h₃ j l hj
  | @attach a m b k ks subs hpos hlt hlow hN _ ih =>
    obtain ⟨ends, h₁, h₂, h₃⟩ := ih
    refine ⟨fun j => Nat.casesOn j a ends, rfl, h₂, fun j l hj => ?_⟩
    cases j with
    | zero =>
      have hval : (BitVec.ofNat 8 a).toNat = a := by
        rw [BitVec.toNat_ofNat, Nat.mod_eq_of_lt (by omega)]
      have hkl : k = l := Option.some_inj.mp hj
      subst hkl
      rw [← h₁] at hN
      refine Or.inr ⟨fun h0 => ?_, hval, hpos, hlt, hlow, hN⟩
      rw [List.getD_cons_zero] at h0
      rw [h0] at hval
      exact absurd hval (by simp; omega)
    | succ j => exact h₃ j l hj

end AttachedLemmas

/-! ## What the builder does -/

section Correctness

variable {mem : ℕ → CharType} {treebits : ℕ} {strings : ℕ → CString mem} {P : ℕ → Prop}
  {N : ℕ → ℕ → (ℕ → Prop) → Prop} {depth nest : ℕ}

/-- What one `keynode` does, when the list of trees has enough places: it appends the trees of its
splitter. -/
def KeynodeOk (strings : ℕ → CString mem) (trees_of : List SplitterTree → ℕ → ℕ → (ℕ → Prop) → Prop)
    (P : ℕ → Prop) (depth nest : ℕ)
    (keynode : KeyType → KeyType → ℕ → ℕ → State → Option State) : Prop :=
  ∀ (prevkey mykey : KeyType) (midlo midhi : ℕ) (st : State), 1 ≤ st.treelist.length →
    st.treelist.length ≤ 255 → 255 ≤ st.treelist.length + nest →
    (∀ x, midlo ≤ x → x < midhi → IsSample strings P depth (st.samples x) ∧
      (st.samples x).first = mykey) →
    ∃ samples sub block, keynode prevkey mykey midlo midhi st =
        some ⟨samples, st.treelist ++ block, st.tree,
          st.lcp ++ [TreeBuilder.lcpByte prevkey mykey], st.subtree ++ [sub]⟩ ∧
      (∀ x, x < midlo ∨ midhi ≤ x → samples x = st.samples x) ∧
      st.treelist.length + block.length ≤ 255 ∧
      ∀ trees, HasBlock trees st.treelist.length block →
        Attached (trees_of trees) P (fun p => getChar mem (strings p).ptr depth)
          st.treelist.length [mykey] [sub] (st.treelist.length + block.length)

/-- One call of the recursion: no read is of a replaced key, the samples of its range only are
replaced, and the trees of its splitters are appended in sorted order. -/
theorem recurse_spec (ht : treebits ≤ 31)
    {trees_of : List SplitterTree → ℕ → ℕ → (ℕ → Prop) → Prop}
    {keynode : KeyType → KeyType → ℕ → ℕ → State → Option State}
    (hkeynode : KeynodeOk strings trees_of P depth nest keynode) (keys : ℕ → KeyType) {d r i : ℕ}
    (hr : d + r = treebits) (h₁ : 2 ^ d ≤ i) (h₂ : i < 2 ^ (d + 1)) {lo hi : ℕ} (hle : lo ≤ hi)
    (prevkey : KeyType) (st : State) (hpos : 1 ≤ st.treelist.length)
    (hsize : st.treelist.length ≤ 255) (hnest : 255 ≤ st.treelist.length + nest)
    (hs : ∀ x, lo ≤ x → x < max hi (lo + 1) → IsSample strings P depth (st.samples x) ∧
      (st.samples x).first = keys x) :
    ∃ samples tree subs block, recurse treebits keynode depth r lo hi i prevkey st =
        some ((inorder tree r i).getLastD prevkey,
          ⟨samples, st.treelist ++ block, tree,
            st.lcp ++ TreeBuilder.lcpBytes prevkey (inorder tree r i), st.subtree ++ subs⟩) ∧
      TreeBuilder.Built keys tree r i lo hi ∧ (∀ j, ¬ InSubtree r i j → tree j = st.tree j) ∧
      (∀ x, x < lo ∨ hi ≤ x → samples x = st.samples x) ∧
      st.treelist.length + block.length ≤ 255 ∧
      ∀ trees, HasBlock trees st.treelist.length block →
        Attached (trees_of trees) P (fun p => getChar mem (strings p).ptr depth)
          st.treelist.length (inorder tree r i) subs (st.treelist.length + block.length) := by
  induction r generalizing d i lo hi prevkey st with
  | zero =>
    refine ⟨st.samples, st.tree, [], [], ?_, trivial, fun _ _ => rfl, fun _ _ => rfl, hsize,
      fun trees _ => .nil⟩
    simp [recurse, inorder, TreeBuilder.lcpBytes]
  | succ r ih =>
    have hp := Nat.two_pow_pos d
    have hfresh : Fresh st.samples keys depth lo hi := fun x hx hx' =>
      ⟨(hs x hx hx').2, (hs x hx hx').1.2.1⟩
    -- the parts of the range
    have hlow := TreeBuilder.le_midlo keys lo hi
    have hmidlo := TreeBuilder.midlo_le_mid keys lo hi
    have hmidhi := TreeBuilder.mid_le_midhi keys lo hi
    have hmid : TreeBuilder.mid lo hi < max hi (lo + 1) := by
      unfold TreeBuilder.mid
      omega
    have hhigh : TreeBuilder.midhi keys lo hi ≤ hi ∧
        max hi (TreeBuilder.midhi keys lo hi + 1) ≤ max hi (lo + 1) := by
      rcases Nat.eq_or_lt_of_le hle with rfl | hlt
      · rw [TreeBuilder.midhi_self]
        exact ⟨le_refl _, le_refl _⟩
      · have := TreeBuilder.midhi_lt keys hlt
        omega
    have hskip₁ := hfresh.skipLow (keys (TreeBuilder.mid lo hi)) hmid.le
    have hskip₂ := hfresh.skipHigh (keys (TreeBuilder.mid lo hi)) hi
      (TreeBuilder.le_mid lo hi)
    rw [← TreeBuilder.midlo] at hskip₁
    rw [← TreeBuilder.midhi] at hskip₂
    set mykey := keys (TreeBuilder.mid lo hi) with hmykey
    set midlo := TreeBuilder.midlo keys lo hi with hmidlo_eq
    set midhi := TreeBuilder.midhi keys lo hi with hmidhi_eq
    have hkeys : ∀ x, midlo ≤ x → x < midhi → keys x = mykey := fun x => keys_mid keys
    have hread : readKey st.samples depth (TreeBuilder.mid lo hi) = some mykey :=
      hfresh.readKey (TreeBuilder.le_mid lo hi) hmid
    simp only [recurse, hread, Option.bind_some, hskip₁, hskip₂,
      TreeBuilder.child_eq ht hr h₂ (Nat.zero_le 1), TreeBuilder.child_eq ht hr h₂ (le_refl 1),
      Nat.add_zero]
    set st₀ : State := { st with tree := Function.update st.tree i mykey } with hst₀
    have hpos₀ : 1 ≤ st₀.treelist.length := hpos
    have hnest₀ : 255 ≤ st₀.treelist.length + nest := hnest
    by_cases hleaf : r = 0
    · -- last level: the splitter of the range is the only one
      have hcond := (TreeBuilder.two_mul_lt_numsplitters_iff hr h₁ h₂).not.mpr (not_not.mpr hleaf)
      subst hleaf
      obtain ⟨samples, sub, block, heq, hframe, hlen, hatt⟩ := hkeynode prevkey mykey midlo midhi
        st₀ hpos hsize hnest fun x hx hx' => by
          obtain ⟨h, hk⟩ := hs x (by omega) (by omega)
          exact ⟨h, hk.trans (hkeys x hx hx')⟩
      have hroot : Function.update st.tree i mykey i = mykey := Function.update_self ..
      have hinorder : inorder (Function.update st.tree i mykey) 1 i = [mykey] := by
        simp only [inorder, hroot, List.nil_append]
      refine ⟨samples, Function.update st.tree i mykey, [sub], block, ?_, ?_, fun j hj => ?_,
        fun x hx => hframe x (by omega), hlen, ?_⟩
      · rw [if_neg hcond, heq, hinorder]
        rfl
      · exact ⟨hroot, trivial, trivial⟩
      · exact Function.update_of_ne (fun h => hj ((inSubtree_succ ..).mpr (Or.inl h))) _ _
      · rw [hinorder]
        exact hatt
    · have hcond := (TreeBuilder.two_mul_lt_numsplitters_iff hr h₁ h₂).mpr hleaf
      rw [if_pos hcond]
      have hlevel : 2 ^ (d + 1 + 1) = 2 * 2 ^ (d + 1) ∧ 2 ^ (d + 1) = 2 * 2 ^ d := by
        constructor <;> ring
      obtain ⟨samples₁, tree₁, subs₁, block₁, heq₁, hbuilt₁, hframe₁, hsamples₁, hlen₁, hatt₁⟩ :=
        ih (d := d + 1) (i := 2 * i) (by omega) (by omega) (by omega) hlow prevkey st₀ hpos hsize
          hnest fun x hx hx' => hs x hx (by omega)
      rw [heq₁, Option.bind_some]
      -- what lies behind the left part has not been replaced
      obtain ⟨samples₂, sub, block₂, heq₂, hsamples₂, hlen₂, hatt₂⟩ := hkeynode
        ((inorder tree₁ r (2 * i)).getLastD prevkey) mykey midlo midhi
        ⟨samples₁, st₀.treelist ++ block₁, tree₁,
          st₀.lcp ++ TreeBuilder.lcpBytes prevkey (inorder tree₁ r (2 * i)), st₀.subtree ++ subs₁⟩
        (by rw [List.length_append]; omega) (by rw [List.length_append]; exact hlen₁)
        (by rw [List.length_append]; omega)
        fun x hx hx' => by
          obtain ⟨h, hk⟩ := hs x (by omega) (by omega)
          dsimp only
          rw [hsamples₁ x (by omega)]
          exact ⟨h, hk.trans (hkeys x hx hx')⟩
      rw [heq₂, Option.bind_some]
      rw [List.length_append] at hlen₂ hatt₂
      obtain ⟨samples₃, tree₂, subs₃, block₃, heq₃, hbuilt₃, hframe₃, hsamples₃, hlen₃, hatt₃⟩ :=
        ih (d := d + 1) (i := 2 * i + 1) (by omega) (by omega) (by omega) hhigh.1 mykey
          ⟨samples₂, st₀.treelist ++ block₁ ++ block₂, tree₁,
            st₀.lcp ++ TreeBuilder.lcpBytes prevkey (inorder tree₁ r (2 * i)) ++
              [TreeBuilder.lcpByte ((inorder tree₁ r (2 * i)).getLastD prevkey) mykey],
            st₀.subtree ++ subs₁ ++ [sub]⟩
          (by simp only [List.length_append]; omega) (by simp only [List.length_append]; exact hlen₂)
          (by simp only [List.length_append]; omega)
          fun x hx hx' => by
            dsimp only
            rw [hsamples₂ x (by omega)]
            dsimp only
            rw [hsamples₁ x (by omega)]
            exact hs x (by omega) (by omega)
      rw [List.length_append, List.length_append] at hlen₃ hatt₃
      -- the second call does not touch the left subtree, and neither call touches the root
      have hleft : ∀ j, InSubtree r (2 * i) j → tree₂ j = tree₁ j := fun j hj =>
        hframe₃ j (not_inSubtree_sibling (by omega) hj)
      have hroot : tree₂ i = mykey := by
        rw [hframe₃ i fun h => by have := le_of_inSubtree h; omega]
        change tree₁ i = _
        rw [hframe₁ i fun h => by have := le_of_inSubtree h; omega]
        exact Function.update_self ..
      have hinorder : inorder tree₂ (r + 1) i = inorder tree₁ r (2 * i) ++
          mykey :: inorder tree₂ r (2 * i + 1) := by
        rw [inorder, hroot, inorder_congr hleft]
      refine ⟨samples₃, tree₂, subs₁ ++ [sub] ++ subs₃, block₁ ++ block₂ ++ block₃, ?_,
        ⟨hroot, hbuilt₁.congr hleft, hbuilt₃⟩, fun j hj => ?_, fun x hx => ?_, ?_, ?_⟩
      · rw [heq₃, hinorder, TreeBuilder.getLastD_append_cons, TreeBuilder.lcpBytes_append,
          TreeBuilder.lcpBytes]
        simp only [List.append_assoc, List.cons_append, List.nil_append]
        rfl
      · rw [inSubtree_succ, not_or, not_or] at hj
        rw [hframe₃ j hj.2.2]
        change tree₁ j = _
        rw [hframe₁ j hj.2.1]
        exact Function.update_of_ne hj.1 _ _
      · rw [hsamples₃ x (by omega)]
        dsimp only
        rw [hsamples₂ x (by omega)]
        dsimp only
        rw [hsamples₁ x (by omega)]
      · simp only [List.length_append]
        exact (Nat.le_of_eq (by simp only [Nat.add_assoc]; rfl)).trans hlen₃
      · intro trees hblock
        have hb₁ := hatt₁ trees hblock.left.left
        have hb₂ := hatt₂ trees hblock.left.right
        have hright := hblock.right
        rw [List.length_append, ← Nat.add_assoc] at hright
        have hb₃ := hatt₃ trees hright
        rw [hinorder, List.length_append, List.length_append, ← Nat.add_assoc, ← Nat.add_assoc]
        have happ := (hb₁.append hb₂).append hb₃
        rwa [List.append_assoc _ [mykey], List.singleton_append] at happ

theorem isSample_replaceKey (depth : ℕ) {s : SamplePair} (hs : P s.second) :
    IsSample strings P depth (replaceKey strings depth s) := by
  rw [replaceKey]
  exact ⟨rfl, rfl, hs⟩

/-- A builder for sorted samples, when the list of trees has enough places: no read is of a replaced
key, and it leaves nested trees. -/
def BuildOk (treebits : ℕ) (strings : ℕ → CString mem) (nest : ℕ) : Prop :=
  ∀ (depth : ℕ) (P : ℕ → Prop) (samples : ℕ → SamplePair) (treelist : List SplitterTree)
    (lo hi : ℕ), lo < hi → 1 ≤ treelist.length → treelist.length ≤ 255 →
    256 ≤ treelist.length + nest → (∀ x, lo ≤ x → x < hi → IsSample strings P depth (samples x)) →
    (∀ x y, lo ≤ x → x ≤ y → y < hi → (samples x).first ≤ (samples y).first) →
    ∃ samples' block T, build treebits strings nest depth samples treelist lo hi =
        some (samples', treelist ++ block, T) ∧
      (∀ x, x < lo ∨ hi ≤ x → samples' x = samples x) ∧ treelist.length + block.length ≤ 255 ∧
      ∀ trees, trees[treelist.length - 1]? = some T → HasBlock trees treelist.length block →
        Nested treebits strings trees nest (treelist.length - 1) (treelist.length + block.length)
          depth P

/-- `keynode` over a builder that leaves nested trees. -/
theorem keynode_ok (ht : 1 ≤ numsplitters treebits / 2) (hbuild : BuildOk treebits strings nest)
    (depth : ℕ) (P : ℕ → Prop) :
    KeynodeOk strings (fun trees a b Q => Nested treebits strings trees nest a b (depth + 8) Q) P depth
      nest (keynode treebits strings (build treebits strings nest (depth + 8)) depth) := by
  intro prevkey mykey midlo midhi st hpos hsize hnest hs
  rw [keynode]
  split
  · next hcond =>
    obtain ⟨hmany, hlow, hroom⟩ := hcond
    have hlt : midlo < midhi := by omega
    set m := midhi - midlo with hm
    set l := (slice st.samples midlo m).map (replaceKey strings (depth + 8)) with hl
    have hlen : l.length = m := by rw [hl, List.length_map, length_slice]
    have hread : ∀ x, midlo ≤ x → x < midhi →
        splice st.samples midlo m (sortPairs l) x = sortPairs l (x - midlo) := by
      intro x hx hx'
      have h := splice_add st.samples (sortPairs l) midlo (show x - midlo < m by omega)
      rwa [Nat.add_sub_cancel' hx] at h
    -- the samples of the subtree are those of strings with the key of the splitter
    obtain ⟨samples', block, T, heq, hframe, hlen', hnested⟩ := hbuild (depth + 8)
      (fun p => P p ∧ getChar mem (strings p).ptr depth = mykey)
      (splice st.samples midlo m (sortPairs l)) (st.treelist ++ [default]) midlo midhi hlt
      (by simp) (by simp; omega) (by simp; omega)
      (fun x hx hx' => by
        rw [hread x hx hx']
        obtain ⟨s, hs', heq⟩ := List.mem_map.mp (sortPairs_mem (l := l) (i := x - midlo) (by omega))
        obtain ⟨y, hy, hys⟩ := mem_slice.mp hs'
        obtain ⟨⟨hfirst, -, hP⟩, hkey⟩ := hs y hy.1 (by have := hy.2; omega)
        rw [← heq, ← hys]
        exact isSample_replaceKey (depth + 8) ⟨hP, hfirst.symm.trans hkey⟩)
      (fun x y hx hxy hy => by
        rw [hread x hx (by omega), hread y (by omega) hy]
        exact sortPairs_sorted (by omega) (by omega))
    rw [List.length_append, List.length_singleton] at hlen' hnested
    refine ⟨samples', BitVec.ofNat 8 st.treelist.length, T :: block, ?_, fun x hx => ?_, ?_, ?_⟩
    · have hset : (st.treelist ++ [default] ++ block).set st.treelist.length T =
          st.treelist ++ T :: block := by
        rw [List.append_assoc, List.singleton_append, List.set_append_right _ _ (le_refl _),
          Nat.sub_self, List.set_cons_zero]
      dsimp only
      rw [heq, Option.map_some, hset]
    · rw [hframe x hx]
      exact splice_of_not_in _ _ fun hin => by
        have := hin.1
        have := hin.2
        omega
    · rw [List.length_cons]
      omega
    · intro trees hblock
      have h := hnested trees hblock.head hblock.tail
      rw [Nat.add_sub_cancel] at h
      rw [List.length_cons, Nat.add_comm block.length, ← Nat.add_assoc]
      exact .attach hpos hroom hlow h .nil
  · exact ⟨st.samples, 0, [], by rw [List.append_nil], fun _ _ => rfl, hsize,
      fun _ _ => .without .nil⟩

/-- What the splitters of a finished tree are good for. -/
theorem treeOk_of_built {keys : ℕ → KeyType} {size : ℕ} (hsorted : SortedSamples keys size)
    (hkeys : ∀ x < size, ∃ p, P p ∧ getChar mem (strings p).ptr depth = keys x)
    {tree : ℕ → KeyType} {lo : ℕ} (hlo : lo < size)
    (hbuilt : TreeBuilder.Built keys tree treebits 1 lo size) {T : SplitterTree}
    (htree : T.tree = tree)
    (hlcp : ∀ i, T.lcp i = if i = 0
      then (TreeBuilder.lcpBytes 0 (splitterList treebits tree)).getD 0 0 &&& 0x80
      else (TreeBuilder.lcpBytes 0 (splitterList treebits tree)).getD i 0) :
    TreeOk treebits strings P depth T := by
  have hlen := length_splitterList treebits tree
  have hget : ∀ i < numsplitters treebits, (splitterList treebits tree)[i]? =
      some ((splitterList treebits tree).getD i 0) := fun i hi => by
    rw [List.getD_eq_getElem?_getD, List.getElem?_eq_getElem (by omega)]
    rfl
  have hbyte : ∀ i < numsplitters treebits,
      (TreeBuilder.lcpBytes 0 (splitterList treebits tree)).getD i 0 =
      TreeBuilder.lcpByte ((0 :: splitterList treebits tree).getD i 0)
        ((splitterList treebits tree).getD i 0) := fun i hi => by
    rw [List.getD_eq_getElem?_getD, TreeBuilder.getElem?_lcpBytes 0 (hget i hi)]
    rfl
  have hmask : (0x80 &&& 0x7F : BitVec 8) = 0 ∧ (0x80 &&& 0x80 : BitVec 8) = 0x80 := by decide
  subst htree
  refine ⟨hbuilt.pairwise hsorted hlo.le (le_refl _) hlo, fun k hk => ?_, fun i hi => ?_,
    fun i hi => ?_⟩
  · obtain ⟨j, hj, rfl⟩ := hbuilt.mem_samples hlo.le (le_refl _) hlo hk
    exact hkeys j hj
  · rw [hlcp, lessLcp]
    by_cases h0 : i = 0
    · -- the first byte keeps its marker only
      rw [if_pos h0, if_pos (Or.inl h0), BitVec.and_assoc, hmask.1]
      exact congrArg BitVec.toNat BitVec.and_zero
    · obtain ⟨j, rfl⟩ : ∃ j, i = j + 1 := ⟨i - 1, by omega⟩
      rw [if_neg h0, if_neg (by omega), hbyte _ hi, (lcpByte_and ..).1, List.getD_cons_succ]
      rfl
  · rw [hlcp]
    by_cases h0 : i = 0
    · subst h0
      rw [if_pos rfl, BitVec.and_assoc, hmask.2, hbyte _ hi, (lcpByte_and ..).2]
    · rw [if_neg h0, hbyte _ hi, (lcpByte_and ..).2]

/-- Builders of any nesting leave nested trees, since the list of trees has at most 255 places. -/
theorem build_ok (hle : treebits ≤ 31) (ht : 1 ≤ numsplitters treebits / 2)
    (strings : ℕ → CString mem) (nest : ℕ) : BuildOk treebits strings nest := by
  induction nest with
  | zero =>
    intro _ _ _ treelist _ _ _ _ hsize hnest
    omega
  | succ nest ih =>
    intro depth P samples treelist lo hi hlt hpos hsize hnest hs hsorted
    -- the keys of the range, continued below it
    let keys := fun x => (samples (max x lo)).first
    have hkeys : ∀ x, lo ≤ x → keys x = (samples x).first := fun x hx => by
      simp only [keys, max_eq_left hx]
    have hsortedKeys : SortedSamples keys hi := fun i j hij hj =>
      hsorted _ _ (le_max_right ..) (max_le_max_right lo hij) (max_lt hj hlt)
    obtain ⟨samples', tree, subs, block, heq, hbuilt, -, hframe, hlen, hatt⟩ := recurse_spec
      hle (keynode_ok ht ih depth P) keys (d := 0) (r := treebits) (i := 1)
      (Nat.zero_add _) (by norm_num) (by norm_num) hlt.le 0
      ⟨samples, treelist, fun _ => 0, [], []⟩ hpos hsize (by dsimp only; omega) fun x hx hx' =>
        ⟨hs x hx (by omega), (hkeys x hx).symm⟩
    have hlist : inorder tree treebits 1 = splitterList treebits tree := rfl
    simp only [hlist, List.nil_append] at heq hatt
    have hlcpLen := TreeBuilder.length_lcpBytes 0 (splitterList treebits tree)
    rw [length_splitterList] at hlcpLen
    -- each splitter has an entry in `splitter_subtree`
    have hsubLen : subs.length = numsplitters treebits := by
      have h := (hatt (treelist ++ block) fun y _ => by
        rw [List.getElem?_append_right (Nat.le_add_right ..), Nat.add_sub_cancel_left]).length_eq
      rwa [length_splitterList] at h
    let T : SplitterTree :=
      { tree := tree
        lcp := fun i =>
          if i = 0 then (TreeBuilder.lcpBytes 0 (splitterList treebits tree)).getD 0 0 &&& 0x80
          else (TreeBuilder.lcpBytes 0 (splitterList treebits tree)).getD i 0
        subtree := fun i => subs.getD i 0 }
    refine ⟨samples', block, T, ?_, hframe, hlen, fun trees hT hblock => ⟨T, hT, ?_, subs,
      fun i => rfl, ?_⟩⟩
    · rw [build, heq, Option.bind_some, if_pos ⟨hlcpLen, hsubLen⟩]
    · refine treeOk_of_built hsortedKeys (fun x hx => ?_) hlt hbuilt rfl fun i => rfl
      obtain ⟨hfirst, -, hP⟩ := hs (max x lo) (le_max_right ..) (max_lt hx hlt)
      exact ⟨_, hP, hfirst.symm⟩
    · rw [Nat.sub_add_cancel hpos]
      exact hatt trees hblock

end Correctness

/-! ## The trees below a tree -/

section Children

variable {mem : ℕ → CharType} {treebits : ℕ} {strings : ℕ → CString mem}
  {trees : List SplitterTree} {nest t e depth : ℕ} {P : ℕ → Prop}

/-- What is known of a tree and the trees below it: those of splitter `j` start at `ends j`, and end
at `ends (j + 1)`. -/
structure HasChildren (treebits : ℕ) (strings : ℕ → CString mem) (trees : List SplitterTree)
    (nest t e depth : ℕ) (P : ℕ → Prop) (T : SplitterTree) (ends : ℕ → ℕ) : Prop where
  tree : trees[t]? = some T
  ok : TreeOk treebits strings P depth T
  first : ends 0 = t + 1
  last : ends (numsplitters treebits) = e
  child : ∀ j < numsplitters treebits, (T.subtree j = 0 ∧ ends (j + 1) = ends j) ∨
    (T.subtree j ≠ 0 ∧ (T.subtree j).toNat = ends j ∧ 1 ≤ ends j ∧ ends j < 255 ∧
      lowByte ((splitterList treebits T.tree).getD j 0) ≠ 0 ∧
      Nested treebits strings trees nest (ends j) (ends (j + 1)) (depth + 8) fun p =>
        P p ∧ getChar mem (strings p).ptr depth = (splitterList treebits T.tree).getD j 0)

theorem Nested.hasChildren (h : Nested treebits strings trees (nest + 1) t e depth P) :
    ∃ T ends, HasChildren treebits strings trees nest t e depth P T ends := by
  obtain ⟨T, htree, hok, subs, hsubs, hatt⟩ := h
  obtain ⟨ends, hfirst, hlast, hchild⟩ := hatt.exists_ends
  have hlen := length_splitterList treebits T.tree
  refine ⟨T, ends, htree, hok, hfirst, hlen ▸ hlast, fun j hj => ?_⟩
  rw [hsubs]
  refine hchild j _ ?_
  rw [List.getD_eq_getElem?_getD, List.getElem?_eq_getElem (by omega)]
  rfl

/-- Some tree of the list starts a range of nested trees. -/
theorem Nested.exists_tree (h : Nested treebits strings trees nest t e depth P) :
    ∃ T, trees[t]? = some T ∧ TreeOk treebits strings P depth T := by
  cases nest with
  | zero => exact h.elim
  | succ nest =>
    obtain ⟨T, ends, hc⟩ := h.hasChildren
    exact ⟨T, hc.tree, hc.ok⟩

theorem Nested.lt (h : Nested treebits strings trees nest t e depth P) : t < e := by
  induction nest generalizing t e depth P with
  | zero => exact h.elim
  | succ nest ih =>
    obtain ⟨T, ends, hc⟩ := h.hasChildren
    have hmono : ∀ j ≤ numsplitters treebits, t + 1 ≤ ends j := by
      intro j hj
      induction j with
      | zero => exact hc.first.ge
      | succ j ihj =>
        have hle := ihj (by omega)
        rcases hc.child j hj with ⟨-, heq⟩ | ⟨-, -, -, -, -, hN⟩
        · exact hle.trans heq.ge
        · exact hle.trans (ih hN).le
    exact hc.last ▸ hmono _ (le_refl _)

namespace HasChildren

variable {T : SplitterTree} {ends : ℕ → ℕ} {i j : ℕ}

theorem step (h : HasChildren treebits strings trees nest t e depth P T ends)
    (hj : j < numsplitters treebits) : ends j ≤ ends (j + 1) := by
  rcases h.child j hj with ⟨-, heq⟩ | ⟨-, -, -, -, -, hN⟩
  · exact heq.ge
  · exact hN.lt.le

theorem mono (h : HasChildren treebits strings trees nest t e depth P T ends) (hij : i ≤ j)
    (hj : j ≤ numsplitters treebits) : ends i ≤ ends j := by
  induction j, hij using Nat.le_induction with
  | base => exact le_refl _
  | succ j _ ih => exact (ih (by omega)).trans (h.step hj)

/-- A tree below is a tree below one of the splitters. -/
theorem exists_child (h : HasChildren treebits strings trees nest t e depth P T ends) {x : ℕ}
    (hx : t < x) (hxe : x < e) : ∃ j < numsplitters treebits, ends j ≤ x ∧ x < ends (j + 1) := by
  have hall : ∀ i ≤ numsplitters treebits, x < ends i → ∃ j < i, ends j ≤ x ∧ x < ends (j + 1) := by
    intro i hi hlt
    induction i with
    | zero =>
      rw [h.first] at hlt
      omega
    | succ i ih =>
      rcases Nat.lt_or_ge x (ends i) with hlt' | hge
      · obtain ⟨j, hj, hin⟩ := ih (by omega) hlt'
        exact ⟨j, by omega, hin⟩
      · exact ⟨i, Nat.lt_succ_self i, hge, hlt⟩
  exact hall _ (le_refl _) (h.last.symm ▸ hxe)

end HasChildren

/-- Every tree of a range of nested trees starts one itself. -/
theorem Nested.exists_nested (h : Nested treebits strings trees nest t e depth P) {x : ℕ}
    (hx : t ≤ x) (hxe : x < e) :
    ∃ nest' e' depth' P', Nested treebits strings trees nest' x e' depth' P' := by
  induction nest generalizing t e depth P with
  | zero => exact h.elim
  | succ nest ih =>
    rcases Nat.eq_or_lt_of_le hx with rfl | hlt
    · exact ⟨_, _, _, _, h⟩
    · obtain ⟨T, ends, hc⟩ := h.hasChildren
      obtain ⟨j, hj, hlo, hhi⟩ := hc.exists_child hlt hxe
      rcases hc.child j hj with ⟨-, heq⟩ | ⟨-, -, -, -, -, hN⟩
      · omega
      · exact ih hN hlo hhi

end Children

end SubtreeBuilder

end StringSampleSort
