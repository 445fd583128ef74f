import StringSampleSort.Library.SortedList
import StringSampleSort.Sequential.TreeBuilder

/-!
# Classifiers

Model of the classifier classes of `src/sequential/bingmann-sample_sortBSC.hpp`,
`-sample_sortBTC.hpp`, `-sample_sortBTCT.hpp` and `-sample_sortBTCE.hpp`.  A classifier maps a
key to the bucket `2 * i` of the keys before splitter `i` or to the bucket `2 * i + 1` of the
keys equal to it.

The tree classes differ in how they walk down the tree (a loop, an assembler loop with its
test at the end, or unrolled steps), and in what one step does; each class is put together
from these parts.

## Main results

- `findBkt_treeFamily`, `findBkt_equalFamily`: all walks of a family are the same descent
- `findBkt_spec`: every class finds a right bucket for every key
- `classify_spec`: classifying several keys at once is classifying each
-/

namespace StringSampleSort

open Library TreeCalculations

/-! ## Model -/

section Walks

/-- `while (i <= numsplitters) body`, for at most `fuel` rounds.  The body goes to another
node or stops at one. -/
def whileLoop (n : ℕ) (body : ℕ → ℕ ⊕ ℕ) : ℕ → ℕ → ℕ ⊕ ℕ
  | 0, i => .inr i
  | fuel + 1, i =>
    if i ≤ n then
      match body i with
      | .inl m => .inl m
      | .inr i' => whileLoop n body fuel i'
    else .inr i

/-- The assembler loop, which tests at its end (`cmp numsplitters + 1; jb 1b`). -/
def doWhileLoop (n : ℕ) (body : ℕ → ℕ ⊕ ℕ) : ℕ → ℕ → ℕ ⊕ ℕ
  | 0, i => .inr i
  | fuel + 1, i =>
    match body i with
    | .inl m => .inl m
    | .inr i' => if i' < n + 1 then doWhileLoop n body fuel i' else .inr i'

/-- So many steps, one after the other. -/
def unrolledSteps (body : ℕ → ℕ ⊕ ℕ) : ℕ → ℕ → ℕ ⊕ ℕ
  | 0, i => .inr i
  | k + 1, i =>
    match body i with
    | .inl m => .inl m
    | .inr i' => unrolledSteps body k i'

/-- `switch (treebits)` over unrolled steps: it falls through from `case treebits` to
`case 1`, and aborts by default. -/
def switchSteps (treebits : ℕ) (body : ℕ → ℕ ⊕ ℕ) (i : ℕ) : Option (ℕ ⊕ ℕ) :=
  if 1 ≤ treebits ∧ treebits ≤ 15 then some (unrolledSteps body treebits i) else none

variable (tree : ℕ → KeyType) (key : KeyType)

/-- `i = 2 * i + (key <= splitter_tree[i] ? 0 : 1)`. -/
def treeStep (i : ℕ) : ℕ ⊕ ℕ := .inr (2 * i + if key ≤ tree i then 0 else 1)

/-- The same in assembler: `cmpq; lea; lea; cmova`. -/
def treeStepAssembler (i : ℕ) : ℕ ⊕ ℕ :=
  let rax := i + i
  let rcx := rax + 1
  .inr (if key > tree i then rcx else rax)

/-- The body of the loop of `ClassifyEqual`. -/
def equalStep (i : ℕ) : ℕ ⊕ ℕ :=
  if key = tree i then .inl i
  else if key < tree i then .inr (2 * i + 0) else .inr (2 * i + 1)

/-- `TREE_STEP` of `ClassifyEqualUnroll`. -/
def equalStepUnroll (i : ℕ) : ℕ ⊕ ℕ :=
  if key = tree i then .inl i else .inr (2 * i + if key < tree i then 0 else 1)

/-- `SPLITTER_TREE_STEP`: `cmpq; je 2f; lea; lea; cmova`. -/
def equalStepAssembler (i : ℕ) : ℕ ⊕ ℕ :=
  let rax := i + i
  let rcx := rax + 1
  if key = tree i then .inl i else .inr (if key > tree i then rcx else rax)

end Walks

/-- The end of `find_bkt` in the tree classes: `<` bucket or equal bucket. -/
def treeBucket (n : ℕ) (get_splitter : ℕ → Option KeyType) (key : KeyType) :
    ℕ ⊕ ℕ → Option ℕ
  | .inr leaf =>
    let i := leaf - (n + 1)
    some (if i < n ∧ get_splitter i = some key then i * 2 + 1 else i * 2)
  | .inl _ => none

/-- The end of `find_bkt` in the equality classes, where the walk may stop at a node. -/
def equalBucket (treebits : ℕ) : ℕ ⊕ ℕ → Option ℕ
  | .inl i => (levelToPreorder treebits i).map fun pos => 2 * pos - 1
  | .inr leaf => some (2 * (leaf - (numsplitters treebits + 1)))

/-- The same in assembler (`SPLITTER_TREE_END`): the place of node `rax` from label 2 on. -/
def equalBucketAssembler (treebits : ℕ) : ℕ ⊕ ℕ → Option ℕ
  | .inl rax =>
    let rdx := rax.log2
    let rcx := treebits - rdx
    let rax := rax <<< rcx &&& numsplitters treebits
    let rcx := rcx - 1
    let rax := rax ||| 1 <<< rcx
    some (rax + rax - 1)
  | .inr leaf =>
    let rax := leaf - (numsplitters treebits + 1)
    some (rax + rax)

/-- A classifier class: `build`, `find_bkt`, the `classify` of a range by the keys of its
strings, and `get_splitter`.  No result means that the code aborts or that an assertion
fails. -/
structure Classify where
  build : (ℕ → KeyType) → ℕ → SplitterArrays
  findBkt : SplitterArrays → KeyType → Option ℕ
  classify : SplitterArrays → List KeyType → Option (List ℕ)
  getSplitter : SplitterArrays → ℕ → Option KeyType

/-- `return splitter[i];`. -/
def getSplitterArray (a : SplitterArrays) (i : ℕ) : Option KeyType := some (a.splitter i)

/-- `return splitter_tree[TreeCalculations<treebits>::pre_to_levelorder(i + 1)];`. -/
def getSplitterCalc (treebits : ℕ) (a : SplitterArrays) (i : ℕ) : Option KeyType :=
  (preToLevelorder treebits (i + 1)).map a.tree

/-- `return splitter_tree[TreeCalculations<treebits>::pre_to_levelorder(i)];`. -/
def getSplitterEqual (treebits : ℕ) (a : SplitterArrays) (i : ℕ) : Option KeyType :=
  (preToLevelorder treebits i).map a.tree

/-- The `classify` loop of the classes that find one bucket at a time. -/
def classifyEach (find_bkt : KeyType → Option ℕ) (keys : List KeyType) : Option (List ℕ) :=
  keys.mapM find_bkt

/-- `find_bkt_unroll_one`: one step for each of the `Rollout` keys. -/
def findBktUnrollOne (tree : ℕ → KeyType) (ik : List (ℕ × KeyType)) : List (ℕ × KeyType) :=
  ik.map fun p => (2 * p.1 + (if p.2 ≤ tree p.1 then 0 else 1), p.2)

/-- `find_bkt_unroll`: the buckets of `Rollout` keys at once. -/
def findBktUnroll (treebits : ℕ) (tree : ℕ → KeyType) (get_splitter : ℕ → Option KeyType)
    (keys : List KeyType) : Option (List ℕ) :=
  if 1 ≤ treebits ∧ treebits ≤ 15 then
    let ik := (findBktUnrollOne tree)^[treebits] (keys.map fun key => (1, key))
    some (ik.map fun p =>
      let i := p.1 - (numsplitters treebits + 1)
      if i < numsplitters treebits ∧ get_splitter i = some p.2 then i * 2 + 1 else i * 2)
  else none

/-- The `classify` loop of the interleaved classes, for at most `fuel` rounds: `Rollout` keys
at once while more than `Rollout` are left. -/
def classifyInterleave (rollout : ℕ) (find_bkt_unroll : List KeyType → Option (List ℕ))
    (find_bkt : KeyType → Option ℕ) : ℕ → List KeyType → Option (List ℕ)
  | 0, _ => some []
  | _ + 1, [] => some []
  | fuel + 1, key :: keys =>
    if rollout < (key :: keys).length then do
      let bkts ← find_bkt_unroll ((key :: keys).take rollout)
      let rest ← classifyInterleave rollout find_bkt_unroll find_bkt fuel
        ((key :: keys).drop rollout)
      return bkts ++ rest
    else do
      let bkt ← find_bkt key
      let rest ← classifyInterleave rollout find_bkt_unroll find_bkt fuel keys
      return bkt :: rest

/-- The loop of `find_bkt_tree`, for at most `fuel` rounds. -/
def binarySearch (splitter : ℕ → KeyType) (key : KeyType) : ℕ → ℕ → ℕ → ℕ
  | 0, lo, _ => lo
  | fuel + 1, lo, hi =>
    if lo < hi then
      let mid := (lo + hi) >>> 1
      if key ≤ splitter mid then binarySearch splitter key fuel lo mid
      else binarySearch splitter key fuel (mid + 1) hi
    else lo

/-- `find_bkt_tree`. -/
def findBktTree (treebits : ℕ) (a : SplitterArrays) (key : KeyType) : Option ℕ :=
  let lo := binarySearch a.splitter key (numsplitters treebits) 0 (numsplitters treebits)
  some (if lo < numsplitters treebits ∧ a.splitter lo = key then lo * 2 + 1 else lo * 2)

section Classes

variable (treebits : ℕ)

/-- A class that classifies key by key. -/
def classifyOf (build : (ℕ → KeyType) → ℕ → SplitterArrays)
    (findBkt : SplitterArrays → KeyType → Option ℕ)
    (getSplitter : SplitterArrays → ℕ → Option KeyType) : Classify where
  build := build
  findBkt := findBkt
  classify a := classifyEach (findBkt a)
  getSplitter := getSplitter

/-- `ClassifyBinarySearch`. -/
def ClassifyBinarySearch : Classify :=
  classifyOf (TreeBuilderPreorder treebits) (findBktTree treebits) getSplitterArray

/-- `ClassifyTreeSimple`. -/
def ClassifyTreeSimple : Classify :=
  classifyOf (TreeBuilderPreAndLevelOrder treebits)
    (fun a key => treeBucket (numsplitters treebits) (getSplitterArray a) key
      (whileLoop (numsplitters treebits) (treeStep a.tree key) (numsplitters treebits + 1) 1))
    getSplitterArray

/-- `ClassifyTreeAssembler`. -/
def ClassifyTreeAssembler : Classify :=
  classifyOf (TreeBuilderPreAndLevelOrder treebits)
    (fun a key => treeBucket (numsplitters treebits) (getSplitterArray a) key
      (doWhileLoop (numsplitters treebits) (treeStepAssembler a.tree key)
        (numsplitters treebits + 1) 1))
    getSplitterArray

/-- `ClassifyTreeUnroll`, whose loop has a fixed number of rounds. -/
def ClassifyTreeUnroll : Classify :=
  classifyOf (TreeBuilderPreAndLevelOrder treebits)
    (fun a key => treeBucket (numsplitters treebits) (getSplitterArray a) key
      (unrolledSteps (treeStep a.tree key) treebits 1))
    getSplitterArray

/-- `ClassifyTreeUnrollInterleave`, derived from `ClassifyTreeSimple`. -/
def ClassifyTreeUnrollInterleave (rollout : ℕ) : Classify :=
  { ClassifyTreeSimple treebits with
    classify := fun a keys => classifyInterleave rollout
      (findBktUnroll treebits a.tree (getSplitterArray a))
      ((ClassifyTreeSimple treebits).findBkt a) keys.length keys }

/-- `ClassifyTreeCalcSimple`. -/
def ClassifyTreeCalcSimple : Classify :=
  classifyOf (TreeBuilderLevelOrder treebits)
    (fun a key => treeBucket (numsplitters treebits) (getSplitterCalc treebits a) key
      (whileLoop (numsplitters treebits) (treeStep a.tree key) (numsplitters treebits + 1) 1))
    (getSplitterCalc treebits)

/-- `ClassifyTreeCalcUnroll`. -/
def ClassifyTreeCalcUnroll : Classify :=
  classifyOf (TreeBuilderLevelOrder treebits)
    (fun a key => (switchSteps treebits (treeStep a.tree key) 1).bind
      (treeBucket (numsplitters treebits) (getSplitterCalc treebits a) key))
    (getSplitterCalc treebits)

/-- `ClassifyTreeCalcUnrollInterleave`, derived from `ClassifyTreeCalcSimple`. -/
def ClassifyTreeCalcUnrollInterleave (rollout : ℕ) : Classify :=
  { ClassifyTreeCalcSimple treebits with
    classify := fun a keys => classifyInterleave rollout
      (findBktUnroll treebits a.tree (getSplitterCalc treebits a))
      ((ClassifyTreeCalcSimple treebits).findBkt a) keys.length keys }

/-- `ClassifyEqual`. -/
def ClassifyEqual : Classify :=
  classifyOf (TreeBuilderLevelOrder treebits)
    (fun a key => equalBucket treebits
      (whileLoop (numsplitters treebits) (equalStep a.tree key) (numsplitters treebits + 1) 1))
    (getSplitterEqual treebits)

/-- `ClassifyEqualAssembler`. -/
def ClassifyEqualAssembler : Classify :=
  classifyOf (TreeBuilderLevelOrder treebits)
    (fun a key => equalBucketAssembler treebits
      (doWhileLoop (numsplitters treebits) (equalStepAssembler a.tree key)
        (numsplitters treebits + 1) 1))
    (getSplitterEqual treebits)

/-- `ClassifyEqualUnroll`. -/
def ClassifyEqualUnroll : Classify :=
  classifyOf (TreeBuilderLevelOrder treebits)
    (fun a key => (switchSteps treebits (equalStepUnroll a.tree key) 1).bind
      (equalBucket treebits))
    (getSplitterEqual treebits)

/-- `ClassifyEqualUnrollAssembler`, whose `find_bkt` is specialized for 3 to 15 levels only. -/
def ClassifyEqualUnrollAssembler : Classify :=
  classifyOf (TreeBuilderLevelOrder treebits)
    (fun a key => if 3 ≤ treebits ∧ treebits ≤ 15 then
      equalBucketAssembler treebits (unrolledSteps (equalStepAssembler a.tree key) treebits 1)
      else none)
    (getSplitterEqual treebits)

end Classes

/-- The classifier classes. -/
inductive ClassifierClass
  | binarySearch
  | treeSimple
  | treeAssembler
  | treeUnroll
  | treeUnrollInterleave (rollout : ℕ)
  | treeCalcSimple
  | treeCalcUnroll
  | treeCalcUnrollInterleave (rollout : ℕ)
  | equal
  | equalAssembler
  | equalUnroll
  | equalUnrollAssembler
  deriving DecidableEq

namespace ClassifierClass

/-- The class with so many tree levels. -/
def instantiate (treebits : ℕ) : ClassifierClass → Classify
  | binarySearch => ClassifyBinarySearch treebits
  | treeSimple => ClassifyTreeSimple treebits
  | treeAssembler => ClassifyTreeAssembler treebits
  | treeUnroll => ClassifyTreeUnroll treebits
  | treeUnrollInterleave rollout => ClassifyTreeUnrollInterleave treebits rollout
  | treeCalcSimple => ClassifyTreeCalcSimple treebits
  | treeCalcUnroll => ClassifyTreeCalcUnroll treebits
  | treeCalcUnrollInterleave rollout => ClassifyTreeCalcUnrollInterleave treebits rollout
  | equal => ClassifyEqual treebits
  | equalAssembler => ClassifyEqualAssembler treebits
  | equalUnroll => ClassifyEqualUnroll treebits
  | equalUnrollAssembler => ClassifyEqualUnrollAssembler treebits

/-- The sizes for which `find_bkt` of a class can be instantiated: `1 << treebits` is an `int`,
and the unrolled classes have 15 steps at most. -/
def Instantiable (treebits : ℕ) : ClassifierClass → Prop
  | treeCalcUnroll | equalUnroll => 1 ≤ treebits ∧ treebits ≤ 15
  | equalUnrollAssembler => 3 ≤ treebits ∧ treebits ≤ 15
  | _ => 1 ≤ treebits ∧ treebits ≤ 30

instance (treebits : ℕ) : DecidablePred (Instantiable treebits) := fun cl => by
  cases cl <;> exact inferInstanceAs (Decidable (_ ∧ _))

/-- The `Rollout` of an interleaved class. -/
def rollout : ClassifierClass → ℕ
  | treeUnrollInterleave rollout | treeCalcUnrollInterleave rollout => rollout
  | _ => 1

/-- The `ClassifyEqual` family, whose walk stops at the key. -/
def IsEqualFamily : ClassifierClass → Prop
  | equal | equalAssembler | equalUnroll | equalUnrollAssembler => True
  | _ => False

/-- The splitters among which a class finds its buckets, in sorted order. -/
def splitters (treebits : ℕ) (a : SplitterArrays) : ClassifierClass → List KeyType
  | binarySearch => (List.range (numsplitters treebits)).map a.splitter
  | _ => splitterList treebits a.tree

end ClassifierClass

/-! ## All walks take the same steps -/

section Walks

/-- A body that goes to a child or stops. -/
def GoesDown (body : ℕ → ℕ ⊕ ℕ) : Prop :=
  ∀ i i', body i = .inr i' → i' = 2 * i ∨ i' = 2 * i + 1

/-- The nodes of level `d` are tree nodes exactly above the leaf level. -/
private theorem le_numsplitters_iff {treebits d r i : ℕ} (hr : d + r = treebits)
    (h₁ : 2 ^ d ≤ i) (h₂ : i < 2 ^ (d + 1)) : i ≤ numsplitters treebits ↔ r ≠ 0 := by
  rw [numsplitters, Nat.one_shiftLeft, ← hr]
  cases r with
  | zero =>
    have := Nat.two_pow_pos d
    refine iff_of_false ?_ (by simp)
    rw [Nat.add_zero]
    omega
  | succ r =>
    have hpow : 2 ^ (d + 1) ≤ 2 ^ (d + (r + 1)) := Nat.pow_le_pow_right (by omega) (by omega)
    refine iff_of_true ?_ (by simp)
    omega

theorem whileLoop_eq {treebits : ℕ} {body : ℕ → ℕ ⊕ ℕ} (hbody : GoesDown body) {d r i fuel : ℕ}
    (hr : d + r = treebits) (h₁ : 2 ^ d ≤ i) (h₂ : i < 2 ^ (d + 1)) (hfuel : r ≤ fuel) :
    whileLoop (numsplitters treebits) body fuel i = unrolledSteps body r i := by
  -- by induction on the levels below node `i`, which is on level `d`
  induction r generalizing d i fuel with
  | zero =>
    have hleaf := (le_numsplitters_iff hr h₁ h₂).not.mpr (by simp)
    cases fuel with
    | zero => rfl
    | succ fuel => rw [whileLoop, if_neg hleaf, unrolledSteps]
  | succ r ih =>
    obtain ⟨fuel, rfl⟩ : ∃ f, fuel = f + 1 := ⟨fuel - 1, by omega⟩
    rw [whileLoop, if_pos ((le_numsplitters_iff hr h₁ h₂).mpr (by simp)), unrolledSteps]
    cases hb : body i with
    | inl m => rfl
    | inr i' =>
      have hi' := hbody i i' hb
      -- the child is on the next level
      have hlevel : 2 ^ (d + 1 + 1) = 2 * 2 ^ (d + 1) ∧ 2 ^ (d + 1) = 2 * 2 ^ d := by
        constructor <;> ring
      exact ih (d := d + 1) (by omega) (by omega) (by omega) (by omega)

theorem doWhileLoop_eq {treebits : ℕ} {body : ℕ → ℕ ⊕ ℕ} (hbody : GoesDown body)
    {d r i fuel : ℕ} (hr : d + (r + 1) = treebits) (h₁ : 2 ^ d ≤ i) (h₂ : i < 2 ^ (d + 1))
    (hfuel : r + 1 ≤ fuel) :
    doWhileLoop (numsplitters treebits) body fuel i = unrolledSteps body (r + 1) i := by
  induction r generalizing d i fuel with
  | zero =>
    obtain ⟨fuel, rfl⟩ : ∃ f, fuel = f + 1 := ⟨fuel - 1, by omega⟩
    rw [doWhileLoop, unrolledSteps]
    cases hb : body i with
    | inl m => rfl
    | inr i' =>
      have hi' := hbody i i' hb
      have hlevel : 2 ^ (d + 1 + 1) = 2 * 2 ^ (d + 1) ∧ 2 ^ (d + 1) = 2 * 2 ^ d := by
        constructor <;> ring
      -- the last level: the loop ends behind its body
      have hleaf := (le_numsplitters_iff (by omega : d + 1 + 0 = treebits)
        (by omega : 2 ^ (d + 1) ≤ i') (by omega)).not.mpr (by simp)
      simp only [unrolledSteps]
      rw [if_neg (by omega)]
  | succ r ih =>
    obtain ⟨fuel, rfl⟩ : ∃ f, fuel = f + 1 := ⟨fuel - 1, by omega⟩
    rw [doWhileLoop, unrolledSteps]
    cases hb : body i with
    | inl m => rfl
    | inr i' =>
      have hi' := hbody i i' hb
      have hlevel : 2 ^ (d + 1 + 1) = 2 * 2 ^ (d + 1) ∧ 2 ^ (d + 1) = 2 * 2 ^ d := by
        constructor <;> ring
      -- a level above the last: the loop goes on
      have hnode := (le_numsplitters_iff (by omega : d + 1 + (r + 1) = treebits)
        (by omega : 2 ^ (d + 1) ≤ i') (by omega)).mpr (by simp)
      simp only
      rw [if_pos (by omega)]
      exact ih (d := d + 1) (by omega) (by omega) (by omega) (by omega)

variable (tree : ℕ → KeyType) (key : KeyType)

theorem goesDown_treeStep : GoesDown (treeStep tree key) := by
  intro i i' h
  rw [treeStep, Sum.inr.injEq] at h
  split at h <;> omega

theorem goesDown_equalStep : GoesDown (equalStep tree key) := by
  intro i i' h
  rw [equalStep] at h
  split at h
  · exact absurd h (by simp)
  · split at h <;> rw [Sum.inr.injEq] at h <;> omega

theorem treeStepAssembler_eq : treeStepAssembler tree key = treeStep tree key := by
  funext i
  rw [treeStepAssembler, treeStep]
  -- the conditional move adds one exactly where the key is larger
  by_cases hle : key ≤ tree i
  · simp [hle, not_lt.mpr hle, Nat.two_mul]
  · simp [hle, not_le.mp hle, Nat.two_mul]

theorem equalStepUnroll_eq : equalStepUnroll tree key = equalStep tree key := by
  funext i
  rw [equalStepUnroll, equalStep]
  split
  · rfl
  · split <;> rfl

theorem equalStepAssembler_eq : equalStepAssembler tree key = equalStep tree key := by
  funext i
  rw [equalStepAssembler, equalStep]
  by_cases heq : key = tree i
  · simp [heq]
  · rcases lt_or_gt_of_ne heq with hlt | hgt
    · simp [heq, hlt, not_lt.mpr hlt.le, Nat.two_mul]
    · simp [heq, hgt, not_lt.mpr hgt.le, Nat.two_mul]

/-- The steps of the tree classes descend to a leaf. -/
theorem unrolledSteps_treeStep (r i : ℕ) : unrolledSteps (treeStep tree key) r i =
    .inr (descend (fun s => decide (s < key)) tree r i) := by
  induction r generalizing i with
  | zero => rfl
  | succ r ih =>
    rw [unrolledSteps, treeStep, descend, ← ih]
    by_cases hle : key ≤ tree i
    · simp [hle, not_lt.mpr hle]
    · simp [hle, not_le.mp hle]

/-- The steps of the equality classes descend to the key. -/
theorem unrolledSteps_equalStep (r i : ℕ) :
    unrolledSteps (equalStep tree key) r i = locate tree key r i := by
  induction r generalizing i with
  | zero => rfl
  | succ r ih =>
    rw [unrolledSteps, equalStep, locate]
    by_cases heq : key = tree i
    · simp [heq]
    · by_cases hlt : key < tree i
      · simp [heq, hlt, ih]
      · simp [heq, hlt, ih]

end Walks

/-! ## Buckets -/

/-- A right bucket for a key among sorted splitters: an equal bucket of a splitter that is the
key, or else the bucket between the smaller and the larger splitters. -/
def IsBucket (ss : List KeyType) (key : KeyType) (b : ℕ) : Prop :=
  (∃ j, b = 2 * j + 1 ∧ ss[j]? = some key) ∨ key ∉ ss ∧ b = 2 * rank ss key

/-- There are two buckets for each splitter and one behind the last. -/
theorem IsBucket.lt {ss : List KeyType} {key : KeyType} {b : ℕ} (h : IsBucket ss key b) :
    b < 2 * ss.length + 1 := by
  rcases h with ⟨j, rfl, hj⟩ | ⟨-, rfl⟩
  · have := (List.getElem?_eq_some_iff.mp hj).1
    omega
  · have := rank_le_length ss key
    omega

/-- The key of an odd bucket is the splitter of the bucket. -/
theorem IsBucket.splitter_of_odd {ss : List KeyType} {key : KeyType} {b i : ℕ}
    (h : IsBucket ss key b) (hb : b = 2 * i + 1) : ss[i]? = some key := by
  rcases h with ⟨j, hj, hget⟩ | ⟨-, hj⟩
  · rwa [show i = j by omega]
  · omega

/-- The key of an even bucket is no splitter. -/
theorem IsBucket.rank_of_even {ss : List KeyType} {key : KeyType} {b i : ℕ}
    (h : IsBucket ss key b) (hb : b = 2 * i) : key ∉ ss ∧ i = rank ss key := by
  rcases h with ⟨j, hj, -⟩ | ⟨hnot, hj⟩
  · omega
  · exact ⟨hnot, by omega⟩

/-- A key of the even bucket before splitter `i` lies between the neighbouring splitters. -/
theorem IsBucket.between {ss : List KeyType} {key : KeyType} {b i : ℕ}
    (h : IsBucket ss key b) (hs : ss.Pairwise (· ≤ ·)) (hb : b = 2 * i) :
    (∀ j < i, ∀ k, ss[j]? = some k → k < key) ∧ ∀ j, i ≤ j → ∀ k, ss[j]? = some k → key < k := by
  obtain ⟨hnot, hrank⟩ := h.rank_of_even hb
  refine ⟨fun j hj k hk => (lt_rank_iff hs hk).mp (by omega), fun j hj k hk => ?_⟩
  refine lt_of_le_of_ne (not_lt.mp fun hlt => ?_) fun heq => ?_
  · -- a smaller splitter would be counted by the rank
    have := (lt_rank_iff hs hk).mpr hlt
    omega
  · exact hnot (heq ▸ List.mem_of_getElem? hk)

/-- Right buckets are ordered as keys. -/
theorem key_lt_of_isBucket {ss : List KeyType} {bkt : KeyType → ℕ} (hs : ss.Pairwise (· ≤ ·))
    (h : ∀ key, IsBucket ss key (bkt key)) {a b : KeyType} (hlt : bkt a < bkt b) : a < b := by
  rcases h a with ⟨i, hi, hgeta⟩ | ⟨hnot, hi⟩
  · -- `a` is a splitter, and the bucket of `b` is that of a later one or behind it
    have hle : a ≤ b := by
      rcases h b with ⟨j, hj, hgetb⟩ | ⟨-, hj⟩
      · obtain ⟨hil, ha⟩ := List.getElem?_eq_some_iff.mp hgeta
        obtain ⟨hjl, hb⟩ := List.getElem?_eq_some_iff.mp hgetb
        have := List.pairwise_iff_getElem.mp hs i j hil hjl (by omega)
        rwa [ha, hb] at this
      · exact ((lt_rank_iff hs hgeta).mp (by omega)).le
    exact lt_of_le_of_ne hle fun heq => hlt.ne (congrArg bkt heq)
  · -- the first splitter from the bucket on is above the key
    by_contra hge
    have hge := not_lt.mp hge
    rcases h b with ⟨j, hj, hgetb⟩ | ⟨-, hj⟩
    · have hjr : ¬ j < rank ss a := by omega
      rw [lt_rank_iff hs hgetb, not_lt] at hjr
      exact hnot (le_antisymm hge hjr ▸ List.mem_of_getElem? hgetb)
    · have hmono : rank ss b ≤ rank ss a := List.countP_mono_left fun s _ hs =>
        decide_eq_true ((of_decide_eq_true hs).trans_le hge)
      omega

/-- The bucket that the tree classes choose: that of the first splitter not below the key. -/
def firstBucket (ss : List KeyType) (key : KeyType) : ℕ :=
  if key ∈ ss then rank ss key * 2 + 1 else rank ss key * 2

theorem isBucket_firstBucket {ss : List KeyType} (hs : ss.Pairwise (· ≤ ·)) (key : KeyType) :
    IsBucket ss key (firstBucket ss key) := by
  rw [firstBucket]
  split
  · next hk => exact Or.inl ⟨rank ss key, by omega, getElem?_rank_of_mem hs hk⟩
  · next hk => exact Or.inr ⟨hk, by omega⟩

/-- The test for the equal bucket decides whether the key is a splitter. -/
theorem rank_test_iff {ss : List KeyType} (hs : ss.Pairwise (· ≤ ·)) (key : KeyType) :
    (rank ss key < ss.length ∧ ss[rank ss key]? = some key) ↔ key ∈ ss := by
  refine ⟨fun h => List.mem_of_getElem? h.2, fun hk => ?_⟩
  have hget := getElem?_rank_of_mem hs hk
  exact ⟨(List.getElem?_eq_some_iff.mp hget).1, hget⟩

/-- A `get_splitter` that returns the splitters in sorted order. -/
def ReadsSplitters (treebits : ℕ) (tree : ℕ → KeyType) (get_splitter : ℕ → Option KeyType) :
    Prop :=
  ∀ i < numsplitters treebits, get_splitter i = (splitterList treebits tree)[i]?

theorem readsSplitters_calc {treebits : ℕ} (ht : treebits ≤ 32) (a : SplitterArrays) :
    ReadsSplitters treebits a.tree (getSplitterCalc treebits a) := by
  intro i hi
  -- `pre_to_levelorder` counts from one, so place `i` of the list is asked for as `i + 1`
  rw [numsplitters, Nat.one_shiftLeft] at hi
  obtain ⟨node, hnode, hget⟩ := inorder_preToLevelorder ht a.tree (Nat.succ_pos i)
    (by omega : i + 1 < 2 ^ treebits)
  rw [getSplitterCalc, hnode, splitterList]
  exact hget.symm

theorem readsSplitters_array {treebits : ℕ} (ht : treebits ≤ 31) (samples : ℕ → KeyType)
    (samplesize : ℕ) :
    ReadsSplitters treebits (TreeBuilderPreAndLevelOrder treebits samples samplesize).tree
      (getSplitterArray (TreeBuilderPreAndLevelOrder treebits samples samplesize)) := by
  intro i hi
  rw [getSplitterArray, (treeBuilder_spec ht samples samplesize).2.1]
  rw [← length_splitterList treebits
    (TreeBuilderPreAndLevelOrder treebits samples samplesize).tree] at hi
  rw [List.getD_eq_getElem?_getD, List.getElem?_eq_getElem hi]
  rfl

/-- Behind a descent to the leaves, `find_bkt` finds the first bucket. -/
theorem treeBucket_descend {treebits : ℕ} {tree : ℕ → KeyType}
    {get_splitter : ℕ → Option KeyType} (hget : ReadsSplitters treebits tree get_splitter)
    (hs : (splitterList treebits tree).Pairwise (· ≤ ·)) (key : KeyType) :
    treeBucket (numsplitters treebits) get_splitter key
        (.inr (descend (fun s => decide (s < key)) tree treebits 1)) =
      some (firstBucket (splitterList treebits tree) key) := by
  -- the leaf that is reached counts the splitters below the key
  have hdesc : descend (fun s => decide (s < key)) tree treebits 1 =
      1 * 2 ^ treebits + rank (splitterList treebits tree) key := by
    refine descend_eq (hs.imp fun hab => ?_)
    simp only [decide_eq_true_eq]
    exact fun h => hab.trans_lt h
  rw [treeBucket, hdesc, numsplitters_succ, one_mul, Nat.add_sub_cancel_left, Option.some_inj,
    firstBucket]
  refine if_congr ?_ rfl rfl
  -- behind the last splitter there is no equal bucket to test for
  rw [← rank_test_iff hs key, length_splitterList]
  exact and_congr_right fun hlt => by rw [hget _ hlt]

/-- The place of a node in the assembler classes is that of `level_to_preorder`. -/
theorem equalBucketAssembler_inl {treebits m : ℕ} (ht : treebits ≤ 30) (h : 1 ≤ m)
    (hlt : m < 2 ^ treebits) :
    equalBucketAssembler treebits (.inl m) = equalBucket treebits (.inl m) := by
  have hm : m ≠ 0 := by omega
  have hlog : m.log2 < treebits := (Nat.log2_lt hm).mpr hlt
  -- both count from the leading one of the index
  have hhi : treebits + countHighZeroBits32 m - 32 = treebits - m.log2 - 1 := by
    rw [countHighZeroBits32, leadingZeros, if_neg hm]
    omega
  rw [equalBucket, levelToPreorder, if_neg hm]
  simp only [hhi, equalBucketAssembler, Option.map_some, Option.some_inj]
  rw [show treebits - m.log2 - 1 + 1 = treebits - m.log2 by omega, numnodes, numsplitters]
  omega

theorem equalBucketAssembler_inr (treebits leaf : ℕ) :
    equalBucketAssembler treebits (.inr leaf) = equalBucket treebits (.inr leaf) := by
  rw [equalBucketAssembler, equalBucket]
  simp only [Option.some_inj]
  omega

/-- A walk that stops at a node stops inside the tree. -/
theorem locate_mem {tree : ℕ → KeyType} {key : KeyType} {r i m : ℕ}
    (hm : locate tree key r i = .inl m) : InSubtree r i m := by
  induction r generalizing i with
  | zero => simp [locate] at hm
  | succ r ih =>
    rw [locate] at hm
    rw [inSubtree_succ]
    by_cases hkey : key = tree i
    · rw [if_pos hkey, Sum.inl.injEq] at hm
      exact Or.inl hm.symm
    · rw [if_neg hkey] at hm
      by_cases hlt : key < tree i
      · rw [if_pos hlt] at hm
        exact Or.inr (Or.inl (ih hm))
      · rw [if_neg hlt] at hm
        exact Or.inr (Or.inr (ih hm))

theorem equalBucketAssembler_locate {treebits : ℕ} (ht : treebits ≤ 30) (tree : ℕ → KeyType)
    (key : KeyType) : equalBucketAssembler treebits (locate tree key treebits 1) =
      equalBucket treebits (locate tree key treebits 1) := by
  -- the two differ only in how they count the place of a node inside the tree
  cases hm : locate tree key treebits 1 with
  | inl m =>
    obtain ⟨h, hlt⟩ := (inSubtree_root_iff treebits m).mp (locate_mem hm)
    exact equalBucketAssembler_inl ht h hlt
  | inr leaf => exact equalBucketAssembler_inr treebits leaf

/-- Behind a descent that stops at the key, `find_bkt` finds a right bucket. -/
theorem equalBucket_locate {treebits : ℕ} (ht : treebits ≤ 32) {tree : ℕ → KeyType}
    (hs : (splitterList treebits tree).Pairwise (· ≤ ·)) (key : KeyType) :
    ∃ b, equalBucket treebits (locate tree key treebits 1) = some b ∧
      IsBucket (splitterList treebits tree) key b := by
  cases hm : locate tree key treebits 1 with
  | inl m =>
    obtain ⟨h, hlt⟩ := (inSubtree_root_iff treebits m).mp (locate_mem hm)
    -- stopped at node `m`: its place in order is the number of its equal bucket
    obtain ⟨pos, hpos, h₁, -, hget⟩ := inorder_levelToPreorder ht tree h hlt
    refine ⟨2 * pos - 1, by rw [equalBucket, hpos, Option.map_some],
      Or.inl ⟨pos - 1, by omega, ?_⟩⟩
    rw [splitterList, hget, (locate_found hs hm).1]
  | inr leaf =>
    -- at a leaf: the key is no splitter, and the leaf counts those below it
    obtain ⟨hleaf, hnot⟩ := locate_missed hs hm
    refine ⟨_, rfl, Or.inr ⟨hnot, ?_⟩⟩
    rw [hleaf, numsplitters_succ, one_mul, Nat.add_sub_cancel_left]
    rfl

section BinarySearch

/-- The binary search ends at the number of splitters below the key. -/
theorem binarySearch_eq {splitter : ℕ → KeyType} {key : KeyType} {r : ℕ} {fuel lo hi : ℕ}
    (hrank : ∀ i, lo ≤ i → i < hi → (i < r ↔ splitter i < key)) (hlo : lo ≤ r) (hhi : r ≤ hi)
    (hfuel : hi - lo ≤ fuel) : binarySearch splitter key fuel lo hi = r := by
  induction fuel generalizing lo hi with
  | zero => rw [binarySearch]; omega
  | succ fuel ih =>
    rw [binarySearch]
    split
    · next hlt =>
      have hmid : (lo + hi) >>> 1 = (lo + hi) / 2 := by rw [Nat.shiftRight_eq_div_pow, pow_one]
      simp only [hmid]
      have hiff := hrank ((lo + hi) / 2) (by omega) (by omega)
      split
      · next hle =>
        have := hiff.not.mpr (not_lt.mpr hle)
        exact ih (fun i h₁ h₂ => hrank i h₁ (by omega)) hlo (by omega) (by omega)
      · next hgt =>
        have := hiff.mpr (not_le.mp hgt)
        exact ih (fun i h₁ h₂ => hrank i (by omega) h₂) (by omega) hhi (by omega)
    · omega

theorem findBktTree_eq {treebits : ℕ} {a : SplitterArrays}
    (hs : (ClassifierClass.binarySearch.splitters treebits a).Pairwise (· ≤ ·)) (key : KeyType) :
    findBktTree treebits a key =
      some (firstBucket (ClassifierClass.binarySearch.splitters treebits a) key) := by
  have hlen :
      (ClassifierClass.binarySearch.splitters treebits a).length = numsplitters treebits := by
    simp [ClassifierClass.splitters]
  have hget : ∀ i < numsplitters treebits,
      (ClassifierClass.binarySearch.splitters treebits a)[i]? = some (a.splitter i) := by
    intro i hi
    simp [ClassifierClass.splitters, hi]
  have hsearch : binarySearch a.splitter key (numsplitters treebits) 0 (numsplitters treebits) =
      rank (ClassifierClass.binarySearch.splitters treebits a) key :=
    binarySearch_eq (fun i _ hi => lt_rank_iff hs (hget i hi)) (Nat.zero_le _)
      (hlen ▸ rank_le_length ..) (by omega)
  rw [findBktTree, hsearch, Option.some_inj, firstBucket]
  refine if_congr ?_ rfl rfl
  rw [← rank_test_iff hs key, hlen]
  exact and_congr_right fun hlt => by rw [hget _ hlt, Option.some_inj]

end BinarySearch

/-! ## Several keys at once -/

section Classify

theorem findBktUnrollOne_iterate (tree : ℕ → KeyType) (k : ℕ) (ik : List (ℕ × KeyType)) :
    (findBktUnrollOne tree)^[k] ik =
      ik.map fun p => (descend (fun s => decide (s < p.2)) tree k p.1, p.2) := by
  induction k generalizing ik with
  | zero => simp [descend]
  | succ k ih =>
    rw [Function.iterate_succ_apply, ih, findBktUnrollOne, List.map_map]
    refine List.map_congr_left fun p _ => ?_
    by_cases hle : p.2 ≤ tree p.1
    · simp [descend, hle, not_lt.mpr hle]
    · simp [descend, hle, not_le.mp hle]

theorem findBktUnroll_eq {treebits : ℕ} (ht : 1 ≤ treebits ∧ treebits ≤ 15)
    {tree : ℕ → KeyType} {get_splitter : ℕ → Option KeyType} {b : KeyType → ℕ}
    (hb : ∀ key, treeBucket (numsplitters treebits) get_splitter key
      (.inr (descend (fun s => decide (s < key)) tree treebits 1)) = some (b key))
    (keys : List KeyType) :
    findBktUnroll treebits tree get_splitter keys = some (keys.map b) := by
  rw [findBktUnroll, if_pos ht, findBktUnrollOne_iterate]
  simp only [List.map_map, Option.some_inj]
  refine List.map_congr_left fun key _ => ?_
  exact Option.some_inj.mp (hb key)

theorem classifyEach_eq {find_bkt : KeyType → Option ℕ} {b : KeyType → ℕ}
    (hb : ∀ key, find_bkt key = some (b key)) (keys : List KeyType) :
    classifyEach find_bkt keys = some (keys.map b) := by
  rw [classifyEach, funext hb]
  exact List.mapM_pure

/-- Interleaved classification gives every key the bucket that it gets alone. -/
theorem classifyInterleave_eq {rollout : ℕ} (hr : 1 ≤ rollout)
    {find_bkt_unroll : List KeyType → Option (List ℕ)} {find_bkt : KeyType → Option ℕ}
    {b : KeyType → ℕ} (hunroll : ∀ keys, find_bkt_unroll keys = some (keys.map b))
    (hb : ∀ key, find_bkt key = some (b key)) {fuel : ℕ} {keys : List KeyType}
    (hfuel : keys.length ≤ fuel) :
    classifyInterleave rollout find_bkt_unroll find_bkt fuel keys = some (keys.map b) := by
  induction fuel generalizing keys with
  | zero =>
    rw [List.length_eq_zero_iff.mp (Nat.le_zero.mp hfuel)]
    rfl
  | succ fuel ih =>
    cases keys with
    | nil => rfl
    | cons key keys =>
      rw [List.length_cons] at hfuel
      rw [classifyInterleave]
      split
      · rw [hunroll, ih (by rw [List.length_drop, List.length_cons]; omega)]
        simp only [Option.bind_eq_bind, Option.bind_some, Option.pure_def, Option.some_inj]
        rw [← List.map_append, List.take_append_drop]
      · rw [hb, ih (by omega)]
        rfl

end Classify

/-! ## Every class finds a right bucket -/

section FindBkt

variable {treebits : ℕ} {body : ℕ → ℕ ⊕ ℕ}

theorem treebits_le_fuel (treebits : ℕ) : treebits ≤ numsplitters treebits + 1 := by
  rw [numsplitters_succ]
  exact Nat.lt_two_pow_self.le

theorem whileLoop_root (hbody : GoesDown body) :
    whileLoop (numsplitters treebits) body (numsplitters treebits + 1) 1 =
      unrolledSteps body treebits 1 :=
  whileLoop_eq hbody (Nat.zero_add _) (le_refl _) (by norm_num) (treebits_le_fuel treebits)

theorem doWhileLoop_root (ht : 1 ≤ treebits) (hbody : GoesDown body) :
    doWhileLoop (numsplitters treebits) body (numsplitters treebits + 1) 1 =
      unrolledSteps body treebits 1 := by
  obtain ⟨r, rfl⟩ : ∃ r, treebits = r + 1 := ⟨treebits - 1, by omega⟩
  exact doWhileLoop_eq hbody (Nat.zero_add _) (le_refl _) (by norm_num) (treebits_le_fuel _)

theorem switchSteps_eq (ht : 1 ≤ treebits ∧ treebits ≤ 15) (i : ℕ) :
    switchSteps treebits body i = some (unrolledSteps body treebits i) := if_pos ht

/-- A class of the `ClassifyEqual` family stops at the key, wherever its loop tests and however
its steps are written. -/
theorem findBkt_equalFamily {cl : ClassifierClass} (hcl : cl.Instantiable treebits)
    (heq : cl.IsEqualFamily) (a : SplitterArrays) (key : KeyType) :
    (cl.instantiate treebits).findBkt a key =
      equalBucket treebits (locate a.tree key treebits 1) := by
  cases cl with
  | equal =>
    change equalBucket treebits (whileLoop _ _ _ 1) = _
    rw [whileLoop_root (goesDown_equalStep _ _), unrolledSteps_equalStep]
  | equalAssembler =>
    change equalBucketAssembler treebits (doWhileLoop _ _ _ 1) = _
    rw [equalStepAssembler_eq, doWhileLoop_root hcl.1 (goesDown_equalStep _ _),
      unrolledSteps_equalStep, equalBucketAssembler_locate hcl.2]
  | equalUnroll =>
    change (switchSteps treebits _ 1).bind (equalBucket treebits) = _
    rw [switchSteps_eq hcl, equalStepUnroll_eq, unrolledSteps_equalStep, Option.bind_some]
  | equalUnrollAssembler =>
    change (if 3 ≤ treebits ∧ treebits ≤ 15 then _ else none) = _
    rw [if_pos (show 3 ≤ treebits ∧ treebits ≤ 15 from hcl), equalStepAssembler_eq,
      unrolledSteps_equalStep, equalBucketAssembler_locate (hcl.2.trans (by norm_num))]
  | _ => exact heq.elim

/-- The other tree classes descend to the leaves. -/
theorem findBkt_treeFamily {cl : ClassifierClass} (hcl : cl.Instantiable treebits)
    (hne : ¬ cl.IsEqualFamily) (hbs : cl ≠ .binarySearch) (a : SplitterArrays) (key : KeyType) :
    (cl.instantiate treebits).findBkt a key = treeBucket (numsplitters treebits)
      ((cl.instantiate treebits).getSplitter a) key
      (.inr (descend (fun s => decide (s < key)) a.tree treebits 1)) := by
  cases cl with
  | binarySearch => exact absurd rfl hbs
  | treeSimple =>
    change treeBucket _ (getSplitterArray a) key (whileLoop _ _ _ 1) = _
    rw [whileLoop_root (goesDown_treeStep _ _), unrolledSteps_treeStep]
    rfl
  | treeAssembler =>
    change treeBucket _ (getSplitterArray a) key (doWhileLoop _ _ _ 1) = _
    rw [treeStepAssembler_eq, doWhileLoop_root hcl.1 (goesDown_treeStep _ _),
      unrolledSteps_treeStep]
    rfl
  | treeUnroll =>
    change treeBucket _ (getSplitterArray a) key (unrolledSteps _ treebits 1) = _
    rw [unrolledSteps_treeStep]
    rfl
  | treeUnrollInterleave rollout =>
    change treeBucket _ (getSplitterArray a) key (whileLoop _ _ _ 1) = _
    rw [whileLoop_root (goesDown_treeStep _ _), unrolledSteps_treeStep]
    rfl
  | treeCalcSimple =>
    change treeBucket _ (getSplitterCalc treebits a) key (whileLoop _ _ _ 1) = _
    rw [whileLoop_root (goesDown_treeStep _ _), unrolledSteps_treeStep]
    rfl
  | treeCalcUnroll =>
    change (switchSteps treebits _ 1).bind (treeBucket _ (getSplitterCalc treebits a) key) = _
    rw [switchSteps_eq hcl, unrolledSteps_treeStep, Option.bind_some]
    rfl
  | treeCalcUnrollInterleave rollout =>
    change treeBucket _ (getSplitterCalc treebits a) key (whileLoop _ _ _ 1) = _
    rw [whileLoop_root (goesDown_treeStep _ _), unrolledSteps_treeStep]
    rfl
  | _ => exact absurd trivial hne

/-- All tree classes build the same tree. -/
theorem build_tree {cl : ClassifierClass} (hbs : cl ≠ .binarySearch) (treebits : ℕ)
    (samples : ℕ → KeyType) (samplesize : ℕ) :
    ((cl.instantiate treebits).build samples samplesize).tree =
      (TreeBuilderPreAndLevelOrder treebits samples samplesize).tree := by
  cases cl <;> first | rfl | exact absurd rfl hbs

theorem splitters_eq {cl : ClassifierClass} (hbs : cl ≠ .binarySearch) (treebits : ℕ)
    (samples : ℕ → KeyType) (samplesize : ℕ) :
    cl.splitters treebits ((cl.instantiate treebits).build samples samplesize) =
      splitterList treebits (TreeBuilderPreAndLevelOrder treebits samples samplesize).tree := by
  cases cl <;> first | rfl | exact absurd rfl hbs

/-- The splitters of `ClassifyBinarySearch` are samples. -/
theorem oversample_index_lt {n samplesize : ℕ} (hsize : 0 < samplesize) {i : ℕ} (hi : i < n) :
    samplesize / n / 2 + i * (samplesize / n) < samplesize := by
  have hmul : samplesize / n * n ≤ samplesize := Nat.div_mul_le_self ..
  rcases Nat.eq_zero_or_pos (samplesize / n) with hzero | hpos
  · -- fewer samples than splitters: all of them are the first sample
    simpa [hzero] using hsize
  · calc samplesize / n / 2 + i * (samplesize / n)
        < samplesize / n + i * (samplesize / n) := by
          have := Nat.div_lt_self hpos (by norm_num : 1 < 2)
          omega
      _ = (i + 1) * (samplesize / n) := by ring
      _ ≤ n * (samplesize / n) := Nat.mul_le_mul_right _ hi
      _ ≤ samplesize := by rwa [mul_comm]

/-- With an oversampling factor of two, `ClassifyBinarySearch` takes every second sample. -/
theorem getElem?_splitters_binarySearch (ht : 1 ≤ treebits) (samples : ℕ → KeyType) {i : ℕ}
    (hi : i < numsplitters treebits) :
    (ClassifierClass.binarySearch.splitters treebits
      ((ClassifierClass.binarySearch.instantiate treebits).build samples
        (2 * numsplitters treebits)))[i]? = some (samples (2 * i + 1)) := by
  have hfactor : 2 * numsplitters treebits / numsplitters treebits = 2 :=
    Nat.mul_div_cancel _ (numsplitters_pos ht)
  rw [ClassifierClass.splitters, List.getElem?_map, List.getElem?_range hi, Option.map_some]
  change some (samples (2 * numsplitters treebits / numsplitters treebits / 2 +
    i * (2 * numsplitters treebits / numsplitters treebits))) = _
  rw [hfactor, show 2 / 2 + i * 2 = 2 * i + 1 by omega]

theorem instantiable_le {cl : ClassifierClass} (hcl : cl.Instantiable treebits) :
    1 ≤ treebits ∧ treebits ≤ 30 := by
  cases cl <;> simp only [ClassifierClass.Instantiable] at hcl <;> omega

theorem instantiable_le_31 {cl : ClassifierClass} (hcl : cl.Instantiable treebits) :
    treebits ≤ 31 := (instantiable_le hcl).2.trans (by norm_num)

/-- Whatever class builds them, the splitters are sorted. -/
theorem splitters_pairwise {cl : ClassifierClass} (hcl : cl.Instantiable treebits)
    {samples : ℕ → KeyType} {samplesize : ℕ} (hsize : 0 < samplesize)
    (hs : SortedSamples samples samplesize) :
    (cl.splitters treebits ((cl.instantiate treebits).build samples samplesize)).Pairwise
      (· ≤ ·) := by
  by_cases hbs : cl = .binarySearch
  · subst hbs
    -- the places in the sample go up with the splitters
    refine List.pairwise_map.mpr (List.pairwise_lt_range.imp_of_mem fun _ hj hij => ?_)
    refine hs _ _ ?_ (oversample_index_lt hsize (List.mem_range.mp hj))
    exact Nat.add_le_add_left (Nat.mul_le_mul_right _ hij.le) _
  · rw [splitters_eq hbs]
    exact splitterList_pairwise (instantiable_le_31 hcl) hsize hs

/-- Whatever class builds them, the splitters are samples. -/
theorem splitters_mem_samples {cl : ClassifierClass} (hcl : cl.Instantiable treebits)
    {samples : ℕ → KeyType} {samplesize : ℕ} (hsize : 0 < samplesize) {k : KeyType}
    (hk : k ∈ cl.splitters treebits ((cl.instantiate treebits).build samples samplesize)) :
    ∃ i < samplesize, k = samples i := by
  by_cases hbs : cl = .binarySearch
  · subst hbs
    obtain ⟨i, hi, rfl⟩ := List.mem_map.mp hk
    exact ⟨_, oversample_index_lt hsize (List.mem_range.mp hi), rfl⟩
  · rw [splitters_eq hbs] at hk
    exact (treeBuilder_spec (instantiable_le_31 hcl) samples samplesize).1.mem_samples
      (Nat.zero_le _) (le_refl _) hsize hk

theorem length_splitters (cl : ClassifierClass) (treebits : ℕ) (a : SplitterArrays) :
    (cl.splitters treebits a).length = numsplitters treebits := by
  cases cl with
  | binarySearch => simp [ClassifierClass.splitters]
  | _ => exact length_splitterList treebits a.tree

theorem lcpKeyType_le (a b : KeyType) : lcpKeyType a b ≤ 8 := by
  have := leadingZeros_le 64 (a ^^^ b).toNat
  rw [lcpKeyType, countHighZeroBits]
  omega

/-- The number of common bytes fits beside the marker. -/
private theorem lcp_or_marker : ∀ l ≤ 8, ∀ m ∈ [(0x80 : BitVec 8), 0],
    ((BitVec.ofNat 8 l ||| m) &&& 0x7F).toNat = l ∧ (BitVec.ofNat 8 l ||| m) &&& 0x80 = m := by
  decide

/-- The byte of a splitter keeps its number of common bytes and its marker apart. -/
theorem lcpByte_and (prevkey mykey : KeyType) :
    (TreeBuilder.lcpByte prevkey mykey &&& 0x7F).toNat = lcpKeyType prevkey mykey ∧
      (TreeBuilder.lcpByte prevkey mykey &&& 0x80 ≠ 0 ↔ lowByte mykey = 0) := by
  rw [TreeBuilder.lcpByte, ← lcpKeyType]
  by_cases hlow : lowByte mykey = 0
  · obtain ⟨h₁, h₂⟩ := lcp_or_marker _ (lcpKeyType_le prevkey mykey) 0x80 (by simp)
    rw [if_pos hlow, h₁, h₂]
    exact ⟨rfl, iff_of_true (by decide) hlow⟩
  · obtain ⟨h₁, h₂⟩ := lcp_or_marker _ (lcpKeyType_le prevkey mykey) 0 (by simp)
    rw [if_neg hlow, h₁, h₂]
    exact ⟨rfl, iff_of_false (fun h => h rfl) hlow⟩

/-- What the consumers of `splitter_lcp` read: the depth of the bucket before a splitter, and
whether its equal bucket is done.  `ClassifyBinarySearch` marks no bucket as done. -/
theorem splitterLcp_spec {cl : ClassifierClass} (hcl : cl.Instantiable treebits)
    (samples : ℕ → KeyType) (samplesize : ℕ) {i : ℕ} {k : KeyType}
    (hk : (cl.splitters treebits
      ((cl.instantiate treebits).build samples samplesize))[i]? = some k) :
    let a := (cl.instantiate treebits).build samples samplesize
    (a.lcp i &&& 0x7F).toNat =
        (if i = 0 then 0 else lcpKeyType ((cl.splitters treebits a).getD (i - 1) 0) k) ∧
      (a.lcp i &&& 0x80 ≠ 0 ↔ cl ≠ .binarySearch ∧ lowByte k = 0) := by
  intro a
  have hlt : i < numsplitters treebits := by
    rw [← length_splitters cl treebits a]
    exact (List.getElem?_eq_some_iff.mp hk).1
  by_cases hbs : cl = .binarySearch
  · subst hbs
    have hget : ∀ j < numsplitters treebits,
        (ClassifierClass.binarySearch.splitters treebits a)[j]? = some (a.splitter j) :=
      fun j hj => by simp [ClassifierClass.splitters, hj]
    have hki : k = a.splitter i := Option.some_inj.mp (hk.symm.trans (hget i hlt))
    -- its builder writes the common bytes of neighbours and no marker
    have hbyte : a.lcp i = if i = 0 then 0 else
        BitVec.ofNat 8 (lcpKeyType (a.splitter (i - 1)) (a.splitter i)) ||| 0 := by
      rcases Nat.eq_zero_or_pos i with rfl | hpos
      · exact if_pos (Or.inr rfl)
      · rw [if_neg (by omega)]
        refine Eq.trans ?_ (BitVec.or_zero ..).symm
        exact if_neg (by omega)
    rw [hbyte]
    split
    · exact ⟨rfl, iff_of_false (fun h => h rfl) fun h => h.1 rfl⟩
    · obtain ⟨h₁, h₂⟩ := lcp_or_marker _
        (lcpKeyType_le (a.splitter (i - 1)) (a.splitter i)) 0 (by simp)
      rw [h₁, h₂, List.getD_eq_getElem?_getD, hget _ (by omega), hki]
      exact ⟨rfl, iff_of_false (fun h => h rfl) fun h => h.1 rfl⟩
  · rw [splitters_eq hbs] at hk ⊢
    -- all other builders write the same bytes
    have hlcp : a.lcp = (TreeBuilderPreAndLevelOrder treebits samples samplesize).lcp := by
      cases cl <;> first | rfl | exact absurd rfl hbs
    rw [hlcp, (treeBuilder_spec (instantiable_le_31 hcl) samples samplesize).2.2.2 i k hk]
    split
    · -- the first byte keeps its marker only
      have hmask : (0x80 &&& 0x7F : BitVec 8) = 0 ∧ (0x80 &&& 0x80 : BitVec 8) = 0x80 := by
        decide
      rw [BitVec.and_assoc, BitVec.and_assoc, hmask.1, hmask.2]
      exact ⟨congrArg BitVec.toNat BitVec.and_zero,
        by rw [(lcpByte_and 0 k).2]; exact (and_iff_right hbs).symm⟩
    · obtain ⟨h₁, h₂⟩ := lcpByte_and
        ((splitterList treebits (TreeBuilderPreAndLevelOrder treebits samples
          samplesize).tree).getD (i - 1) 0) k
      exact ⟨h₁, by rw [h₂]; exact (and_iff_right hbs).symm⟩

/-- Outside the `ClassifyEqual` family `get_splitter` returns the splitters in sorted order. -/
theorem readsSplitters {cl : ClassifierClass} (hcl : cl.Instantiable treebits)
    (hne : ¬ cl.IsEqualFamily) (hbs : cl ≠ .binarySearch) (samples : ℕ → KeyType)
    (samplesize : ℕ) :
    ReadsSplitters treebits ((cl.instantiate treebits).build samples samplesize).tree
      ((cl.instantiate treebits).getSplitter
        ((cl.instantiate treebits).build samples samplesize)) := by
  cases cl with
  | binarySearch => exact absurd rfl hbs
  | treeSimple => exact readsSplitters_array (instantiable_le_31 hcl) samples samplesize
  | treeAssembler => exact readsSplitters_array (instantiable_le_31 hcl) samples samplesize
  | treeUnroll => exact readsSplitters_array (instantiable_le_31 hcl) samples samplesize
  | treeUnrollInterleave rollout =>
    exact readsSplitters_array (instantiable_le_31 hcl) samples samplesize
  | treeCalcSimple => exact readsSplitters_calc (hcl.2.trans (by norm_num)) _
  | treeCalcUnroll => exact readsSplitters_calc (hcl.2.trans (by norm_num)) _
  | treeCalcUnrollInterleave rollout => exact readsSplitters_calc (hcl.2.trans (by norm_num)) _
  | _ => exact absurd trivial hne

theorem findBkt_binarySearch {a : SplitterArrays}
    (hs : (ClassifierClass.binarySearch.splitters treebits a).Pairwise (· ≤ ·))
    (key : KeyType) : (ClassifierClass.binarySearch.instantiate treebits).findBkt a key =
      some (firstBucket (ClassifierClass.binarySearch.splitters treebits a) key) :=
  findBktTree_eq hs key

/-- Every class finds a right bucket for every key. -/
theorem findBkt_spec {cl : ClassifierClass} (hcl : cl.Instantiable treebits)
    {samples : ℕ → KeyType} {samplesize : ℕ} (hsize : 0 < samplesize)
    (hs : SortedSamples samples samplesize) (key : KeyType) :
    let a := (cl.instantiate treebits).build samples samplesize
    ∃ b, (cl.instantiate treebits).findBkt a key = some b ∧
      IsBucket (cl.splitters treebits a) key b := by
  intro a
  have hsorted := splitters_pairwise hcl hsize hs
  by_cases hbs : cl = .binarySearch
  · subst hbs
    exact ⟨_, findBktTree_eq hsorted key, isBucket_firstBucket hsorted key⟩
  · have hlist := splitters_eq hbs treebits samples samplesize
    have htree := build_tree hbs treebits samples samplesize
    rw [hlist] at hsorted ⊢
    -- the equality classes stop at the key, the others descend to a leaf first
    by_cases heq : cl.IsEqualFamily
    · rw [findBkt_equalFamily hcl heq, htree]
      exact equalBucket_locate ((instantiable_le hcl).2.trans (by norm_num)) hsorted key
    · have hreads := readsSplitters hcl heq hbs samples samplesize
      rw [findBkt_treeFamily hcl heq hbs]
      rw [show a.tree = _ from htree]
      rw [htree] at hreads
      exact ⟨_, treeBucket_descend hreads hsorted key, isBucket_firstBucket hsorted key⟩

/-- Whatever the arrays are, classifying a range of strings finds for each of their keys the
bucket that `find_bkt` finds. -/
theorem classify_of_findBkt {cl : ClassifierClass} (hcl : cl.Instantiable treebits)
    (ht : treebits ≤ 15) (hr : 1 ≤ cl.rollout) {a : SplitterArrays} {b : KeyType → ℕ}
    (hfind : ∀ key, (cl.instantiate treebits).findBkt a key = some (b key))
    (keys : List KeyType) :
    (cl.instantiate treebits).classify a keys = some (keys.map b) := by
  -- the interleaved loop takes `rollout` keys at once, and the rest one by one
  have hinterleave : ∀ rollout find_bkt_unroll, 1 ≤ rollout →
      (∀ keys, find_bkt_unroll keys = some (keys.map b)) →
      classifyInterleave rollout find_bkt_unroll ((cl.instantiate treebits).findBkt a)
        keys.length keys = some (keys.map b) := fun rollout find_bkt_unroll hr hunroll =>
    classifyInterleave_eq hr hunroll hfind (le_refl _)
  cases cl with
  | treeUnrollInterleave rollout =>
    refine hinterleave rollout _ hr (findBktUnroll_eq ⟨hcl.1, ht⟩ fun key => ?_)
    exact (findBkt_treeFamily hcl (fun h => h) (by simp) a key).symm.trans (hfind key)
  | treeCalcUnrollInterleave rollout =>
    refine hinterleave rollout _ hr (findBktUnroll_eq ⟨hcl.1, ht⟩ fun key => ?_)
    exact (findBkt_treeFamily hcl (fun h => h) (by simp) a key).symm.trans (hfind key)
  | _ => exact classifyEach_eq hfind keys

/-- Classifying a range of strings finds a right bucket for each of their keys. -/
theorem classify_spec {cl : ClassifierClass} (hcl : cl.Instantiable treebits)
    (ht : treebits ≤ 15) (hr : 1 ≤ cl.rollout) {samples : ℕ → KeyType} {samplesize : ℕ}
    (hsize : 0 < samplesize) (hs : SortedSamples samples samplesize) (keys : List KeyType) :
    let a := (cl.instantiate treebits).build samples samplesize
    ∃ b, (∀ key, (cl.instantiate treebits).findBkt a key = some (b key) ∧
        IsBucket (cl.splitters treebits a) key (b key)) ∧
      (cl.instantiate treebits).classify a keys = some (keys.map b) := by
  intro a
  choose b hb using findBkt_spec hcl hsize hs
  exact ⟨b, hb, classify_of_findBkt hcl ht hr (fun key => (hb key).1) keys⟩

end FindBkt

end StringSampleSort
