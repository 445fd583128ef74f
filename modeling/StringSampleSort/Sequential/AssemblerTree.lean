import StringSampleSort.Library.X86
import StringSampleSort.Sequential.Classifier

/-!
# Tree walks in assembler

The inline assembler blocks of `find_bkt` of `ClassifyTreeAssembler`
(`src/sequential/bingmann-sample_sortBTC.hpp`), `ClassifyEqualAssembler` and
`ClassifyEqualUnrollAssembler` (`src/sequential/bingmann-sample_sortBTCE.hpp`), and that they find
the buckets of `ClassifyTreeSimple` and `ClassifyEqual`.

A block may find its inputs in any registers that it does not overwrite, and numbers in any
operands.

## Main results

- `descend_runs`: one step down the tree
- `treeLoop_runs`, `equalLoop_runs`, `equalSteps_runs`: the walks
- `equalNode_runs`, `equalLeaf_runs`: from a node to its place in the sorted order
- `findBktTreeAssembler_iff`, `findBktEqualAssembler_iff`, `findBktEqualUnrollAssembler_iff`: the
  blocks compute what the C++ functions compute
-/

namespace StringSampleSort

open Library X86 TreeCalculations

/-! ## Model -/

section Model

variable (key splitter_tree : Reg)

/-- `cmpq (%[splitter_tree],%%rax,8), %[key]`. -/
def cmpTree : Line := .op (.alu .cmp .quad (.mem ⟨.quad, 0, splitter_tree, some (.rax, 8)⟩) key)

/-- `lea (%%rax,%%rax), %%rax; lea 1(%%rax), %%rcx; cmova %%rcx, %%rax`. -/
def descendLines : List Line :=
  [.op (.lea .quad ⟨.quad, 0, .rax, some (.rax, 1)⟩ .rax),
   .op (.lea .quad ⟨.quad, 1, .rax, none⟩ .rcx),
   .op (.cmov .a .quad .rcx .rax)]

/-- The loop of `ClassifyTreeAssembler`, whose operand is `numsplitters + 1`, and its end. -/
def classifyTreeLoop (numsplitters1 : Operand) : List Line :=
  cmpTree key splitter_tree ::
  descendLines ++
  [.op (.alu .cmp .quad numsplitters1 .rax),
   .jcc .b 1,
   .op (.alu .sub .quad numsplitters1 .rax)]

/-- The block of `ClassifyTreeAssembler`. -/
def classifyTreeBlock (numsplitters1 : Operand) : List Line :=
  .op (.mov .quad (.imm 1) .rax) ::
  .label 1 ::
  classifyTreeLoop key splitter_tree numsplitters1

/-- `SPLITTER_TREE_STEP`. -/
def splitterTreeStep : List Line :=
  cmpTree key splitter_tree :: .jcc .e 2 :: descendLines

/-- From label 2 on: from a node to its bucket. -/
def equalNodeLines (treebits numsplitters : Operand) : List Line :=
  [.op (.bsr .quad .rax .rdx),
   .op (.mov .quad treebits .rcx),
   .op (.alu .sub .quad (.reg .rdx) .rcx),
   .op (.shl .quad .rax),
   .op (.alu .and .quad numsplitters .rax),
   .op (.lea .quad ⟨.quad, -1, .rcx, none⟩ .rcx),
   .op (.mov .quad (.imm 1) .rdx),
   .op (.shl .quad .rdx),
   .op (.alu .or .quad (.reg .rdx) .rax),
   .op (.lea .quad ⟨.quad, -1, .rax, some (.rax, 1)⟩ .rax),
   .label 3]

/-- `SPLITTER_TREE_END`. -/
def splitterTreeEnd (numsplitters1 treebits numsplitters : Operand) : List Line :=
  .op (.alu .sub .quad numsplitters1 .rax) ::
  .op (.lea .quad ⟨.quad, 0, .rax, some (.rax, 1)⟩ .rax) ::
  .jmp 3 ::
  .label 2 ::
  equalNodeLines treebits numsplitters

/-- The loop of `ClassifyEqualAssembler` and its end. -/
def classifyEqualLoop (numsplitters1 treebits numsplitters : Operand) : List Line :=
  splitterTreeStep key splitter_tree ++
  .op (.alu .cmp .quad numsplitters1 .rax) ::
  .jcc .b 1 ::
  splitterTreeEnd numsplitters1 treebits numsplitters

/-- The block of `ClassifyEqualAssembler`. -/
def classifyEqualBlock (numsplitters1 treebits numsplitters : Operand) : List Line :=
  .op (.mov .quad (.imm 1) .rax) ::
  .label 1 ::
  classifyEqualLoop key splitter_tree numsplitters1 treebits numsplitters

/-- The block of `ClassifyEqualUnrollAssembler` with so many steps. -/
def classifyEqualUnrollBlock (steps : ℕ) (numsplitters1 treebits numsplitters : Operand) :
    List Line :=
  .op (.mov .quad (.imm 1) .rax) ::
  (List.replicate steps (splitterTreeStep key splitter_tree)).flatten ++
  splitterTreeEnd numsplitters1 treebits numsplitters

/-- The output operand `"=&a" (i)`, an `unsigned int`. -/
def outputA (s : State) : ℕ := ((s.reg .rax).setWidth 32).toNat

/-- `find_bkt(key)` of `ClassifyTreeAssembler` returns `b`. -/
def FindBktTreeAssembler (numsplitters1 : Operand) (treebits : ℕ) (a : SplitterArrays)
    (k : KeyType) (s : State) (b : ℕ) : Prop :=
  let block := classifyTreeBlock key splitter_tree numsplitters1
  ∃ s', Runs block block s s' ∧
    let i := outputA s'
    b = if i < numsplitters treebits ∧ a.splitter i = k then i * 2 + 1 else i * 2

/-- `find_bkt(key)` of `ClassifyEqualAssembler` returns `b`. -/
def FindBktEqualAssembler (numsplitters1 treebits numsplitters : Operand) (s : State) (b : ℕ) :
    Prop :=
  let block := classifyEqualBlock key splitter_tree numsplitters1 treebits numsplitters
  ∃ s', Runs block block s s' ∧ b = outputA s'

/-- `find_bkt(key)` of `ClassifyEqualUnrollAssembler` with so many steps returns `b`. -/
def FindBktEqualUnrollAssembler (steps : ℕ) (numsplitters1 treebits numsplitters : Operand)
    (s : State) (b : ℕ) : Prop :=
  let block := classifyEqualUnrollBlock key splitter_tree steps numsplitters1 treebits numsplitters
  ∃ s', Runs block block s s' ∧ b = outputA s'

/-- What a block finds in its state: the key, the address of the tree, and the tree in memory.
Only the slots from 1 to `numsplitters` need to be mapped. -/
structure TreeInput (clobbers : List Reg) (treebits : ℕ) (tree : ℕ → KeyType) (k : KeyType)
    (s : State) : Prop where
  key_input : Input clobbers s (.reg key) k
  tree_input : ∃ base, Input clobbers s (.reg splitter_tree) base ∧
    ∀ i, 1 ≤ i → i ≤ numsplitters treebits → s.mem (base + BitVec.ofNat 64 i * 8) = some (tree i)

end Model

/-! ## One step -/

section Step

variable {key splitter_tree : Reg} {clobbers : List Reg} {treebits : ℕ} {tree : ℕ → KeyType}
  {k : KeyType} {s₀ s : State} {i : ℕ} {code pc : List Line} {s' : State}

/-- The state after the comparison of the key with a splitter. -/
def compared (k t : KeyType) (s : State) : State :=
  s.setFlags (some (decide (k < t))) (some (decide (k = t)))

/-- The comparison reads inside the tree. -/
theorem cmpTree_runs (h : TreeInput key splitter_tree clobbers treebits tree k s₀)
    (hs : Agree clobbers s₀ s) (hi : s.reg .rax = BitVec.ofNat 64 i) (h₁ : 1 ≤ i)
    (h₂ : i ≤ numsplitters treebits) :
    Runs code (cmpTree key splitter_tree :: pc) s s' ↔ Runs code pc (compared k (tree i) s) s' := by
  obtain ⟨hkey, base, hbase, hmem⟩ := h
  refine runs_op_of_eval ?_
  have hread : (Operand.mem ⟨.quad, 0, splitter_tree, some (.rax, 8)⟩).read s = some (tree i) := by
    simp only [Operand.read, Addr.eval, Width.trunc_quad, hbase.reg_eq hs, hi, hs.mem]
    rw [← hmem i h₁ h₂]
    congr 1
    exact congrArg (· + _) (BitVec.zero_add base)
  simp only [Instr.eval, hread, Option.map_some, AluOp.eval, Width.trunc_quad, hkey.reg_eq hs,
    compared]

/-- Above means neither below nor equal. -/
theorem holds_above (k t : KeyType) : (!decide (k < t) && !decide (k = t)) = decide (k > t) := by
  rw [← decide_not, ← decide_not, ← Bool.decide_and, decide_eq_decide, not_lt, gt_iff_lt,
    lt_iff_le_and_ne, ne_comm]

/-- One step down the tree: the instructions between the comparison and `cmova` keep the flags. -/
theorem descend_runs (code pc : List Line) (k t : KeyType) (hi : s.reg .rax = BitVec.ofNat 64 i) :
    ∃ s₁, (∀ s', Runs code (descendLines ++ pc) (compared k t s) s' ↔ Runs code pc s₁ s') ∧
      Agree [.rax, .rcx] s s₁ ∧
      s₁.reg .rax = BitVec.ofNat 64 (if k > t then i + i + 1 else i + i) := by
  let left := (compared k t s).set .quad .rax (BitVec.ofNat 64 (i + i))
  let both := left.set .quad .rcx (BitVec.ofNat 64 (i + i + 1))
  have hleft : (Instr.lea .quad ⟨.quad, 0, .rax, some (.rax, 1)⟩ .rax).eval (compared k t s) =
      some left :=
    congrArg (fun v => some ((compared k t s).set .quad .rax v)) (Addr.eval_double hi)
  have hboth : (Instr.lea .quad ⟨.quad, 1, .rax, none⟩ .rcx).eval left = some both :=
    congrArg (fun v => some (left.set .quad .rcx v)) (Addr.eval_succ (State.set_reg_self ..))
  have hcmov : (Instr.cmov .a .quad .rcx .rax).eval both = some (both.set .quad .rax
      (BitVec.ofNat 64 (if k > t then i + i + 1 else i + i))) := by
    simp only [Instr.eval, Cond.holds, both, left, compared, State.set_cf, State.set_zf,
      State.setFlags_cf, State.setFlags_zf, Option.bind_some, Option.map_some, holds_above,
      decide_eq_true_eq, State.set_reg_self, Width.trunc_quad,
      State.set_reg_of_ne _ _ Reg.rcx _ (show Reg.rax ≠ .rcx by decide)]
    congr 2
    split <;> rfl
  refine ⟨both.set .quad .rax (BitVec.ofNat 64 (if k > t then i + i + 1 else i + i)),
    fun s' => ?_, ?_, State.set_reg_self ..⟩
  · rw [descendLines, List.cons_append, List.cons_append, List.cons_append, List.nil_append,
      runs_op_of_eval hleft, runs_op_of_eval hboth, runs_op_of_eval hcmov]
  · exact ((((Agree.refl _ s).setFlags _ _).set (by decide) _ _).set (by decide) _ _).set
      (by decide) _ _

/-- `SPLITTER_TREE_STEP` at the key jumps to label 2. -/
theorem splitterTreeStep_runs_eq (h : TreeInput key splitter_tree clobbers treebits tree k s₀)
    (hs : Agree clobbers s₀ s) (hi : s.reg .rax = BitVec.ofNat 64 i) (h₁ : 1 ≤ i)
    (h₂ : i ≤ numsplitters treebits) (hk : k = tree i) :
    Runs code (splitterTreeStep key splitter_tree ++ pc) s s' ↔
      ∃ pc', target 2 code = some pc' ∧ Runs code pc' (compared k (tree i) s) s' := by
  rw [splitterTreeStep, List.cons_append, List.cons_append, cmpTree_runs h hs hi h₁ h₂,
    runs_jcc (show Cond.e.holds (compared k (tree i) s) = some true by
      simp [Cond.holds, compared, hk]), if_pos rfl]

/-- Elsewhere it goes one step down. -/
theorem splitterTreeStep_runs_ne (code pc : List Line)
    (h : TreeInput key splitter_tree clobbers treebits tree k s₀) (hs : Agree clobbers s₀ s)
    (hi : s.reg .rax = BitVec.ofNat 64 i) (h₁ : 1 ≤ i) (h₂ : i ≤ numsplitters treebits)
    (hk : k ≠ tree i) :
    ∃ s₁, (∀ s', Runs code (splitterTreeStep key splitter_tree ++ pc) s s' ↔ Runs code pc s₁ s') ∧
      Agree [.rax, .rcx] s s₁ ∧
      s₁.reg .rax = BitVec.ofNat 64 (if k > tree i then i + i + 1 else i + i) := by
  obtain ⟨s₁, hrun, hagree, hrax⟩ := descend_runs code pc k (tree i) hi
  refine ⟨s₁, fun s' => ?_, hagree, hrax⟩
  rw [splitterTreeStep, List.cons_append, List.cons_append, cmpTree_runs h hs hi h₁ h₂,
    runs_jcc (show Cond.e.holds (compared k (tree i) s) = some false by
      simp [Cond.holds, compared, hk]), if_neg Bool.false_ne_true]
  exact hrun s'

end Step

/-! ## Descents to the leaves -/

section TreeLoop

variable {key splitter_tree : Reg} {treebits : ℕ} {tree : ℕ → KeyType} {k : KeyType}
  {s₀ s : State} {numsplitters1 : Operand}

theorem numsplitters_lt (ht : treebits ≤ 30) : numsplitters treebits + 1 ≤ 2 ^ 30 := by
  rw [numsplitters_succ]
  exact Nat.pow_le_pow_right (by norm_num) ht

/-- The loop of `ClassifyTreeAssembler` ends at the leaf that its walk reaches. -/
theorem treeLoop_runs (h : TreeInput key splitter_tree [.rax, .rcx] treebits tree k s₀)
    (ht : treebits ≤ 30)
    (hn : Input [.rax, .rcx] s₀ numsplitters1 (BitVec.ofNat 64 (numsplitters treebits + 1)))
    {fuel i leaf : ℕ} (hs : Agree [.rax, .rcx] s₀ s) (hi : s.reg .rax = BitVec.ofNat 64 i)
    (h₁ : 1 ≤ i) (h₂ : i ≤ numsplitters treebits)
    (hwalk : doWhileLoop (numsplitters treebits) (treeStepAssembler tree k) fuel i = .inr leaf)
    (hleaf : numsplitters treebits < leaf) :
    ∃ s', Runs (classifyTreeBlock key splitter_tree numsplitters1)
        (classifyTreeLoop key splitter_tree numsplitters1) s s' ∧
      s'.reg .rax = BitVec.ofNat 64 (leaf - (numsplitters treebits + 1)) := by
  induction fuel generalizing i s with
  | zero =>
    rw [doWhileLoop, Sum.inr.injEq] at hwalk
    omega
  | succ fuel ih =>
    have hN := numsplitters_lt ht
    obtain ⟨s₁, hrun, hagree, hrax⟩ := descend_runs
      (classifyTreeBlock key splitter_tree numsplitters1)
      [.op (.alu .cmp .quad numsplitters1 .rax), .jcc .b 1,
        .op (.alu .sub .quad numsplitters1 .rax)] k (tree i) hi
    have hs₁ := hs.trans hagree
    set i' := if k > tree i then i + i + 1 else i + i with hi'
    have hlt : i' < 2 ^ 64 := by
      rw [hi']
      split <;> omega
    obtain ⟨zf, hcmp⟩ := eval_cmp hrax (hn _ hs₁) hlt (by omega)
    rw [doWhileLoop, treeStepAssembler] at hwalk
    simp only [← hi'] at hwalk
    have hs₂ := hs₁.setFlags (some (decide (i' < numsplitters treebits + 1))) zf
    by_cases hloop : i' < numsplitters treebits + 1
    · -- jb is taken, back to label 1
      rw [if_pos hloop] at hwalk
      obtain ⟨s', hend, hres⟩ := ih hs₂ hrax (by rw [hi']; split <;> omega) (by omega) hwalk
      refine ⟨s', ?_, hres⟩
      rw [classifyTreeLoop, List.cons_append, cmpTree_runs h hs hi h₁ h₂, hrun,
        runs_op_of_eval hcmp, runs_jcc (b := true) (by simp [Cond.holds, hloop]), if_pos rfl]
      exact ⟨_, rfl, hend⟩
    · rw [if_neg hloop, Sum.inr.injEq] at hwalk
      subst hwalk
      have hrax₂ : (s₁.setFlags (some (decide (i' < numsplitters treebits + 1))) zf).reg .rax =
          BitVec.ofNat 64 i' := hrax
      obtain ⟨s₂, hsub, hres, -⟩ := (sub_writes hrax₂ (hn _ hs₂) (by omega) (by omega)).runs
        (classifyTreeBlock key splitter_tree numsplitters1)
      refine ⟨s₂, ?_, hres⟩
      rw [classifyTreeLoop, List.cons_append, cmpTree_runs h hs hi h₁ h₂, hrun,
        runs_op_of_eval hcmp, runs_jcc (b := false) (by simp [Cond.holds, hloop]),
        if_neg Bool.false_ne_true, hsub]
      exact runs_nil.mpr rfl

/-- So many steps down lead to the leaves below a node. -/
theorem unrolledSteps_bounds {body : ℕ → ℕ ⊕ ℕ} (hbody : GoesDown body) {r i leaf : ℕ}
    (h : unrolledSteps body r i = .inr leaf) : i * 2 ^ r ≤ leaf ∧ leaf < (i + 1) * 2 ^ r := by
  induction r generalizing i with
  | zero =>
    rw [unrolledSteps, Sum.inr.injEq] at h
    omega
  | succ r ih =>
    rw [unrolledSteps] at h
    cases hb : body i with
    | inl m => simp [hb] at h
    | inr i' =>
      rw [hb] at h
      obtain ⟨h₁, h₂⟩ := ih h
      have hlow : i * 2 ^ (r + 1) ≤ i' * 2 ^ r := by
        rw [pow_succ', ← mul_assoc]
        exact Nat.mul_le_mul_right _ (by rcases hbody i i' hb with rfl | rfl <;> omega)
      have hhigh : (i' + 1) * 2 ^ r ≤ (i + 1) * 2 ^ (r + 1) := by
        rw [pow_succ', ← mul_assoc]
        exact Nat.mul_le_mul_right _ (by rcases hbody i i' hb with rfl | rfl <;> omega)
      exact ⟨hlow.trans h₁, h₂.trans_le hhigh⟩

/-- From the root they lead behind the tree. -/
theorem leaf_bounds {body : ℕ → ℕ ⊕ ℕ} (hbody : GoesDown body) {leaf : ℕ}
    (h : unrolledSteps body treebits 1 = .inr leaf) :
    numsplitters treebits < leaf ∧ leaf ≤ 2 * numsplitters treebits + 1 := by
  have hsize := numsplitters_succ treebits
  obtain ⟨h₁, h₂⟩ := unrolledSteps_bounds hbody h
  omega

theorem outputA_eq {i : ℕ} (h : s.reg .rax = BitVec.ofNat 64 i) (hi : i < 2 ^ 32) :
    outputA s = i := by
  rw [outputA, h, BitVec.toNat_setWidth, BitVec.toNat_ofNat]
  omega

/-- `ClassifyTreeAssembler::find_bkt` returns what `ClassifyTreeSimple::find_bkt` returns. -/
theorem findBktTreeAssembler_iff (ht₁ : 1 ≤ treebits) (ht₃₀ : treebits ≤ 30) (a : SplitterArrays)
    (h : TreeInput key splitter_tree [.rax, .rcx] treebits a.tree k s)
    (hn : Input [.rax, .rcx] s numsplitters1 (BitVec.ofNat 64 (numsplitters treebits + 1)))
    (b : ℕ) :
    FindBktTreeAssembler key splitter_tree numsplitters1 treebits a k s b ↔
      (ClassifyTreeSimple treebits).findBkt a k = some b := by
  have hwalk : doWhileLoop (numsplitters treebits) (treeStepAssembler a.tree k)
      (numsplitters treebits + 1) 1 = unrolledSteps (treeStep a.tree k) treebits 1 := by
    rw [treeStepAssembler_eq, doWhileLoop_root ht₁ (goesDown_treeStep _ _)]
  have hleaf : unrolledSteps (treeStep a.tree k) treebits 1 =
      .inr (descend (fun s => decide (s < k)) a.tree treebits 1) := unrolledSteps_treeStep ..
  set leaf := descend (fun s => decide (s < k)) a.tree treebits 1
  obtain ⟨hlow, hhigh⟩ := leaf_bounds (goesDown_treeStep _ _) hleaf
  have hN := numsplitters_lt ht₃₀
  have hpos : 1 ≤ numsplitters treebits := by
    have hsize := numsplitters_succ treebits
    have := Nat.pow_le_pow_right (show 0 < 2 by norm_num) ht₁
    omega
  have hfind : (ClassifyTreeSimple treebits).findBkt a k =
      treeBucket (numsplitters treebits) (getSplitterArray a) k (.inr leaf) := by
    change treeBucket _ (getSplitterArray a) k (whileLoop _ _ _ 1) = _
    rw [whileLoop_root (goesDown_treeStep _ _), hleaf]
  obtain ⟨s₁, hmov, hrax, hagree⟩ := (mov_writes (s := s) .rax (o := .imm 1) (i := 1)
    rfl).runs (classifyTreeBlock key splitter_tree numsplitters1)
  obtain ⟨s', hrun, hres⟩ := treeLoop_runs h ht₃₀ hn (hagree.mono (by decide)) hrax (le_refl _) hpos
    (hwalk.trans hleaf) hlow
  have hblock : Runs (classifyTreeBlock key splitter_tree numsplitters1)
      (classifyTreeBlock key splitter_tree numsplitters1) s s' := by
    conv => arg 2; rw [classifyTreeBlock]
    rw [hmov, runs_label]
    exact hrun
  have hout := outputA_eq hres (by omega)
  rw [hfind, treeBucket, Option.some_inj]
  simp only [getSplitterArray, Option.some_inj]
  constructor
  · rintro ⟨s'', hrun', hb⟩
    rw [hb, hrun'.unique hblock, hout]
  · rintro rfl
    exact ⟨s', hblock, by rw [hout]⟩

end TreeLoop

/-! ## Walks that stop at the key -/

section Equal

variable {key splitter_tree : Reg} {treebits : ℕ} {tree : ℕ → KeyType} {k : KeyType}
  {s₀ s : State} {numsplitters1 levels mask : Operand} {code : List Line}

/-- The registers that the blocks of the equality classes overwrite. -/
def equalClobbers : List Reg := [.rax, .rcx, .rdx]

/-- The numbers that these blocks find in operands. -/
structure EqualInput (treebits : ℕ) (numsplitters1 levels mask : Operand) (s : State) : Prop where
  numsplitters1_input :
    Input equalClobbers s numsplitters1 (BitVec.ofNat 64 (numsplitters treebits + 1))
  treebits_input : Input equalClobbers s levels (BitVec.ofNat 64 treebits)
  numsplitters_input : Input equalClobbers s mask (BitVec.ofNat 64 (numsplitters treebits))

/-- From label 2 on the block finds the place of a node. -/
theorem equalNode_runs (h : EqualInput treebits numsplitters1 levels mask s₀) (ht : treebits ≤ 30)
    (hs : Agree equalClobbers s₀ s) {m : ℕ} (hrax : s.reg .rax = BitVec.ofNat 64 m) (h₁ : 1 ≤ m)
    (h₂ : m ≤ numsplitters treebits) (code : List Line) :
    ∃ s' b, Runs code (equalNodeLines levels mask) s s' ∧
      equalBucketAssembler treebits (.inl m) = some b ∧ s'.reg .rax = BitVec.ofNat 64 b ∧
      b < 2 ^ 32 := by
  have hN := numsplitters_lt ht
  have hlog : m.log2 < treebits := by
    rw [Nat.log2_lt (by omega)]
    have := numsplitters_succ treebits
    omega
  -- `rdx` is the level of the node
  obtain ⟨s₁, hrun₁, hrdx₁, ha₁⟩ := (bsr_writes .rdx hrax h₁ (by omega)).runs code
  have hs₁ := hs.trans (ha₁.mono (by decide))
  have hrax₁ := (ha₁.reg .rax (by decide)).trans hrax
  -- `rcx` is the distance from the leaves
  obtain ⟨s₂, hrun₂, hrcx₂, ha₂⟩ :=
    (mov_writes .rcx (h.treebits_input _ hs₁)).runs code
  have hs₂ := hs₁.trans (ha₂.mono (by decide))
  have hrax₂ := (ha₂.reg .rax (by decide)).trans hrax₁
  have hrdx₂ := (ha₂.reg .rdx (by decide)).trans hrdx₁
  obtain ⟨s₃, hrun₃, hrcx₃, ha₃⟩ := (sub_writes (o := .reg .rdx) hrcx₂ (congrArg some hrdx₂)
    hlog.le (by omega)).runs code
  have hs₃ := hs₂.trans (ha₃.mono (by decide))
  have hrax₃ := (ha₃.reg .rax (by decide)).trans hrax₂
  -- the bits of the node below its level move to the upper end
  obtain ⟨s₄, hrun₄, hrax₄, ha₄⟩ := (shl_writes hrax₃ hrcx₃ (by omega)).runs code
  have hs₄ := hs₃.trans (ha₄.mono (by decide))
  have hrcx₄ := (ha₄.reg .rcx (by decide)).trans hrcx₃
  obtain ⟨s₅, hrun₅, hrax₅, ha₅⟩ := (and_writes hrax₄ (h.numsplitters_input _ hs₄)).runs code
  have hrcx₅ := (ha₅.reg .rcx (by decide)).trans hrcx₄
  -- a one follows them
  obtain ⟨s₆, hrun₆, hrcx₆, ha₆⟩ := (lea_writes .rcx
    (Addr.eval_pred hrcx₅ (by omega))).runs code
  have hrax₆ := (ha₆.reg .rax (by decide)).trans hrax₅
  obtain ⟨s₇, hrun₇, hrdx₇, ha₇⟩ := (mov_writes (s := s₆) .rdx (o := .imm 1) (i := 1)
    rfl).runs code
  have hrcx₇ := (ha₇.reg .rcx (by decide)).trans hrcx₆
  have hrax₇ := (ha₇.reg .rax (by decide)).trans hrax₆
  obtain ⟨s₈, hrun₈, hrdx₈, ha₈⟩ := (shl_writes hrdx₇ hrcx₇ (by omega)).runs code
  have hrax₈ := (ha₈.reg .rax (by decide)).trans hrax₇
  obtain ⟨s₉, hrun₉, hrax₉, ha₉⟩ := (or_writes (o := .reg .rdx) hrax₈
    (congrArg some hrdx₈)).runs code
  have hpos : 1 ≤ (m <<< (treebits - m.log2) &&& numsplitters treebits) |||
      1 <<< (treebits - m.log2 - 1) := by
    refine le_trans ?_ Nat.right_le_or
    rw [Nat.one_shiftLeft]
    exact Nat.one_le_two_pow
  obtain ⟨s', hrun', hrax', -⟩ := (lea_writes .rax
    (Addr.eval_double_pred hrax₉ hpos)).runs code
  refine ⟨s', _, ?_, rfl, hrax', ?_⟩
  · rw [equalNodeLines, hrun₁, hrun₂, hrun₃, hrun₄, hrun₅, hrun₆, hrun₇, hrun₈, hrun₉, hrun',
      runs_label, runs_nil]
  · have hand : m <<< (treebits - m.log2) &&& numsplitters treebits < 2 ^ treebits := by
      have := numsplitters_succ treebits
      exact Nat.and_le_right.trans_lt (by omega)
    have hone : 1 <<< (treebits - m.log2 - 1) < 2 ^ treebits := by
      rw [Nat.one_shiftLeft]
      exact Nat.pow_lt_pow_right (by norm_num) (by omega)
    have := Nat.or_lt_two_pow hand hone
    have := Nat.pow_le_pow_right (show 0 < 2 by norm_num) ht
    omega

/-- Behind the steps the block finds the bucket of a leaf. -/
theorem equalLeaf_runs (code : List Line)
    (h : EqualInput treebits numsplitters1 levels mask s₀) (ht : treebits ≤ 30)
    (hs : Agree equalClobbers s₀ s) {leaf : ℕ} (hrax : s.reg .rax = BitVec.ofNat 64 leaf)
    (h₁ : numsplitters treebits < leaf) (h₂ : leaf ≤ 2 * numsplitters treebits + 1)
    (h₃ : target 3 code = some []) :
    ∃ s' b, Runs code (splitterTreeEnd numsplitters1 levels mask) s s' ∧
      equalBucketAssembler treebits (.inr leaf) = some b ∧ s'.reg .rax = BitVec.ofNat 64 b ∧
      b < 2 ^ 32 := by
  have hN := numsplitters_lt ht
  obtain ⟨s₁, hrun₁, hrax₁, ha₁⟩ := (sub_writes hrax (h.numsplitters1_input _ hs) (by omega)
    (by omega)).runs code
  obtain ⟨s', hrun', hrax', -⟩ := (lea_writes .rax (Addr.eval_double hrax₁)).runs code
  refine ⟨s', _, ?_, rfl, hrax', by omega⟩
  rw [splitterTreeEnd, hrun₁, hrun', runs_jmp]
  exact ⟨[], h₃, runs_nil.mpr rfl⟩

/-- The loop of `ClassifyEqualAssembler` ends with the bucket that its walk leads to. -/
theorem equalLoop_runs (h : TreeInput key splitter_tree equalClobbers treebits tree k s₀)
    (hn : EqualInput treebits numsplitters1 levels mask s₀) (ht : treebits ≤ 30) {fuel i : ℕ}
    (hs : Agree equalClobbers s₀ s) (hi : s.reg .rax = BitVec.ofNat 64 i) (h₁ : 1 ≤ i)
    (h₂ : i ≤ numsplitters treebits) {walk : ℕ ⊕ ℕ}
    (hwalk : doWhileLoop (numsplitters treebits) (equalStepAssembler tree k) fuel i = walk)
    (hleaf : ∀ leaf, walk = .inr leaf →
      numsplitters treebits < leaf ∧ leaf ≤ 2 * numsplitters treebits + 1) :
    ∃ s' b, Runs (classifyEqualBlock key splitter_tree numsplitters1 levels mask)
        (classifyEqualLoop key splitter_tree numsplitters1 levels mask) s s' ∧
      equalBucketAssembler treebits walk = some b ∧ s'.reg .rax = BitVec.ofNat 64 b ∧
      b < 2 ^ 32 := by
  induction fuel generalizing i s with
  | zero =>
    have := hleaf i (by rw [← hwalk, doWhileLoop])
    omega
  | succ fuel ih =>
    have hN := numsplitters_lt ht
    rw [doWhileLoop, equalStepAssembler] at hwalk
    by_cases hk : k = tree i
    · -- je is taken
      simp only [if_pos hk] at hwalk
      obtain ⟨s', b, hrun, hb, hrax, hlt⟩ := equalNode_runs hn ht
        (hs.setFlags (some (decide (k < tree i))) (some (decide (k = tree i)))) hi h₁ h₂
        (classifyEqualBlock key splitter_tree numsplitters1 levels mask)
      refine ⟨s', b, ?_, hwalk ▸ hb, hrax, hlt⟩
      rw [classifyEqualLoop, splitterTreeStep_runs_eq h hs hi h₁ h₂ hk]
      exact ⟨_, rfl, hrun⟩
    · obtain ⟨s₁, hstep, ha₁, hrax₁⟩ := splitterTreeStep_runs_ne
        (classifyEqualBlock key splitter_tree numsplitters1 levels mask)
        (.op (.alu .cmp .quad numsplitters1 .rax) :: .jcc .b 1 ::
          splitterTreeEnd numsplitters1 levels mask) h hs hi h₁ h₂ hk
      have hs₁ := hs.trans (ha₁.mono (by decide))
      simp only [if_neg hk] at hwalk
      set i' := if k > tree i then i + i + 1 else i + i with hi'
      have hbound : 1 ≤ i' ∧ i' ≤ 2 * i + 1 := by
        rw [hi']
        split <;> omega
      obtain ⟨zf, hcmp⟩ := eval_cmp hrax₁ (hn.numsplitters1_input _ hs₁) (by omega) (by omega)
      have hs₂ := hs₁.setFlags (some (decide (i' < numsplitters treebits + 1))) zf
      by_cases hloop : i' < numsplitters treebits + 1
      · -- jb is taken, back to label 1
        rw [if_pos hloop] at hwalk
        obtain ⟨s', b, hrun, hb, hres⟩ := ih hs₂ hrax₁ hbound.1 (by omega) hwalk
        refine ⟨s', b, ?_, hb, hres⟩
        rw [classifyEqualLoop, hstep, runs_op_of_eval hcmp,
          runs_jcc (b := true) (by simp [Cond.holds, hloop]), if_pos rfl]
        exact ⟨_, rfl, hrun⟩
      · rw [if_neg hloop] at hwalk
        obtain ⟨s', b, hrun, hb, hres⟩ := equalLeaf_runs
          (classifyEqualBlock key splitter_tree numsplitters1 levels mask) hn ht hs₂ hrax₁
          (by omega) (by omega) rfl
        refine ⟨s', b, ?_, hwalk ▸ hb, hres⟩
        rw [classifyEqualLoop, hstep, runs_op_of_eval hcmp,
          runs_jcc (b := false) (by simp [Cond.holds, hloop]), if_neg Bool.false_ne_true]
        exact hrun

/-- The steps of `ClassifyEqualUnrollAssembler` that are left end with the bucket that they lead
to. -/
theorem equalSteps_runs (code : List Line)
    (h : TreeInput key splitter_tree equalClobbers treebits tree k s₀)
    (hn : EqualInput treebits numsplitters1 levels mask s₀) (ht : treebits ≤ 30) {d r i : ℕ}
    (hs : Agree equalClobbers s₀ s) (hi : s.reg .rax = BitVec.ofNat 64 i)
    (hr : d + r = treebits) (h₁ : 2 ^ d ≤ i) (h₂ : i < 2 ^ (d + 1))
    (hnode : target 2 code = some (equalNodeLines levels mask)) (hend : target 3 code = some []) :
    ∃ s' b, Runs code ((List.replicate r (splitterTreeStep key splitter_tree)).flatten ++
        splitterTreeEnd numsplitters1 levels mask) s s' ∧
      equalBucketAssembler treebits (unrolledSteps (equalStepAssembler tree k) r i) = some b ∧
      s'.reg .rax = BitVec.ofNat 64 b ∧ b < 2 ^ 32 := by
  have hsize := numsplitters_succ treebits
  induction r generalizing d i s with
  | zero =>
    rw [Nat.add_zero] at hr
    subst hr
    rw [pow_succ] at h₂
    exact equalLeaf_runs code hn ht hs hi (by omega) (by omega) hend
  | succ r ih =>
    have hone : 1 ≤ i := Nat.one_le_two_pow.trans h₁
    have hin : i ≤ numsplitters treebits := by
      have := Nat.pow_le_pow_right (show 0 < 2 by norm_num) (show d + 1 ≤ treebits by omega)
      omega
    rw [List.replicate_succ, List.flatten_cons, List.append_assoc, unrolledSteps,
      equalStepAssembler]
    by_cases hk : k = tree i
    · obtain ⟨s', b, hrun, hb, hres⟩ := equalNode_runs hn ht
        (hs.setFlags (some (decide (k < tree i))) (some (decide (k = tree i)))) hi hone hin code
      refine ⟨s', b, ?_, by simpa only [if_pos hk] using hb, hres⟩
      rw [splitterTreeStep_runs_eq h hs hi hone hin hk]
      exact ⟨_, hnode, hrun⟩
    · obtain ⟨s₁, hstep, ha₁, hrax₁⟩ := splitterTreeStep_runs_ne code
        ((List.replicate r (splitterTreeStep key splitter_tree)).flatten ++
          splitterTreeEnd numsplitters1 levels mask) h hs hi hone hin hk
      have hs₁ := hs.trans (ha₁.mono (by decide))
      simp only [if_neg hk]
      set i' := if k > tree i then i + i + 1 else i + i with hi'
      have hbound : 2 * i ≤ i' ∧ i' ≤ 2 * i + 1 := by
        rw [hi']
        split <;> omega
      obtain ⟨s', b, hrun, hres⟩ := ih hs₁ hrax₁ (d := d + 1) (by omega) (by rw [pow_succ]; omega)
        (by rw [pow_succ]; omega)
      exact ⟨s', b, (hstep s').mpr hrun, hres⟩

/-- The steps contain no labels. -/
theorem target_steps {n r : ℕ} :
    target n (.op (.mov .quad (.imm 1) .rax) ::
      (List.replicate r (splitterTreeStep key splitter_tree)).flatten ++ code) = target n code := by
  change target n ((List.replicate r (splitterTreeStep key splitter_tree)).flatten ++ code) = _
  induction r with
  | zero => rfl
  | succ r ih =>
    rw [List.replicate_succ, List.flatten_cons, List.append_assoc]
    exact ih

/-- The walks of both blocks end behind the tree, if they do not stop before. -/
theorem equalWalk_leaf {leaf : ℕ}
    (h : unrolledSteps (equalStepAssembler tree k) treebits 1 = .inr leaf) :
    numsplitters treebits < leaf ∧ leaf ≤ 2 * numsplitters treebits + 1 := by
  rw [equalStepAssembler_eq] at h
  exact leaf_bounds (goesDown_equalStep _ _) h

/-- What the walks lead to is the bucket of `ClassifyEqual::find_bkt`. -/
theorem findBkt_equalWalk (ht : 1 ≤ treebits ∧ treebits ≤ 30) (a : SplitterArrays) (k : KeyType) :
    equalBucketAssembler treebits (unrolledSteps (equalStepAssembler a.tree k) treebits 1) =
      (ClassifyEqual treebits).findBkt a k := by
  change _ = (ClassifierClass.equal.instantiate treebits).findBkt a k
  rw [findBkt_equalFamily (show ClassifierClass.equal.Instantiable treebits from ht) trivial,
    equalStepAssembler_eq, unrolledSteps_equalStep, equalBucketAssembler_locate ht.2]

/-- `ClassifyEqualAssembler::find_bkt` returns what `ClassifyEqual::find_bkt` returns. -/
theorem findBktEqualAssembler_iff (ht₁ : 1 ≤ treebits) (ht₃₀ : treebits ≤ 30) (a : SplitterArrays)
    (h : TreeInput key splitter_tree equalClobbers treebits a.tree k s)
    (hn : EqualInput treebits numsplitters1 levels mask s) (b : ℕ) :
    FindBktEqualAssembler key splitter_tree numsplitters1 levels mask s b ↔
      (ClassifyEqual treebits).findBkt a k = some b := by
  have hwalk : doWhileLoop (numsplitters treebits) (equalStepAssembler a.tree k)
      (numsplitters treebits + 1) 1 =
        unrolledSteps (equalStepAssembler a.tree k) treebits 1 := by
    rw [equalStepAssembler_eq, doWhileLoop_root ht₁ (goesDown_equalStep _ _)]
  have hpos : 1 ≤ numsplitters treebits := by
    have hsize := numsplitters_succ treebits
    have := Nat.pow_le_pow_right (show 0 < 2 by norm_num) ht₁
    omega
  obtain ⟨s₁, hmov, hrax, hagree⟩ := (mov_writes (s := s) .rax (o := .imm 1) (i := 1)
    rfl).runs (classifyEqualBlock key splitter_tree numsplitters1 levels mask)
  obtain ⟨s', b', hrun, hb, hres, hlt⟩ := equalLoop_runs h hn ht₃₀ (hagree.mono (by decide)) hrax
    (le_refl _) hpos hwalk fun leaf hleaf => equalWalk_leaf hleaf
  rw [findBkt_equalWalk ⟨ht₁, ht₃₀⟩] at hb
  have hblock : Runs (classifyEqualBlock key splitter_tree numsplitters1 levels mask)
      (classifyEqualBlock key splitter_tree numsplitters1 levels mask) s s' := by
    conv => arg 2; rw [classifyEqualBlock]
    rw [hmov, runs_label]
    exact hrun
  have hout := outputA_eq hres hlt
  rw [hb, Option.some_inj]
  constructor
  · rintro ⟨s'', hrun', rfl⟩
    rw [hrun'.unique hblock, hout]
  · rintro rfl
    exact ⟨s', hblock, hout.symm⟩

/-- `ClassifyEqualUnrollAssembler::find_bkt` returns what `ClassifyEqual::find_bkt` returns. -/
theorem findBktEqualUnrollAssembler_iff (ht₁ : 1 ≤ treebits) (ht₃₀ : treebits ≤ 30)
    (a : SplitterArrays) (h : TreeInput key splitter_tree equalClobbers treebits a.tree k s)
    (hn : EqualInput treebits numsplitters1 levels mask s) (b : ℕ) :
    FindBktEqualUnrollAssembler key splitter_tree treebits numsplitters1 levels mask s b ↔
      (ClassifyEqual treebits).findBkt a k = some b := by
  set block := classifyEqualUnrollBlock key splitter_tree treebits numsplitters1 levels mask
    with hblock
  obtain ⟨s₁, hmov, hrax, hagree⟩ := (mov_writes (s := s) .rax (o := .imm 1) (i := 1)
    rfl).runs block
  obtain ⟨s', b', hrun, hb, hres, hlt⟩ := equalSteps_runs block h hn ht₃₀
    (hagree.mono (by decide)) hrax (Nat.zero_add _) (le_refl _) (by norm_num)
    (hblock ▸ target_steps.trans rfl) (hblock ▸ target_steps.trans rfl)
  rw [findBkt_equalWalk ⟨ht₁, ht₃₀⟩] at hb
  have hruns : Runs block block s s' := by
    conv => arg 2; rw [hblock, classifyEqualUnrollBlock]
    rw [List.cons_append, hmov]
    exact hrun
  have hout := outputA_eq hres hlt
  rw [hb, Option.some_inj]
  constructor
  · rintro ⟨s'', hrun', rfl⟩
    rw [hrun'.unique hruns, hout]
  · rintro rfl
    exact ⟨s', hruns, hout.symm⟩

end Equal

end StringSampleSort
