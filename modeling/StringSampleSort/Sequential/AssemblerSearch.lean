import StringSampleSort.Library.CheckedArray
import StringSampleSort.Sequential.AssemblerTree
import StringSampleSort.Sequential.StandAlone

/-!
# Binary searches in assembler

The inline assembler blocks of `find_bkt_assembler` and `find_bkt_asmequal` of
`src/sequential/bingmann-sample_sortBSC.cpp`, and that they find the buckets of
`find_bkt_binsearch` and `find_bkt_equal`.

All four functions search with indices of 32 bits.  The sum of two such indices may wrap, so that a
search among more than `2 ^ 31` splitters need not end.

## Main results

- `binsearchBlock_doWhile`, `equalBlock_doWhile`: the loops of the blocks
- `findBktAssembler_iff`, `findBktAsmequal_iff`: the blocks compute what the C++ functions compute
- `findBktBinsearch32_eq`, `findBktEqual32_eq`: up to `2 ^ 31` splitters no index wraps
- `assemblerSearches_eq`: all assembler searches
-/

namespace StringSampleSort

open Library X86

/-! ## Model -/

section Model

variable (splitter : ℕ → KeyType) (numsplitters : ℕ) (k : KeyType)

/-- `lo` and `hi`. -/
abbrev Window32 := BitVec 32 × BitVec 32

/-- `mid = (lo + hi) >> 1`. -/
def Window32.mid (x : Window32) : BitVec 32 := (x.1 + x.2) >>> 1

/-- The body of the loop of `find_bkt_binsearch`. -/
def binsearchBody (x : Window32) : Option (Window32 ⊕ BitVec 32) :=
  -- assert(mid < numsplitters);
  (readAt numsplitters splitter x.mid.toNat).map fun t =>
    .inl (if k ≤ t then (x.1, x.mid) else (x.mid + 1, x.2))

/-- `b = lo * 2`, or the equal bucket. -/
def binsearchBucket (lo : BitVec 32) : BitVec 32 :=
  if lo.toNat < numsplitters ∧ splitter lo.toNat = k then lo * 2 + 1 else lo * 2

/-- `find_bkt_binsearch(key, splitter, numsplitters)` with its 32-bit indices, for at most `fuel`
rounds. -/
def findBktBinsearch32 (fuel : ℕ) : Option (BitVec 32) :=
  whileDo (fun x : Window32 => x.1 < x.2) (binsearchBody splitter numsplitters k)
    (fun x => binsearchBucket splitter numsplitters k x.1) fuel
    (0, BitVec.ofNat 32 numsplitters)

/-- The body of the loop of `find_bkt_equal`. -/
def equalBody (x : Window32) : Option (Window32 ⊕ BitVec 32) :=
  -- assert(mid < numsplitters);
  (readAt numsplitters splitter x.mid.toNat).map fun t =>
    if k = t then .inr (2 * x.mid + 1)
    else .inl (if k < t then (x.1, x.mid) else (x.mid + 1, x.2))

/-- `find_bkt_equal(key, splitter, numsplitters)` with its 32-bit indices, for at most `fuel`
rounds. -/
def findBktEqual32 (fuel : ℕ) : Option (BitVec 32) :=
  whileDo (fun x : Window32 => x.1 < x.2) (equalBody splitter numsplitters k)
    (fun x => 2 * x.1) fuel (0, BitVec.ofNat 32 numsplitters)

end Model

section Blocks

variable (key splitter : Reg) (numsplitters : Operand)

/-- `cmpq (%[splitter],%%rax,8), %[key]`. -/
def cmpSplitter : Line := .op (.alu .cmp .quad (.mem ⟨.quad, 0, splitter, some (.rax, 8)⟩) key)

/-- The loop of `find_bkt_assembler`. -/
def binsearchLoop : List Line :=
  [.op (.lea .long ⟨.quad, 0, .rcx, some (.rdx, 1)⟩ .rax),
   .op (.shr .long .rax),
   cmpSplitter key splitter,
   .op (.cmov .be .long .rax .rdx),
   .op (.lea .long ⟨.quad, 1, .rax, none⟩ .rax),
   .op (.cmov .a .long .rax .rcx),
   .op (.alu .cmp .long (.reg .rdx) .rcx),
   .jcc .b 1]

/-- The block of `find_bkt_assembler`. -/
def binsearchBlock : List Line :=
  .op (.alu .xor .long (.reg .rcx) .rcx) ::
  .op (.mov .long numsplitters .rdx) ::
  .label 1 ::
  binsearchLoop key splitter

/-- `find_bkt_assembler(key, splitter, numsplitters)` returns `b`; the output operand is
`"=&c" (lo)`. -/
def FindBktAssembler (array : ℕ → KeyType) (n : ℕ) (k : KeyType) (s : State) (b : BitVec 32) :
    Prop :=
  let block := binsearchBlock key splitter numsplitters
  ∃ s', Runs block block s s' ∧ b = binsearchBucket array n k ((s'.reg .rcx).setWidth 32)

/-- The end of the block of `find_bkt_asmequal`. -/
def equalRest : List Line :=
  [.op (.lea .long ⟨.long, 0, .rcx, some (.rcx, 1)⟩ .rax),
   .jmp 3,
   .label 2,
   .op (.lea .long ⟨.quad, 1, .rax, some (.rax, 1)⟩ .rax),
   .label 3]

/-- The loop of `find_bkt_asmequal` and its end. -/
def equalLoop : List Line :=
  .op (.lea .long ⟨.quad, 0, .rcx, some (.rdx, 1)⟩ .rax) ::
  .op (.shr .long .rax) ::
  cmpSplitter key splitter ::
  .jcc .e 2 ::
  .op (.cmov .b .long .rax .rdx) ::
  .op (.lea .long ⟨.quad, 1, .rax, none⟩ .rax) ::
  .op (.cmov .a .long .rax .rcx) ::
  .op (.alu .cmp .long (.reg .rdx) .rcx) ::
  .jcc .b 1 ::
  equalRest

/-- The block of `find_bkt_asmequal`. -/
def equalBlock : List Line :=
  .op (.alu .xor .long (.reg .rcx) .rcx) ::
  .op (.mov .long numsplitters .rdx) ::
  .label 1 ::
  equalLoop key splitter

/-- `find_bkt_asmequal(key, splitter, numsplitters)` returns `b`; the output operand is
`"=&a" (lo)`. -/
def FindBktAsmequal (s : State) (b : BitVec 32) : Prop :=
  let block := equalBlock key splitter numsplitters
  ∃ s', Runs block block s s' ∧ b = (s'.reg .rax).setWidth 32

/-- The registers that both blocks overwrite. -/
def searchClobbers : List Reg := [.rax, .rcx, .rdx]

/-- What a block finds in its state: the key, the address of the splitters, the splitters in memory,
and their number. -/
structure SearchInput (array : ℕ → KeyType) (n : ℕ) (k : KeyType) (s : State) : Prop where
  key_input : Input searchClobbers s (.reg key) k
  splitter_input : ∃ base, Input searchClobbers s (.reg splitter) base ∧
    ∀ i < n, s.mem (base + BitVec.ofNat 64 i * 8) = some (array i)
  numsplitters_input : Input searchClobbers s numsplitters (BitVec.ofNat 64 n)

end Blocks

/-! ## The loops -/

section Loops

variable {key splitter : Reg} {numsplitters : Operand} {array : ℕ → KeyType} {n : ℕ} {k : KeyType}
  {s₀ s : State}

/-- The registers hold a window of the splitters. -/
structure HoldsWindow (n : ℕ) (s₀ s : State) (x : Window32) : Prop where
  agree : Agree searchClobbers s₀ s
  lo : s.reg .rcx = x.1.setWidth 64
  hi : s.reg .rdx = x.2.setWidth 64
  le : x.2.toNat ≤ n

/-- The middle of a window lies in front of its end, even if the sum wraps. -/
theorem Window32.mid_lt {x : Window32} (h : x.1 < x.2) : x.mid.toNat < x.2.toNat := by
  rw [BitVec.lt_def] at h
  rw [Window32.mid, BitVec.toNat_ushiftRight, BitVec.toNat_add, Nat.shiftRight_eq_div_pow]
  have := x.2.isLt
  omega

theorem two_mul32 (v : BitVec 32) : 2 * v = v + v := by
  apply BitVec.eq_of_toNat_eq
  rw [BitVec.toNat_mul, BitVec.toNat_add]
  show 2 * v.toNat % _ = _
  rw [Nat.two_mul]

/-- The comparison reads one of the splitters. -/
theorem eval_cmpSplitter (h : SearchInput key splitter numsplitters array n k s₀)
    (hs : Agree searchClobbers s₀ s) {v : BitVec 32} (hv : s.reg .rax = v.setWidth 64)
    (hlt : v.toNat < n) :
    (Instr.alu .cmp .quad (.mem ⟨.quad, 0, splitter, some (.rax, 8)⟩) key).eval s =
      some (compared k (array v.toNat) s) := by
  obtain ⟨hkey, ⟨base, hbase, hmem⟩, -⟩ := h
  -- the address is `splitter + 8 * rax`, and the upper half of `rax` is zero
  have hread : (Operand.mem ⟨.quad, 0, splitter, some (.rax, 8)⟩).read s =
      some (array v.toNat) := by
    rw [← hmem _ hlt]
    simp only [Operand.read, Addr.eval, Width.trunc_quad, hbase.reg_eq hs, hv, hs.mem]
    congr 1
    show 0#64 + base + _ = _
    rw [BitVec.zero_add, BitVec.ofNat_toNat]
  simp only [Instr.eval, hread, Option.map_some, AluOp.eval, Width.trunc_quad, hkey.reg_eq hs,
    compared]

/-- `x` after a round in which the key is not the splitter in the middle, or does not stop the
search. -/
def Window32.next (x : Window32) (k t : KeyType) : Window32 :=
  if k ≤ t then (x.1, x.mid) else (x.mid + 1, x.2)

/-- The first half of a round: the middle of the window, and its comparison. -/
theorem searchMid_exec (h : SearchInput key splitter numsplitters array n k s₀) {x : Window32}
    (hx : HoldsWindow n s₀ s x) (hlt : x.1 < x.2) (block : List Line) :
    ∃ c, (∀ fuel pc, exec block (fuel + 3)
        (.op (.lea .long ⟨.quad, 0, .rcx, some (.rdx, 1)⟩ .rax) :: .op (.shr .long .rax) ::
          cmpSplitter key splitter :: pc) s = exec block fuel pc c) ∧
      HoldsWindow n s₀ c x ∧ c.reg .rax = x.mid.setWidth 64 ∧
      c.cf = some (decide (k < array x.mid.toNat)) ∧
      c.zf = some (decide (k = array x.mid.toNat)) := by
  have hlea := eval_leal (s := s) .rax (trunc_eval_index .quad hx.lo hx.hi)
  set s₁ := s.set .long .rax ((x.1 + x.2).setWidth 64)
  have hrax₁ : s₁.reg .rax = (x.1 + x.2).setWidth 64 := by
    rw [State.set_reg_self, trunc_setWidth]
  -- the flags of the shift are overwritten by the comparison
  obtain ⟨cf, zf, hshr⟩ := eval_shrl hrax₁
  set s₂ := (s₁.set .long .rax (((x.1 + x.2) >>> 1).setWidth 64)).setFlags cf zf
  have hrax₂ : s₂.reg .rax = x.mid.setWidth 64 := by
    rw [State.setFlags_reg, State.set_reg_self, trunc_setWidth]
    rfl
  have hs₂ : Agree searchClobbers s₀ s₂ :=
    ((hx.agree.set (by decide) _ _).set (by decide) _ _).setFlags _ _
  have hcmp := eval_cmpSplitter h hs₂ hrax₂ (lt_of_lt_of_le (Window32.mid_lt hlt) hx.le)
  refine ⟨compared k (array x.mid.toNat) s₂, fun fuel pc => ?_, ⟨hs₂.setFlags _ _, ?_, ?_, hx.le⟩,
    hrax₂, rfl, rfl⟩
  · rw [exec_op_of_eval hlea, exec_op_of_eval hshr, cmpSplitter, exec_op_of_eval hcmp]
  · exact hx.lo
  · exact hx.hi

/-- The second half of a round, behind a comparison that sets the conditions `c` and above: the
window is halved, and the loop goes on while it is not empty. -/
theorem searchHalf_exec (block loop : List Line) {x : Window32} {t : KeyType} {c : Cond}
    (hx : HoldsWindow n s₀ s x) (hlt : x.1 < x.2) (hrax : s.reg .rax = x.mid.setWidth 64)
    (hc : c.holds s = some (decide (k ≤ t))) (ha : Cond.a.holds s = some (decide (t < k)))
    (hloop : target 1 block = some loop) (rest : List Line) :
    ∃ s₁, (∀ fuel, exec block (fuel + 5)
        (.op (.cmov c .long .rax .rdx) :: .op (.lea .long ⟨.quad, 1, .rax, none⟩ .rax) ::
          .op (.cmov .a .long .rax .rcx) :: .op (.alu .cmp .long (.reg .rdx) .rcx) ::
          .jcc .b 1 :: rest) s =
        exec block fuel (if (x.next k t).1 < (x.next k t).2 then loop else rest) s₁) ∧
      HoldsWindow n s₀ s₁ (x.next k t) := by
  have hcmov := eval_cmovl hc hrax hx.hi
  set s₁ := s.set .long .rdx ((if decide (k ≤ t) then x.mid else x.2).setWidth 64)
  have hrax₁ : s₁.reg .rax = x.mid.setWidth 64 := by
    rw [State.set_reg_of_ne _ _ _ _ (by decide)]
    exact hrax
  have hlea := eval_leal .rax (trunc_eval_succ hrax₁)
  set s₂ := s₁.set .long .rax ((x.mid + 1).setWidth 64)
  have hrax₂ : s₂.reg .rax = (x.mid + 1).setWidth 64 := by
    rw [State.set_reg_self, trunc_setWidth]
  have hrcx₂ : s₂.reg .rcx = x.1.setWidth 64 := by
    rw [State.set_reg_of_ne _ _ _ _ (by decide), State.set_reg_of_ne _ _ _ _ (by decide)]
    exact hx.lo
  -- `lea` has kept the flags of the comparison, so the second move sees them too
  have hcmova := eval_cmovl (c := .a) (s := s₂) ha hrax₂ hrcx₂
  set s₃ := s₂.set .long .rcx ((if decide (t < k) then x.mid + 1 else x.1).setWidth 64)
  have hlo : s₃.reg .rcx = (x.next k t).1.setWidth 64 := by
    rw [State.set_reg_self, trunc_setWidth, Window32.next]
    by_cases hkt : k ≤ t
    · simp [hkt, not_lt.mpr hkt]
    · simp [hkt, not_le.mp hkt]
  have hhi : s₃.reg .rdx = (x.next k t).2.setWidth 64 := by
    show (s₁.reg .rdx) = _
    rw [State.set_reg_self, trunc_setWidth, Window32.next]
    by_cases hkt : k ≤ t <;> simp [hkt]
  obtain ⟨zf, hcmp⟩ := eval_cmpl hlo hhi
  refine ⟨s₃.setFlags (some (decide ((x.next k t).1 < (x.next k t).2))) zf, fun fuel => ?_,
    ⟨?_, hlo, hhi, ?_⟩⟩
  · rw [exec_op_of_eval hcmov, exec_op_of_eval hlea, exec_op_of_eval hcmova, exec_op_of_eval hcmp,
      exec_jcc_of_holds (h := decide ((x.next k t).1 < (x.next k t).2)) rfl, hloop]
    by_cases hne : (x.next k t).1 < (x.next k t).2
    · rw [decide_eq_true hne, if_pos rfl, if_pos hne, Option.bind_some]
    · rw [decide_eq_false hne, if_neg Bool.false_ne_true, if_neg hne]
  · exact (((hx.agree.set (by decide) _ _).set (by decide) _ _).set (by decide) _ _).setFlags _ _
  · rw [Window32.next]
    split
    · exact (Window32.mid_lt hlt).le.trans hx.le
    · exact hx.le

/-- The loop of `find_bkt_assembler` is that of `find_bkt_binsearch`. -/
theorem binsearchBlock_doWhile (h : SearchInput key splitter numsplitters array n k s₀) :
    DoWhile (binsearchBlock key splitter numsplitters) (binsearchLoop key splitter) []
      (HoldsWindow n s₀) (fun x : Window32 => x.1 < x.2) (binsearchBody array n k)
      (fun x => binsearchBucket array n k x.1)
      (fun s => binsearchBucket array n k ((s.reg .rcx).setWidth 32)) where
  step s x hx hlt := by
    right
    obtain ⟨c, hmid, hc, hrax, hcf, hzf⟩ :=
      searchMid_exec h hx hlt (binsearchBlock key splitter numsplitters)
    have hbe : Cond.be.holds c = some (decide (k ≤ array x.mid.toNat)) := by
      simp [Cond.holds, hcf, hzf, le_iff_lt_or_eq]
    have ha : Cond.a.holds c = some (decide (array x.mid.toNat < k)) := by
      simp only [Cond.holds, hcf, hzf, Option.bind_some, Option.map_some, holds_above, gt_iff_lt]
    obtain ⟨s₁, hhalf, hnext⟩ := searchHalf_exec (binsearchBlock key splitter numsplitters)
      (binsearchLoop key splitter) hc hlt hrax hbe ha rfl []
    refine ⟨x.next k (array x.mid.toNat), ?_, s₁, 8, by norm_num, hnext, fun fuel => ?_⟩
    · rw [binsearchBody, readAt_of_lt _ (lt_of_lt_of_le (Window32.mid_lt hlt) hx.le)]
      rfl
    · exact (hmid (fuel + 5) _).trans (hhalf fuel)
  stop s x r hx hlt hr := by
    -- the loop has no exit in its middle
    rw [binsearchBody, readAt_of_lt _ (lt_of_lt_of_le (Window32.mid_lt hlt) hx.le)] at hr
    simp at hr
  finish s x hx _ := by
    refine ⟨s, runs_nil.mpr rfl, ?_⟩
    rw [hx.lo, setWidth_setWidth]

/-- The loop of `find_bkt_asmequal` is that of `find_bkt_equal`. -/
theorem equalBlock_doWhile (h : SearchInput key splitter numsplitters array n k s₀) :
    DoWhile (equalBlock key splitter numsplitters) (equalLoop key splitter) equalRest
      (HoldsWindow n s₀) (fun x : Window32 => x.1 < x.2) (equalBody array n k)
      (fun x => 2 * x.1) (fun s => (s.reg .rax).setWidth 32) where
  step s x hx hlt := by
    have hread := readAt_of_lt array (lt_of_lt_of_le (Window32.mid_lt hlt) hx.le)
    by_cases hk : k = array x.mid.toNat
    · left
      exact ⟨2 * x.mid + 1, by rw [equalBody, hread, Option.map_some, if_pos hk]⟩
    · right
      obtain ⟨c, hmid, hc, hrax, hcf, hzf⟩ :=
        searchMid_exec h hx hlt (equalBlock key splitter numsplitters)
      -- behind `je` the conditions `b` and `be` are the same
      have hle : k < array x.mid.toNat ↔ k ≤ array x.mid.toNat :=
        ⟨le_of_lt, fun h => lt_of_le_of_ne h hk⟩
      have hb : Cond.b.holds c = some (decide (k ≤ array x.mid.toNat)) := by
        rw [Cond.holds, hcf, decide_eq_decide.mpr hle]
      have ha : Cond.a.holds c = some (decide (array x.mid.toNat < k)) := by
        simp only [Cond.holds, hcf, hzf, Option.bind_some, Option.map_some, holds_above, gt_iff_lt]
      have he : Cond.e.holds c = some false := by
        rw [Cond.holds, hzf, decide_eq_false hk]
      obtain ⟨s₁, hhalf, hnext⟩ := searchHalf_exec (equalBlock key splitter numsplitters)
        (equalLoop key splitter) hc hlt hrax hb ha rfl equalRest
      refine ⟨x.next k (array x.mid.toNat), ?_, s₁, 9, by norm_num, hnext, fun fuel => ?_⟩
      · rw [equalBody, hread, Option.map_some, if_neg hk, Window32.next]
        simp only [hle]
      · refine (hmid (fuel + 6) _).trans ?_
        rw [exec_jcc_of_holds he, if_neg Bool.false_ne_true]
        exact hhalf fuel
  stop s x r hx hlt hr := by
    have hread := readAt_of_lt array (lt_of_lt_of_le (Window32.mid_lt hlt) hx.le)
    rw [equalBody, hread, Option.map_some] at hr
    by_cases hk : k = array x.mid.toNat
    · rw [if_pos hk, Option.some_inj, Sum.inr.injEq] at hr
      obtain ⟨c, hmid, hc, hrax, hcf, hzf⟩ :=
        searchMid_exec h hx hlt (equalBlock key splitter numsplitters)
      -- the jump to label 2, where `rax` still holds the middle
      have hlea := eval_leal .rax (trunc_eval_double_succ hrax)
      have hend : Runs (equalBlock key splitter numsplitters)
          [.op (.lea .long ⟨.quad, 1, .rax, some (.rax, 1)⟩ .rax), .label 3] c
          (c.set .long .rax ((x.mid + x.mid + 1).setWidth 64)) := by
        rw [runs_op_of_eval hlea, runs_label, runs_nil]
      obtain ⟨f, hf⟩ := hend
      refine ⟨c.set .long .rax ((x.mid + x.mid + 1).setWidth 64),
        ⟨f + 1 + 3, (hmid (f + 1) _).trans ?_⟩, ?_⟩
      · rw [exec_jcc_of_holds (h := true) (by rw [Cond.holds, hzf, decide_eq_true hk]), if_pos rfl]
        exact hf
      · rw [State.set_reg_self, trunc_setWidth, setWidth_setWidth, ← hr]
        exact congrArg (· + 1) (two_mul32 x.mid).symm
    · rw [if_neg hk, Option.some_inj] at hr
      cases hr
  finish s x hx _ := by
    have hlea := eval_leal .rax (trunc_eval_index .long hx.lo hx.lo)
    refine ⟨s.set .long .rax ((x.1 + x.1).setWidth 64), ?_, ?_⟩
    · rw [equalRest, runs_op_of_eval hlea, runs_jmp]
      exact ⟨[], rfl, runs_nil.mpr rfl⟩
    · rw [State.set_reg_self, trunc_setWidth, setWidth_setWidth]
      exact (two_mul32 x.1).symm

/-- Both blocks begin with the window of all splitters. -/
theorem searchStart_runs (h : SearchInput key splitter numsplitters array n k s)
    (block loop : List Line) : ∃ s₁, HoldsWindow n s s₁ (0, BitVec.ofNat 32 n) ∧
      ∀ s', Runs block (.op (.alu .xor .long (.reg .rcx) .rcx) ::
        .op (.mov .long numsplitters .rdx) :: .label 1 :: loop) s s' ↔ Runs block loop s₁ s' := by
  let s₁ := (s.set .long .rcx 0).setFlags (some false) (some true)
  have hs₁ : Agree searchClobbers s s₁ :=
    ((Agree.refl _ s).set (by decide) .long 0).setFlags (some false) (some true)
  have hxor : (Instr.alu .xor .long (.reg .rcx) .rcx).eval s = some s₁ := by
    simp only [Instr.eval, Operand.read, Option.map_some, AluOp.eval, BitVec.xor_self]
    rfl
  have hmov : (Instr.mov .long numsplitters .rdx).eval s₁ =
      some (s₁.set .long .rdx (BitVec.ofNat 64 n)) := by
    rw [Instr.eval, h.numsplitters_input _ hs₁, Option.map_some]
  refine ⟨s₁.set .long .rdx (BitVec.ofNat 64 n), ⟨hs₁.set (by decide) _ _, ?_, ?_, ?_⟩,
    fun s' => by rw [runs_op_of_eval hxor, runs_op_of_eval hmov, runs_label]⟩
  · rw [State.set_reg_of_ne _ _ _ _ (by decide), State.setFlags_reg, State.set_reg_self]
    rfl
  · -- `mov` of a 64-bit operand to a 32-bit register takes `n` modulo `2 ^ 32`
    rw [State.set_reg_self]
    apply BitVec.eq_of_toNat_eq
    rw [Width.toNat_trunc_long, BitVec.toNat_ofNat, BitVec.toNat_setWidth, BitVec.toNat_ofNat]
    omega
  · rw [BitVec.toNat_ofNat]
    exact Nat.mod_le _ _

end Loops

/-! ## The functions -/

section Functions

variable {key splitter : Reg} {numsplitters : Operand} {array : ℕ → KeyType} {n : ℕ} {k : KeyType}
  {s : State}

/-- The `do` loop is entered with a window that is not empty. -/
theorem window_nonempty (hn : n % 2 ^ 32 ≠ 0) : (0 : BitVec 32) < BitVec.ofNat 32 n := by
  rw [BitVec.lt_def, BitVec.toNat_ofNat]
  exact Nat.pos_of_ne_zero hn

/-- `find_bkt_assembler` returns what `find_bkt_binsearch` returns. -/
theorem findBktAssembler_iff (h : SearchInput key splitter numsplitters array n k s)
    (hn : n % 2 ^ 32 ≠ 0) (b : BitVec 32) :
    FindBktAssembler key splitter numsplitters array n k s b ↔
      ∃ fuel, findBktBinsearch32 array n k fuel = some b := by
  obtain ⟨s₁, hs₁, hstart⟩ := searchStart_runs h (binsearchBlock key splitter numsplitters)
    (binsearchLoop key splitter)
  refine Iff.trans ?_ ((binsearchBlock_doWhile h).runs_iff hs₁ (window_nonempty hn) b)
  exact exists_congr fun s' => and_congr_left' (hstart s')

/-- `find_bkt_asmequal` returns what `find_bkt_equal` returns. -/
theorem findBktAsmequal_iff (h : SearchInput key splitter numsplitters array n k s)
    (hn : n % 2 ^ 32 ≠ 0) (b : BitVec 32) :
    FindBktAsmequal key splitter numsplitters s b ↔
      ∃ fuel, findBktEqual32 array n k fuel = some b := by
  obtain ⟨s₁, hs₁, hstart⟩ := searchStart_runs h (equalBlock key splitter numsplitters)
    (equalLoop key splitter)
  refine Iff.trans ?_ ((equalBlock_doWhile h).runs_iff hs₁ (window_nonempty hn) b)
  exact exists_congr fun s' => and_congr_left' (hstart s')

end Functions

/-! ## Indices that do not wrap -/

section NoWrap

variable {array : ℕ → KeyType} {n : ℕ} {k : KeyType}

/-- The middle of a window whose sum does not wrap. -/
theorem mid_ofNat {lo hi : ℕ} (hlt : lo < hi) (hhi : hi ≤ 2 ^ 31) :
    let mid := (lo + hi) >>> 1
    Window32.mid (BitVec.ofNat 32 lo, BitVec.ofNat 32 hi) = BitVec.ofNat 32 mid ∧
      (BitVec.ofNat 32 mid).toNat = mid ∧ lo ≤ mid ∧ mid < hi ∧
      BitVec.ofNat 32 mid + 1 = BitVec.ofNat 32 (mid + 1) := by
  intro mid
  have hmid : mid = (lo + hi) / 2 := Nat.shiftRight_eq_div_pow ..
  refine ⟨BitVec.eq_of_toNat_eq ?_, ?_, by omega, by omega, (BitVec.ofNat_add mid 1).symm⟩
  · simp only [Window32.mid, BitVec.toNat_ushiftRight, BitVec.toNat_add, BitVec.toNat_ofNat,
      Nat.shiftRight_eq_div_pow]
    omega
  · rw [BitVec.toNat_ofNat]
    omega

theorem ofNat_lt_iff32 {lo hi : ℕ} (hlo : lo ≤ 2 ^ 31) (hhi : hi ≤ 2 ^ 31) :
    BitVec.ofNat 32 lo < BitVec.ofNat 32 hi ↔ lo < hi := by
  rw [BitVec.ofNat_lt_ofNat, Nat.mod_eq_of_lt (by omega), Nat.mod_eq_of_lt (by omega)]

theorem binarySearch_le {fuel lo hi : ℕ} (h : lo ≤ hi) : binarySearch array k fuel lo hi ≤ hi := by
  induction fuel generalizing lo hi with
  | zero => exact h
  | succ fuel ih =>
    rw [binarySearch]
    -- both halves end at or in front of `hi`
    have hmid : (lo + hi) >>> 1 = (lo + hi) / 2 := Nat.shiftRight_eq_div_pow ..
    split
    · simp only
      split
      · exact (ih (by omega)).trans (by omega)
      · exact ih (by omega)
    · exact h

/-- The search of `find_bkt_binsearch` with unbounded indices. -/
theorem binsearch_eq {fuel lo hi : ℕ} (hn : n ≤ 2 ^ 31) (hlo : lo ≤ hi) (hhi : hi ≤ n)
    (hfuel : hi - lo ≤ fuel) :
    whileDo (fun x : Window32 => x.1 < x.2) (binsearchBody array n k)
        (fun x => binsearchBucket array n k x.1) (fuel + 1)
        (BitVec.ofNat 32 lo, BitVec.ofNat 32 hi) =
      some (binsearchBucket array n k (BitVec.ofNat 32 (binarySearch array k fuel lo hi))) := by
  have htest := ofNat_lt_iff32 (show lo ≤ 2 ^ 31 by omega) (show hi ≤ 2 ^ 31 by omega)
  induction fuel generalizing lo hi with
  | zero => rw [whileDo, if_neg (htest.not.mpr (by omega)), binarySearch]
  | succ fuel ih =>
    rw [whileDo, binarySearch]
    by_cases hlt : lo < hi
    · obtain ⟨hmid, hnat, hle, hlt', hnext⟩ := mid_ofNat hlt (hhi.trans hn)
      rw [if_pos (htest.mpr hlt), if_pos hlt, binsearchBody, hmid, hnat,
        readAt_of_lt _ (by omega), Option.map_some, Option.bind_some]
      by_cases hk : k ≤ array ((lo + hi) >>> 1)
      · simp only [if_pos hk]
        exact ih hle (by omega) (by omega) (ofNat_lt_iff32 (by omega) (by omega))
      · simp only [if_neg hk, hnext]
        exact ih (by omega) hhi (by omega) (ofNat_lt_iff32 (by omega) (by omega))
    · rw [if_neg (htest.not.mpr hlt), if_neg hlt]

/-- Up to `2 ^ 31` splitters, `find_bkt_binsearch` returns what it returns with unbounded
indices. -/
theorem findBktBinsearch32_eq (hn : n ≤ 2 ^ 31) (array : ℕ → KeyType) (k : KeyType) :
    findBktBinsearch32 array n k (n + 1) =
      some (BitVec.ofNat 32 (findBktBinsearch array n k)) := by
  have hle : binarySearch array k n 0 n ≤ n := binarySearch_le (Nat.zero_le n)
  have hlo : (BitVec.ofNat 32 (binarySearch array k n 0 n)).toNat = binarySearch array k n 0 n := by
    rw [BitVec.toNat_ofNat]
    omega
  refine (binsearch_eq hn (Nat.zero_le n) (le_refl n) (show n - 0 ≤ n by omega)).trans ?_
  rw [Option.some_inj, binsearchBucket, findBktBinsearch, hlo]
  have htwice : BitVec.ofNat 32 (binarySearch array k n 0 n) * 2 =
      BitVec.ofNat 32 (binarySearch array k n 0 n * 2) := (BitVec.ofNat_mul ..).symm
  simp only [htwice]
  split
  · exact (BitVec.ofNat_add _ 1).symm
  · rfl

/-- The search of `find_bkt_equal` with unbounded indices. -/
theorem equalSearch_eq {fuel lo hi : ℕ} (hn : n ≤ 2 ^ 31) (hlo : lo ≤ hi) (hhi : hi ≤ n)
    (hfuel : hi - lo ≤ fuel) :
    whileDo (fun x : Window32 => x.1 < x.2) (equalBody array n k) (fun x => 2 * x.1) (fuel + 1)
        (BitVec.ofNat 32 lo, BitVec.ofNat 32 hi) =
      some (BitVec.ofNat 32 (equalSearch array k fuel lo hi)) := by
  have htest := ofNat_lt_iff32 (show lo ≤ 2 ^ 31 by omega) (show hi ≤ 2 ^ 31 by omega)
  have htwice : ∀ v, 2 * BitVec.ofNat 32 v = BitVec.ofNat 32 (2 * v) := fun v =>
    (BitVec.ofNat_mul ..).symm
  induction fuel generalizing lo hi with
  | zero => rw [whileDo, if_neg (htest.not.mpr (by omega)), equalSearch, htwice]
  | succ fuel ih =>
    rw [whileDo, equalSearch]
    by_cases hlt : lo < hi
    · obtain ⟨hmid, hnat, hle, hlt', hnext⟩ := mid_ofNat hlt (hhi.trans hn)
      rw [if_pos (htest.mpr hlt), if_pos hlt, equalBody, hmid, hnat,
        readAt_of_lt _ (by omega), Option.map_some, Option.bind_some]
      by_cases heq : k = array ((lo + hi) >>> 1)
      · simp only [if_pos heq, htwice]
        exact congrArg some (BitVec.ofNat_add _ 1).symm
      · by_cases hk : k < array ((lo + hi) >>> 1)
        · simp only [if_neg heq, if_pos hk]
          exact ih hle (by omega) (by omega) (ofNat_lt_iff32 (by omega) (by omega))
        · simp only [if_neg heq, if_neg hk, hnext]
          exact ih (by omega) hhi (by omega) (ofNat_lt_iff32 (by omega) (by omega))
    · rw [if_neg (htest.not.mpr hlt), if_neg hlt, htwice]

/-- Up to `2 ^ 31` splitters, `find_bkt_equal` returns what it returns with unbounded indices. -/
theorem findBktEqual32_eq (hn : n ≤ 2 ^ 31) (array : ℕ → KeyType) (k : KeyType) :
    findBktEqual32 array n k (n + 1) = some (BitVec.ofNat 32 (findBktEqual array n k)) :=
  equalSearch_eq hn (Nat.zero_le n) (le_refl n) (show n - 0 ≤ n by omega)

end NoWrap

/-! ## All searches -/

section Searches

/-- Each assembler search returns what the C++ search returns: for every tree of 1 to 30 levels, for
which `(1 << treebits) - 1` is defined, and every array of splitters whose number does not vanish in
32 bits, in whatever registers and operands the compiler has placed the inputs. -/
theorem assemblerSearches_eq (key array : Reg) (k : KeyType) (s : State) :
    (∀ treebits numsplitters1 a, 1 ≤ treebits → treebits ≤ 30 →
      TreeInput key array [.rax, .rcx] treebits a.tree k s →
      Input [.rax, .rcx] s numsplitters1 (BitVec.ofNat 64 (numsplitters treebits + 1)) →
      ∀ b, FindBktTreeAssembler key array numsplitters1 treebits a k s b ↔
        (ClassifyTreeSimple treebits).findBkt a k = some b) ∧
    (∀ treebits numsplitters1 levels mask a, 1 ≤ treebits → treebits ≤ 30 →
      TreeInput key array equalClobbers treebits a.tree k s →
      EqualInput treebits numsplitters1 levels mask s →
      ∀ b, FindBktEqualAssembler key array numsplitters1 levels mask s b ↔
        (ClassifyEqual treebits).findBkt a k = some b) ∧
    (∀ treebits numsplitters1 levels mask a, 3 ≤ treebits → treebits ≤ 15 →
      TreeInput key array equalClobbers treebits a.tree k s →
      EqualInput treebits numsplitters1 levels mask s →
      ∀ b, FindBktEqualUnrollAssembler key array treebits numsplitters1 levels mask s b ↔
        (ClassifyEqual treebits).findBkt a k = some b) ∧
    (∀ numsplitters splitter n, n % 2 ^ 32 ≠ 0 →
      SearchInput key array numsplitters splitter n k s →
      ∀ b, FindBktAssembler key array numsplitters splitter n k s b ↔
        ∃ fuel, findBktBinsearch32 splitter n k fuel = some b) ∧
    (∀ numsplitters splitter n, n % 2 ^ 32 ≠ 0 →
      SearchInput key array numsplitters splitter n k s →
      ∀ b, FindBktAsmequal key array numsplitters s b ↔
        ∃ fuel, findBktEqual32 splitter n k fuel = some b) :=
  ⟨fun _ _ a h₁ h₂ h hn => findBktTreeAssembler_iff h₁ h₂ a h hn,
    fun _ _ _ _ a h₁ h₂ h hn => findBktEqualAssembler_iff h₁ h₂ a h hn,
    fun _ _ _ _ a h₁ h₂ h hn => findBktEqualUnrollAssembler_iff (by omega) (by omega) a h hn,
    fun _ _ _ hn h => findBktAssembler_iff h hn, fun _ _ _ hn h => findBktAsmequal_iff h hn⟩

/-- The key one in `rdi`, and a memory of zeros. -/
def zeroState : State where
  reg r := if r = .rdi then 1 else 0
  cf := none
  zf := none
  mem _ := some 0

/-- Trees of three levels and a single splitter. -/
theorem assemblerSearches_eq_zeros :
    let a : SplitterArrays := ⟨fun _ => 0, fun _ => 0, fun _ => 0⟩
    (∀ b, FindBktTreeAssembler .rdi .rsi (.imm 8) 3 a 1 zeroState b ↔
      (ClassifyTreeSimple 3).findBkt a 1 = some b) ∧
    (∀ b, FindBktEqualAssembler .rdi .rsi (.imm 8) (.imm 3) (.imm 7) zeroState b ↔
      (ClassifyEqual 3).findBkt a 1 = some b) ∧
    (∀ b, FindBktEqualUnrollAssembler .rdi .rsi 3 (.imm 8) (.imm 3) (.imm 7) zeroState b ↔
      (ClassifyEqual 3).findBkt a 1 = some b) ∧
    (∀ b, FindBktAssembler .rdi .rsi (.imm 1) (fun _ => 0) 1 1 zeroState b ↔
      ∃ fuel, findBktBinsearch32 (fun _ => 0) 1 1 fuel = some b) ∧
    ∀ b, FindBktAsmequal .rdi .rsi (.imm 1) zeroState b ↔
      ∃ fuel, findBktEqual32 (fun _ => 0) 1 1 fuel = some b := by
  intro a
  obtain ⟨htree, hequal, hunroll, hbinsearch, hasmequal⟩ :=
    assemblerSearches_eq .rdi .rsi 1 zeroState
  have htreeInput : ∀ clobbers, Reg.rdi ∉ clobbers → Reg.rsi ∉ clobbers →
      TreeInput .rdi .rsi clobbers 3 a.tree 1 zeroState := fun _ h₁ h₂ =>
    ⟨Input.reg h₁, 0, Input.reg h₂, fun _ _ _ => rfl⟩
  have hequalInput : EqualInput 3 (.imm 8) (.imm 3) (.imm 7) zeroState :=
    ⟨Input.imm _ _ _, Input.imm _ _ _, Input.imm _ _ _⟩
  have hsearchInput : SearchInput .rdi .rsi (.imm 1) (fun _ => 0) 1 1 zeroState :=
    ⟨Input.reg (by decide), ⟨0, Input.reg (by decide), fun _ _ => rfl⟩, Input.imm _ _ _⟩
  exact ⟨htree 3 _ a (by norm_num) (by norm_num) (htreeInput _ (by decide) (by decide))
      (Input.imm _ _ _),
    hequal 3 _ _ _ a (by norm_num) (by norm_num) (htreeInput _ (by decide) (by decide)) hequalInput,
    hunroll 3 _ _ _ a (by norm_num) (by norm_num) (htreeInput _ (by decide) (by decide))
      hequalInput,
    hbinsearch _ _ 1 (by norm_num) hsearchInput, hasmequal _ _ 1 (by norm_num) hsearchInput⟩

/-- With `2 ^ 32` splitters, `hi` is zero: the loop of `find_bkt_binsearch` is not entered, but the
body of the assembler loop is. -/
theorem assemblerSearch_differs :
    SearchInput .rdi .rsi (.imm (BitVec.ofNat 64 (2 ^ 32))) (fun _ => 0) (2 ^ 32) 1 zeroState ∧
    FindBktAssembler .rdi .rsi (.imm (BitVec.ofNat 64 (2 ^ 32))) (fun _ => 0) (2 ^ 32) 1 zeroState
      2 ∧
    findBktBinsearch32 (fun _ => 0) (2 ^ 32) 1 1 = some 0 := by
  refine ⟨⟨Input.reg (by decide), ⟨0, Input.reg (by decide), fun _ _ => rfl⟩, Input.imm _ _ _⟩, ?_,
    by decide⟩
  have hrun : (exec (binsearchBlock .rdi .rsi (.imm (BitVec.ofNat 64 (2 ^ 32)))) 12
      (binsearchBlock .rdi .rsi (.imm (BitVec.ofNat 64 (2 ^ 32)))) zeroState).map
      (fun s => (s.reg .rcx).setWidth 32) = some 1 := by decide
  obtain ⟨s', hs', hout⟩ := Option.map_eq_some_iff.mp hrun
  exact ⟨s', ⟨12, hs'⟩, by rw [hout]; decide⟩

end Searches

end StringSampleSort
