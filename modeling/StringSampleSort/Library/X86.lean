import Mathlib.Data.Finset.Insert
import Mathlib.Logic.Function.Basic
import Mathlib.Tactic.NormNum

/-!
# Blocks of x86-64 instructions

The meaning of the 64-bit and 32-bit general-purpose instructions of an inline assembler block, in
AT&T operand order, with local labels.  A 32-bit write clears the upper half of its register, `lea`,
`mov` and `cmov` leave the flags unchanged, and flags that an instruction leaves undefined have no
value.

A block that runs off its last line has ended.  It has no result when it loads from an address that
is not mapped, depends on an undefined value, or jumps to a label that does not exist.

## Main results

- `Runs.unique`: a block ends in at most one state
- `runs_op`, `runs_label`, `runs_jcc`, `runs_jmp`: runs line by line
- `Agree.set`: registers that are no clobbers, and the memory, keep their values
-/

namespace StringSampleSort.Library.X86

/-! ## States -/

/-- The general-purpose registers. -/
inductive Reg
  | rax | rcx | rdx | rbx | rsp | rbp | rsi | rdi | r8 | r9 | r10 | r11 | r12 | r13 | r14 | r15
  deriving DecidableEq, Repr

/-- Registers, the two flags that unsigned comparisons use, and the quad words in memory. -/
structure State where
  reg : Reg → BitVec 64
  cf : Option Bool
  zf : Option Bool
  mem : BitVec 64 → Option (BitVec 64)

/-- Operand sizes: suffixes `l` and `q`. -/
inductive Width
  | long
  | quad
  deriving DecidableEq, Repr

/-- The part of a register that an operand size sees, with a cleared upper half. -/
def Width.trunc (w : Width) (v : BitVec 64) : BitVec 64 :=
  match w with
  | long => (v.setWidth 32).setWidth 64
  | quad => v

/-- The number of bits. -/
def Width.bits : Width → ℕ
  | long => 32
  | quad => 64

/-- `disp(base, index, scale)`, with base and index registers of the given size. -/
structure Addr where
  width : Width
  disp : BitVec 64
  base : Reg
  index : Option (Reg × BitVec 64)
  deriving DecidableEq, Repr

/-- The address. -/
def Addr.eval (a : Addr) (s : State) : BitVec 64 :=
  a.width.trunc (a.disp + s.reg a.base + match a.index with
    | none => 0
    | some (r, scale) => s.reg r * scale)

/-- Source operands. -/
inductive Operand
  | imm (v : BitVec 64)
  | reg (r : Reg)
  | mem (a : Addr)
  deriving DecidableEq, Repr

/-- The value of an operand. -/
def Operand.read (s : State) : Operand → Option (BitVec 64)
  | imm v => some v
  | reg r => some (s.reg r)
  | mem a => s.mem (a.eval s)

/-- A register is written. -/
def State.set (s : State) (w : Width) (r : Reg) (v : BitVec 64) : State :=
  { s with reg := Function.update s.reg r (w.trunc v) }

/-- The flags are written. -/
def State.setFlags (s : State) (cf zf : Option Bool) : State := { s with cf := cf, zf := zf }

section StateLemmas

variable (s : State) (w : Width) (r : Reg) (v : BitVec 64) (cf zf : Option Bool)

@[simp] theorem State.set_reg_self : (s.set w r v).reg r = w.trunc v := Function.update_self ..

@[simp] theorem State.set_reg_of_ne {r' : Reg} (h : r' ≠ r) : (s.set w r v).reg r' = s.reg r' :=
  Function.update_of_ne h ..

@[simp] theorem State.set_cf : (s.set w r v).cf = s.cf := rfl

@[simp] theorem State.set_zf : (s.set w r v).zf = s.zf := rfl

@[simp] theorem State.set_mem : (s.set w r v).mem = s.mem := rfl

@[simp] theorem State.setFlags_reg : (s.setFlags cf zf).reg = s.reg := rfl

@[simp] theorem State.setFlags_cf : (s.setFlags cf zf).cf = cf := rfl

@[simp] theorem State.setFlags_zf : (s.setFlags cf zf).zf = zf := rfl

@[simp] theorem State.setFlags_mem : (s.setFlags cf zf).mem = s.mem := rfl

@[simp] theorem Width.trunc_quad : Width.quad.trunc v = v := rfl

theorem Width.toNat_trunc_long : (Width.long.trunc v).toNat = v.toNat % 2 ^ 32 := by
  rw [trunc, BitVec.toNat_setWidth, BitVec.toNat_setWidth]
  omega

end StateLemmas

/-! ## Instructions -/

/-- Conditions of unsigned comparisons. -/
inductive Cond
  | a
  | b
  | be
  | e
  deriving DecidableEq, Repr

/-- Whether a condition holds. -/
def Cond.holds (s : State) : Cond → Option Bool
  | a => s.cf.bind fun c => s.zf.map fun z => !c && !z
  | b => s.cf
  | be => s.cf.bind fun c => s.zf.map fun z => c || z
  | e => s.zf

/-- Operations with two operands that write the flags. -/
inductive AluOp
  | and
  | or
  | xor
  | sub
  | cmp
  deriving DecidableEq, Repr

/-- `op src, dst`, for the values of its operands. -/
def AluOp.eval (op : AluOp) (s : State) (w : Width) (x y : BitVec 64) (dst : Reg) : State :=
  match op with
  | and => (s.set w dst (x &&& y)).setFlags (some false) (some (decide (x &&& y = 0)))
  | or => (s.set w dst (x ||| y)).setFlags (some false) (some (decide (x ||| y = 0)))
  | xor => (s.set w dst (x ^^^ y)).setFlags (some false) (some (decide (x ^^^ y = 0)))
  | sub => (s.set w dst (x - y)).setFlags (some (decide (x < y))) (some (decide (x = y)))
  | cmp => s.setFlags (some (decide (x < y))) (some (decide (x = y)))

/-- Instructions. -/
inductive Instr
  | mov (w : Width) (src : Operand) (dst : Reg)
  | lea (w : Width) (src : Addr) (dst : Reg)
  | alu (op : AluOp) (w : Width) (src : Operand) (dst : Reg)
  | cmov (c : Cond) (w : Width) (src dst : Reg)
  /-- `shr dst`, by one -/
  | shr (w : Width) (dst : Reg)
  /-- `shl %cl, dst` -/
  | shl (w : Width) (dst : Reg)
  | bsr (w : Width) (src dst : Reg)
  deriving DecidableEq, Repr

/-- The state after an instruction. -/
def Instr.eval (s : State) : Instr → Option State
  | mov w src dst => (src.read s).map fun v => s.set w dst v
  | lea w src dst => some (s.set w dst (src.eval s))
  | alu op w src dst => (src.read s).map fun v => op.eval s w (w.trunc (s.reg dst)) (w.trunc v) dst
  | cmov c w src dst => (c.holds s).map fun h => s.set w dst (if h then s.reg src else s.reg dst)
  | shr w dst =>
    let x := w.trunc (s.reg dst)
    some ((s.set w dst (x >>> 1)).setFlags (some (x.getLsbD 0)) (some (decide (x >>> 1 = 0))))
  | shl w dst =>
    let x := w.trunc (s.reg dst)
    let n := (s.reg .rcx).toNat % w.bits
    if n = 0 then some (s.set w dst x)
    else some ((s.set w dst (x <<< n)).setFlags (some (x.getLsbD (w.bits - n)))
      (some (decide (w.trunc (x <<< n) = 0))))
  | bsr w src dst =>
    let x := w.trunc (s.reg src)
    -- the result for zero is undefined
    if x = 0 then none
    else some ((s.set w dst (BitVec.ofNat 64 x.toNat.log2)).setFlags none (some false))

/-! ## Blocks -/

/-- A line of a block: a local label, an instruction, or a jump to a label. -/
inductive Line
  | label (n : ℕ)
  | op (i : Instr)
  | jcc (c : Cond) (n : ℕ)
  | jmp (n : ℕ)
  deriving DecidableEq, Repr

/-- The lines behind a label. -/
def target (n : ℕ) : List Line → Option (List Line)
  | [] => none
  | .label m :: code => if m = n then some code else target n code
  | _ :: code => target n code

/-- The lines `pc` of the block `code` are executed, for at most `fuel` lines. -/
def exec (code : List Line) : ℕ → List Line → State → Option State
  | 0, _, _ => none
  | _ + 1, [], s => some s
  | fuel + 1, .label _ :: pc, s => exec code fuel pc s
  | fuel + 1, .op i :: pc, s => (i.eval s).bind fun s => exec code fuel pc s
  | fuel + 1, .jcc c n :: pc, s => (c.holds s).bind fun h =>
    if h then (target n code).bind fun pc => exec code fuel pc s else exec code fuel pc s
  | fuel + 1, .jmp n :: _, s => (target n code).bind fun pc => exec code fuel pc s

/-- From the lines `pc` on the block ends in state `s'`. -/
def Runs (code pc : List Line) (s s' : State) : Prop := ∃ fuel, exec code fuel pc s = some s'

section Rules

variable {code pc : List Line} {s s' s'' : State}

theorem exec_succ {fuel : ℕ} (h : exec code fuel pc s = some s') :
    exec code (fuel + 1) pc s = some s' := by
  induction fuel generalizing pc s with
  | zero => cases h
  | succ fuel ih =>
    cases pc with
    | nil => exact h
    | cons l pc =>
      cases l with
      | label n => exact ih h
      | op i =>
        obtain ⟨s₁, h₁, h⟩ := Option.bind_eq_some_iff.mp h
        exact Option.bind_eq_some_iff.mpr ⟨s₁, h₁, ih h⟩
      | jcc c n =>
        obtain ⟨b, h₁, h⟩ := Option.bind_eq_some_iff.mp h
        refine Option.bind_eq_some_iff.mpr ⟨b, h₁, ?_⟩
        cases b with
        | false => exact ih h
        | true =>
          obtain ⟨pc', h₂, h⟩ := Option.bind_eq_some_iff.mp h
          exact Option.bind_eq_some_iff.mpr ⟨pc', h₂, ih h⟩
      | jmp n =>
        obtain ⟨pc', h₂, h⟩ := Option.bind_eq_some_iff.mp h
        exact Option.bind_eq_some_iff.mpr ⟨pc', h₂, ih h⟩

theorem exec_mono {fuel k : ℕ} (hk : fuel ≤ k) (h : exec code fuel pc s = some s') :
    exec code k pc s = some s' := by
  induction k, hk using Nat.le_induction with
  | base => exact h
  | succ k _ ih => exact exec_succ ih

/-- A block ends in at most one state. -/
theorem Runs.unique (h : Runs code pc s s') (h' : Runs code pc s s'') : s' = s'' := by
  obtain ⟨k, hk⟩ := h
  obtain ⟨k', hk'⟩ := h'
  have h₁ := exec_mono (le_max_left k k') hk
  have h₂ := exec_mono (le_max_right k k') hk'
  exact Option.some_inj.mp (h₁.symm.trans h₂)

theorem runs_nil : Runs code [] s s' ↔ s = s' :=
  ⟨fun ⟨fuel, h⟩ => by
    cases fuel with
    | zero => cases h
    | succ fuel => exact Option.some_inj.mp h,
  fun h => ⟨1, by rw [h]; rfl⟩⟩

/-- A run takes at least one line. -/
theorem runs_iff_succ : Runs code pc s s' ↔ ∃ fuel, exec code (fuel + 1) pc s = some s' :=
  ⟨fun ⟨fuel, h⟩ => ⟨fuel, exec_succ h⟩, fun ⟨fuel, h⟩ => ⟨fuel + 1, h⟩⟩

theorem runs_label {n : ℕ} : Runs code (.label n :: pc) s s' ↔ Runs code pc s s' :=
  runs_iff_succ

theorem runs_op {i : Instr} :
    Runs code (.op i :: pc) s s' ↔ ∃ s₁, i.eval s = some s₁ ∧ Runs code pc s₁ s' := by
  rw [runs_iff_succ]
  constructor
  · rintro ⟨fuel, h⟩
    obtain ⟨s₁, h₁, h⟩ := Option.bind_eq_some_iff.mp h
    exact ⟨s₁, h₁, fuel, h⟩
  · rintro ⟨s₁, h₁, fuel, h⟩
    exact ⟨fuel, Option.bind_eq_some_iff.mpr ⟨s₁, h₁, h⟩⟩

/-- An instruction whose effect is known takes one line. -/
theorem exec_op_of_eval {i : Instr} {s₁ : State} (h : i.eval s = some s₁) (code pc : List Line)
    (fuel : ℕ) : exec code (fuel + 1) (.op i :: pc) s = exec code fuel pc s₁ := by
  rw [exec, h, Option.bind_some]

/-- A jump whose condition is known takes one line. -/
theorem exec_jcc_of_holds {c : Cond} {n : ℕ} {h : Bool} (hc : c.holds s = some h)
    (code pc : List Line) (fuel : ℕ) : exec code (fuel + 1) (.jcc c n :: pc) s =
      if h then (target n code).bind fun pc => exec code fuel pc s else exec code fuel pc s := by
  rw [exec, hc, Option.bind_some]

/-- An instruction whose effect is known. -/
theorem runs_op_of_eval {i : Instr} {s₁ : State} (h : i.eval s = some s₁) :
    Runs code (.op i :: pc) s s' ↔ Runs code pc s₁ s' := by
  rw [runs_op]
  constructor
  · rintro ⟨s₂, h₂, hr⟩
    rwa [Option.some_inj.mp (h.symm.trans h₂)]
  · exact fun hr => ⟨s₁, h, hr⟩

theorem runs_jmp {n : ℕ} :
    Runs code (.jmp n :: pc) s s' ↔ ∃ pc', target n code = some pc' ∧ Runs code pc' s s' := by
  rw [runs_iff_succ]
  constructor
  · rintro ⟨fuel, h⟩
    obtain ⟨pc', h₁, h⟩ := Option.bind_eq_some_iff.mp h
    exact ⟨pc', h₁, fuel, h⟩
  · rintro ⟨pc', h₁, fuel, h⟩
    exact ⟨fuel, Option.bind_eq_some_iff.mpr ⟨pc', h₁, h⟩⟩

/-- A conditional jump whose condition is known. -/
theorem runs_jcc {c : Cond} {n : ℕ} {b : Bool} (hb : c.holds s = some b) :
    Runs code (.jcc c n :: pc) s s' ↔
      if b then ∃ pc', target n code = some pc' ∧ Runs code pc' s s' else Runs code pc s s' := by
  rw [runs_iff_succ]
  simp only [exec_jcc_of_holds hb]
  cases b with
  | false => exact Iff.rfl
  | true =>
    simp only [if_true]
    constructor
    · rintro ⟨fuel, h⟩
      obtain ⟨pc', h₁, h⟩ := Option.bind_eq_some_iff.mp h
      exact ⟨pc', h₁, fuel, h⟩
    · rintro ⟨pc', h₁, fuel, h⟩
      exact ⟨fuel, Option.bind_eq_some_iff.mpr ⟨pc', h₁, h⟩⟩

end Rules

/-! ## Inputs -/

section Inputs

/-- Only the registers `clobbers` and the flags may differ. -/
structure Agree (clobbers : List Reg) (s s' : State) : Prop where
  reg : ∀ r, r ∉ clobbers → s'.reg r = s.reg r
  mem : s'.mem = s.mem

variable {clobbers : List Reg} {s s' s'' : State}

theorem Agree.refl (clobbers : List Reg) (s : State) : Agree clobbers s s := ⟨fun _ _ => rfl, rfl⟩

theorem Agree.trans (h : Agree clobbers s s') (h' : Agree clobbers s' s'') :
    Agree clobbers s s'' :=
  ⟨fun r hr => (h'.reg r hr).trans (h.reg r hr), h'.mem.trans h.mem⟩

theorem Agree.mono {clobbers' : List Reg} (h : Agree clobbers s s')
    (hsub : clobbers ⊆ clobbers') : Agree clobbers' s s' :=
  ⟨fun r hr => h.reg r fun hr' => hr (hsub hr'), h.mem⟩

/-- A clobber is written. -/
theorem Agree.set (h : Agree clobbers s s') {r : Reg} (hr : r ∈ clobbers) (w : Width)
    (v : BitVec 64) : Agree clobbers s (s'.set w r v) where
  reg r' hr' := by
    have hne : r' ≠ r := fun he => hr' (he.symm ▸ hr)
    rw [State.set_reg_of_ne _ _ _ _ hne]
    exact h.reg r' hr'
  mem := h.mem

theorem Agree.setFlags (h : Agree clobbers s s') (cf zf : Option Bool) :
    Agree clobbers s (s'.setFlags cf zf) := ⟨h.reg, h.mem⟩

/-- An operand whose value is an input of the block: it does not depend on clobbers. -/
def Input (clobbers : List Reg) (s : State) (o : Operand) (v : BitVec 64) : Prop :=
  ∀ s', Agree clobbers s s' → o.read s' = some v

theorem Input.imm (clobbers : List Reg) (s : State) (v : BitVec 64) :
    Input clobbers s (.imm v) v := fun _ _ => rfl

theorem Input.reg {r : Reg} (hr : r ∉ clobbers) : Input clobbers s (.reg r) (s.reg r) :=
  fun _ h => congrArg some (h.reg r hr)

/-- An input register is no clobber. -/
theorem Input.not_mem {r : Reg} {v : BitVec 64} (h : Input clobbers s (.reg r) v) :
    r ∉ clobbers := by
  intro hr
  -- otherwise the block may write `v + 1` to it
  have h₁ := h _ ((Agree.refl clobbers s).set hr .quad (v + 1))
  rw [Operand.read, State.set_reg_self, Width.trunc_quad, Option.some_inj] at h₁
  simp at h₁

theorem Input.reg_eq {r : Reg} {v : BitVec 64} (h : Input clobbers s (.reg r) v)
    (hs : Agree clobbers s s') : s'.reg r = v := Option.some_inj.mp (h s' hs)

end Inputs

/-! ## Registers that hold numbers -/

section Numbers

variable {s : State} {r dst : Reg} {o : Operand} {i j : ℕ}

/-- `(r, r)` for a register that holds a number. -/
theorem Addr.eval_double {s : State} {r : Reg} {i : ℕ} (hi : s.reg r = BitVec.ofNat 64 i) :
    (⟨.quad, 0, r, some (r, 1)⟩ : Addr).eval s = BitVec.ofNat 64 (i + i) := by
  simp only [Addr.eval, Width.trunc, hi]
  show 0#64 + _ + _ * 1#64 = _
  rw [BitVec.zero_add, BitVec.mul_one, BitVec.ofNat_add]

/-- `1(r)` for a register that holds a number. -/
theorem Addr.eval_succ {s : State} {r : Reg} {i : ℕ} (hi : s.reg r = BitVec.ofNat 64 i) :
    (⟨.quad, 1, r, none⟩ : Addr).eval s = BitVec.ofNat 64 (i + 1) := by
  simp only [Addr.eval, Width.trunc, hi]
  show 1#64 + _ + 0#64 = _
  rw [BitVec.add_zero, BitVec.add_comm, BitVec.ofNat_add]

/-- `-1(r)` for a register that holds a positive number. -/
theorem Addr.eval_pred (hi : s.reg r = BitVec.ofNat 64 i) (hpos : 1 ≤ i) :
    (⟨.quad, -1, r, none⟩ : Addr).eval s = BitVec.ofNat 64 (i - 1) := by
  simp only [Addr.eval, Width.trunc, hi]
  show -1#64 + _ + 0#64 = _
  rw [BitVec.add_zero, BitVec.add_comm, ← BitVec.sub_eq_add_neg]
  exact BitVec.ofNat_sub_ofNat_of_le _ _ (by norm_num) hpos

/-- `-1(r, r)` for a register that holds a positive number. -/
theorem Addr.eval_double_pred (hi : s.reg r = BitVec.ofNat 64 i) (hpos : 1 ≤ i) :
    (⟨.quad, -1, r, some (r, 1)⟩ : Addr).eval s = BitVec.ofNat 64 (i + i - 1) := by
  simp only [Addr.eval, Width.trunc, hi]
  show -1#64 + _ + _ * 1#64 = _
  rw [BitVec.mul_one, BitVec.add_assoc, BitVec.add_comm, ← BitVec.sub_eq_add_neg,
    ← BitVec.ofNat_add]
  exact BitVec.ofNat_sub_ofNat_of_le _ _ (by norm_num) (by omega)

theorem ofNat_lt_iff (hi : i < 2 ^ 64) (hj : j < 2 ^ 64) :
    BitVec.ofNat 64 i < BitVec.ofNat 64 j ↔ i < j := by
  rw [BitVec.ofNat_lt_ofNat, Nat.mod_eq_of_lt hi, Nat.mod_eq_of_lt hj]

theorem ofNat_shiftLeft (i j : ℕ) : BitVec.ofNat 64 i <<< j = BitVec.ofNat 64 (i <<< j) := by
  apply BitVec.eq_of_toNat_eq
  rw [BitVec.toNat_shiftLeft, BitVec.toNat_ofNat, BitVec.toNat_ofNat, Nat.shiftLeft_eq,
    Nat.shiftLeft_eq, Nat.mod_mul_mod]

/-- The comparison of two numbers. -/
theorem eval_cmp (hi : s.reg dst = BitVec.ofNat 64 i) (ho : o.read s = some (BitVec.ofNat 64 j))
    (hi₆₄ : i < 2 ^ 64) (hj₆₄ : j < 2 ^ 64) : ∃ zf, (Instr.alu .cmp .quad o dst).eval s =
      some (s.setFlags (some (decide (i < j))) zf) := by
  refine ⟨some (decide (BitVec.ofNat 64 i = BitVec.ofNat 64 j)), ?_⟩
  simp only [Instr.eval, ho, Option.map_some, AluOp.eval, Width.trunc_quad, hi,
    ofNat_lt_iff hi₆₄ hj₆₄]

/-- An instruction whose only effects are a number in its destination, and flags. -/
def Instr.Writes (instr : Instr) (s : State) (dst : Reg) (n : ℕ) : Prop :=
  ∃ cf zf, instr.eval s = some ((s.set .quad dst (BitVec.ofNat 64 n)).setFlags cf zf)

theorem mov_writes (dst : Reg) (ho : o.read s = some (BitVec.ofNat 64 i)) :
    (Instr.mov .quad o dst).Writes s dst i :=
  ⟨s.cf, s.zf, by rw [Instr.eval, ho]; rfl⟩

theorem lea_writes (dst : Reg) {a : Addr} (ha : a.eval s = BitVec.ofNat 64 i) :
    (Instr.lea .quad a dst).Writes s dst i :=
  ⟨s.cf, s.zf, by rw [Instr.eval, ha]; rfl⟩

theorem sub_writes (hi : s.reg dst = BitVec.ofNat 64 i) (ho : o.read s = some (BitVec.ofNat 64 j))
    (hij : j ≤ i) (hj : j < 2 ^ 64) : (Instr.alu .sub .quad o dst).Writes s dst (i - j) :=
  ⟨_, _, by
    rw [Instr.eval, ho, Option.map_some, Width.trunc_quad, Width.trunc_quad, hi, AluOp.eval,
      BitVec.ofNat_sub_ofNat_of_le _ _ hj hij]⟩

theorem and_writes (hi : s.reg dst = BitVec.ofNat 64 i)
    (ho : o.read s = some (BitVec.ofNat 64 j)) :
    (Instr.alu .and .quad o dst).Writes s dst (i &&& j) :=
  ⟨_, _, by
    rw [Instr.eval, ho, Option.map_some, Width.trunc_quad, Width.trunc_quad, hi, AluOp.eval,
      ← BitVec.ofNat_and]⟩

theorem or_writes (hi : s.reg dst = BitVec.ofNat 64 i)
    (ho : o.read s = some (BitVec.ofNat 64 j)) :
    (Instr.alu .or .quad o dst).Writes s dst (i ||| j) :=
  ⟨_, _, by
    rw [Instr.eval, ho, Option.map_some, Width.trunc_quad, Width.trunc_quad, hi, AluOp.eval,
      ← BitVec.ofNat_or]⟩

/-- A shift by less than the size of the register. -/
theorem shl_writes (hi : s.reg dst = BitVec.ofNat 64 i) (hj : s.reg .rcx = BitVec.ofNat 64 j)
    (hlt : j < 64) : (Instr.shl .quad dst).Writes s dst (i <<< j) := by
  have hcount : (s.reg .rcx).toNat % Width.quad.bits = j := by
    rw [hj, BitVec.toNat_ofNat, Width.bits]
    omega
  simp only [Instr.Writes, Instr.eval, hcount, Width.trunc_quad, hi]
  by_cases h : j = 0
  · subst h
    -- a shift by zero keeps the flags
    exact ⟨s.cf, s.zf, by rw [if_pos rfl]; rfl⟩
  · rw [if_neg h, ofNat_shiftLeft]
    exact ⟨_, _, rfl⟩

/-- The place of the highest bit of a positive number. -/
theorem bsr_writes (dst : Reg) {src : Reg} (hi : s.reg src = BitVec.ofNat 64 i) (hpos : 1 ≤ i)
    (hi₆₄ : i < 2 ^ 64) : (Instr.bsr .quad src dst).Writes s dst i.log2 := by
  have hnat : (BitVec.ofNat 64 i).toNat = i := by rw [BitVec.toNat_ofNat, Nat.mod_eq_of_lt hi₆₄]
  refine ⟨none, some false, ?_⟩
  simp only [Instr.eval, Width.trunc_quad, hi]
  -- for zero the destination would be undefined
  rw [if_neg fun h => ?_, hnat]
  rw [h] at hnat
  exact absurd hnat (by simp; omega)

/-- A run goes on behind such an instruction. -/
theorem Instr.Writes.runs {instr : Instr} {n : ℕ} (h : instr.Writes s dst n)
    (code : List Line) : ∃ s₁, (∀ pc s', Runs code (.op instr :: pc) s s' ↔ Runs code pc s₁ s') ∧
      s₁.reg dst = BitVec.ofNat 64 n ∧ Agree [dst] s s₁ := by
  obtain ⟨cf, zf, h⟩ := h
  exact ⟨_, fun pc s' => runs_op_of_eval h, State.set_reg_self ..,
    ((Agree.refl [dst] s).set (List.mem_singleton_self dst) _ _).setFlags _ _⟩

end Numbers

/-! ## Registers that hold 32-bit numbers -/

section Long

variable {s : State} {r r' dst : Reg} {o : Operand} {u v : BitVec 32}

@[simp] theorem trunc_setWidth (v : BitVec 32) : Width.long.trunc (v.setWidth 64) = v.setWidth 64 := by
  apply BitVec.eq_of_toNat_eq
  rw [Width.toNat_trunc_long, BitVec.toNat_setWidth]
  have := v.isLt
  omega

/-- The lower half of a register that holds a 32-bit number. -/
@[simp] theorem setWidth_setWidth (v : BitVec 32) : (v.setWidth 64).setWidth 32 = v :=
  (BitVec.setWidth_setWidth_of_le _ (by norm_num)).trans (BitVec.setWidth_eq v)

/-- `(r, r')`, seen by a 32-bit instruction. -/
theorem trunc_eval_index (w : Width) (hu : s.reg r = u.setWidth 64)
    (hv : s.reg r' = v.setWidth 64) :
    Width.long.trunc ((⟨w, 0, r, some (r', 1)⟩ : Addr).eval s) = (u + v).setWidth 64 := by
  have hsum : (0 + u.setWidth 64 + v.setWidth 64 * 1 : BitVec 64).toNat = u.toNat + v.toNat := by
    have := u.isLt
    have := v.isLt
    show (0#64 + _ + _ * 1#64).toNat = _
    rw [BitVec.zero_add, BitVec.mul_one, BitVec.toNat_add, BitVec.toNat_setWidth,
      BitVec.toNat_setWidth]
    omega
  apply BitVec.eq_of_toNat_eq
  cases w with
  | quad =>
    simp only [Addr.eval, Width.trunc_quad, hu, hv, Width.toNat_trunc_long, hsum,
      BitVec.toNat_setWidth, BitVec.toNat_add]
    omega
  | long =>
    simp only [Addr.eval, hu, hv, Width.toNat_trunc_long, hsum, BitVec.toNat_setWidth,
      BitVec.toNat_add]
    omega

/-- `1(r)`. -/
theorem trunc_eval_succ (hu : s.reg r = u.setWidth 64) :
    Width.long.trunc ((⟨.quad, 1, r, none⟩ : Addr).eval s) = (u + 1).setWidth 64 := by
  apply BitVec.eq_of_toNat_eq
  have := u.isLt
  simp only [Addr.eval, Width.trunc_quad, hu, Width.toNat_trunc_long]
  show (1#64 + _ + 0#64).toNat % _ = ((u + 1#32).setWidth 64).toNat
  rw [BitVec.add_zero, BitVec.toNat_add, BitVec.toNat_setWidth, BitVec.toNat_setWidth,
    BitVec.toNat_add, BitVec.toNat_ofNat, BitVec.toNat_ofNat]
  omega

/-- `1(r, r)`. -/
theorem trunc_eval_double_succ (hu : s.reg r = u.setWidth 64) :
    Width.long.trunc ((⟨.quad, 1, r, some (r, 1)⟩ : Addr).eval s) = (u + u + 1).setWidth 64 := by
  apply BitVec.eq_of_toNat_eq
  have := u.isLt
  simp only [Addr.eval, Width.trunc_quad, hu, Width.toNat_trunc_long]
  show (1#64 + _ + _ * 1#64).toNat % _ = ((u + u + 1#32).setWidth 64).toNat
  rw [BitVec.mul_one, BitVec.toNat_add, BitVec.toNat_add, BitVec.toNat_setWidth,
    BitVec.toNat_setWidth, BitVec.toNat_add, BitVec.toNat_add, BitVec.toNat_ofNat,
    BitVec.toNat_ofNat]
  omega

theorem setWidth_lt_iff : u.setWidth 64 < v.setWidth 64 ↔ u < v := by
  rw [BitVec.lt_def, BitVec.lt_def, BitVec.toNat_setWidth, BitVec.toNat_setWidth]
  have := u.isLt
  have := v.isLt
  omega

/-- A 32-bit address calculation. -/
theorem eval_leal (dst : Reg) {a : Addr} (ha : Width.long.trunc (a.eval s) = v.setWidth 64) :
    (Instr.lea .long a dst).eval s = some (s.set .long dst (v.setWidth 64)) := by
  rw [Instr.eval, Option.some_inj, State.set, State.set, ha, trunc_setWidth]

/-- `shr dst`, by one. -/
theorem eval_shrl (hu : s.reg dst = u.setWidth 64) : ∃ cf zf, (Instr.shr .long dst).eval s =
    some ((s.set .long dst ((u >>> 1).setWidth 64)).setFlags cf zf) := by
  have hshift : (u.setWidth 64 : BitVec 64) >>> 1 = (u >>> 1).setWidth 64 := by
    apply BitVec.eq_of_toNat_eq
    have := u.isLt
    rw [BitVec.toNat_ushiftRight, BitVec.toNat_setWidth, BitVec.toNat_setWidth,
      BitVec.toNat_ushiftRight, Nat.shiftRight_eq_div_pow]
    omega
  simp only [Instr.eval, hu, trunc_setWidth, hshift]
  exact ⟨_, _, rfl⟩

/-- `cmovl src, dst`. -/
theorem eval_cmovl {c : Cond} {h : Bool} (hc : c.holds s = some h) (hu : s.reg r = u.setWidth 64)
    (hv : s.reg dst = v.setWidth 64) : (Instr.cmov c .long r dst).eval s =
      some (s.set .long dst ((if h then u else v).setWidth 64)) := by
  simp only [Instr.eval, hc, Option.map_some, hu, hv]
  cases h <;> rfl

/-- `cmpl src, dst`. -/
theorem eval_cmpl (hu : s.reg dst = u.setWidth 64) (hv : s.reg r = v.setWidth 64) :
    ∃ zf, (Instr.alu .cmp .long (.reg r) dst).eval s =
      some (s.setFlags (some (decide (u < v))) zf) := by
  refine ⟨some (decide (u.setWidth 64 = v.setWidth 64)), ?_⟩
  simp only [Instr.eval, Operand.read, Option.map_some, AluOp.eval, hu, hv, trunc_setWidth,
    setWidth_lt_iff]

end Long

/-! ## Loops that test at their end -/

section Loops

variable {σ ρ : Type*}

/-- `while (test(x)) x = body(x);` and what follows, for at most `fuel` rounds.  The body may also
return a result. -/
def whileDo (test : σ → Prop) [DecidablePred test] (body : σ → Option (σ ⊕ ρ)) (finish : σ → ρ) :
    ℕ → σ → Option ρ
  | 0, _ => none
  | fuel + 1, x =>
    if test x then
      (body x).bind fun
        | .inl y => whileDo test body finish fuel y
        | .inr r => some r
    else some (finish x)

/-- The lines `loop` of a block go through a loop that tests at its end, before the lines `rest`.
`R s x` relates states to the variables of the loop. -/
structure DoWhile (block loop rest : List Line) (R : State → σ → Prop) (test : σ → Prop)
    [DecidablePred test] (body : σ → Option (σ ⊕ ρ)) (finish : σ → ρ) (out : State → ρ) :
    Prop where
  step : ∀ s x, R s x → test x → (∃ r, body x = some (.inr r)) ∨ ∃ y, body x = some (.inl y) ∧
    ∃ s₁ k, 0 < k ∧ R s₁ y ∧
      ∀ fuel, exec block (fuel + k) loop s = exec block fuel (if test y then loop else rest) s₁
  stop : ∀ s x r, R s x → test x → body x = some (.inr r) →
    ∃ s', Runs block loop s s' ∧ out s' = r
  finish : ∀ s x, R s x → ¬ test x → ∃ s', Runs block rest s s' ∧ out s' = finish x

variable {block loop rest : List Line} {R : State → σ → Prop} {test : σ → Prop}
  [DecidablePred test] {body : σ → Option (σ ⊕ ρ)} {finish : σ → ρ} {out : State → ρ}

/-- When the test holds at the beginning, such a loop has the results of the `while` loop. -/
theorem DoWhile.runs_iff (h : DoWhile block loop rest R test body finish out) {s : State} {x : σ}
    (hR : R s x) (htest : test x) (r : ρ) :
    (∃ s', Runs block loop s s' ∧ r = out s') ↔ ∃ fuel, whileDo test body finish fuel x = some r := by
  constructor
  · rintro ⟨s', ⟨fuel, hrun⟩, rfl⟩
    -- each round takes at least one line
    induction fuel using Nat.strong_induction_on generalizing s x with
    | _ fuel ih =>
      rcases h.step s x hR htest with ⟨r, hr⟩ | ⟨y, hy, s₁, k, hk, hR₁, hexec⟩
      · obtain ⟨s'', hrun'', hout⟩ := h.stop s x r hR htest hr
        refine ⟨1, ?_⟩
        rw [Runs.unique ⟨fuel, hrun⟩ hrun'', hout, whileDo, if_pos htest, hr]
        rfl
      · have hfuel : k < fuel := by
          by_contra hle
          have hlong := exec_mono (show fuel ≤ 0 + k by omega) hrun
          rw [hexec] at hlong
          cases hlong
        obtain ⟨f, rfl⟩ : ∃ f, fuel = f + k := ⟨fuel - k, by omega⟩
        rw [hexec] at hrun
        -- the test at the end of a round is that in front of the next one
        by_cases hty : test y
        · rw [if_pos hty] at hrun
          obtain ⟨n, hn⟩ := ih f (by omega) hR₁ hty hrun
          exact ⟨n + 1, by rw [whileDo, if_pos htest, hy]; exact hn⟩
        · rw [if_neg hty] at hrun
          obtain ⟨s'', hrun'', hout⟩ := h.finish s₁ y hR₁ hty
          refine ⟨2, ?_⟩
          rw [whileDo, if_pos htest, hy, Runs.unique ⟨f, hrun⟩ hrun'', hout]
          show whileDo test body finish 1 y = _
          rw [whileDo, if_neg hty]
  · rintro ⟨fuel, hloop⟩
    -- by induction on the rounds
    induction fuel generalizing s x with
    | zero => cases hloop
    | succ fuel ih =>
      rw [whileDo, if_pos htest] at hloop
      rcases h.step s x hR htest with ⟨r', hr⟩ | ⟨y, hy, s₁, k, hk, hR₁, hexec⟩
      · obtain ⟨s', hrun, hout⟩ := h.stop s x r' hR htest hr
        rw [hr] at hloop
        exact ⟨s', hrun, (Option.some_inj.mp hloop).symm.trans hout.symm⟩
      · rw [hy] at hloop
        have hnext : whileDo test body finish fuel y = some r := hloop
        by_cases hty : test y
        · obtain ⟨s', ⟨f, hrun⟩, hout⟩ := ih hR₁ hty hnext
          exact ⟨s', ⟨f + k, by rw [hexec, if_pos hty]; exact hrun⟩, hout⟩
        · obtain ⟨s', ⟨f, hrun⟩, hout⟩ := h.finish s₁ y hR₁ hty
          refine ⟨s', ⟨f + k, by rw [hexec, if_neg hty]; exact hrun⟩, ?_⟩
          cases fuel with
          | zero => cases hnext
          | succ fuel =>
            rw [whileDo, if_neg hty, Option.some_inj] at hnext
            rw [hout, hnext]

end Loops

end StringSampleSort.Library.X86
