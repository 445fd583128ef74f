import StringSampleSort.Tools.TreeCalculations
import Mathlib.Tactic.Linarith

/-!
# Tree indices in machine words

`TreeCalculations` of `src/tools/stringtools.hpp` with the arithmetic of its types: `treebits` is a
`size_t`, the counts of zero bits are `int`s, and the indices are `unsigned int`s.  A shift has no
result when its count is negative or too large for the type, or when a signed result is not
representable.

## Main results

- `levelToPreorderWord_eq`, `preToLevelorderWord_eq`: no shift goes out of range, and the results
  are those of unbounded arithmetic
- `levelToPreorder_between`: a node lies between its subtrees
- `treeIndex_bijections`: both transformations are inverse to each other and follow the in-order
-/

namespace StringSampleSort

open Library

namespace TreeCalculations

/-! ## Model -/

/-- `id << count`. -/
def shiftLeftUnsigned (id : BitVec 32) (count : ℤ) : Option (BitVec 32) :=
  if 0 ≤ count ∧ count < 32 then some (id <<< count.toNat) else none

/-- `id >> count`. -/
def shiftRightUnsigned (id : BitVec 32) (count : ℤ) : Option (BitVec 32) :=
  if 0 ≤ count ∧ count < 32 then some (id >>> count.toNat) else none

/-- `1 << count`, which is an `int`. -/
def shiftOne (count : ℤ) : Option (BitVec 32) :=
  if 0 ≤ count ∧ count < 31 then some (1#32 <<< count.toNat) else none

/-- `static const int bitmask = numnodes`, with `numnodes = (1 << treebits) - 1`. -/
def bitmask (treebits : ℕ) : Option (BitVec 32) := (shiftOne treebits).map (· - 1#32)

/-- `int hi = treebits - 32 + count_high_zero_bits<uint32_t>(id);`, where the sum is a `size_t`. -/
def hiInt (treebits : ℕ) (id : BitVec 32) : ℤ :=
  ((BitVec.ofNat 64 treebits - 32#64 +
    BitVec.ofNat 64 (countHighZeroBits32 id.toNat)).setWidth 32).toInt

/-- `level_to_preorder(id)`. -/
def levelToPreorderWord (treebits : ℕ) (id : BitVec 32) : Option (BitVec 32) :=
  if id = 0 then none
  else
    let hi := hiInt treebits id
    (bitmask treebits).bind fun bitmask => (shiftLeftUnsigned id (hi + 1)).bind fun shifted =>
      (shiftOne hi).map fun one => (shifted &&& bitmask) ||| one

/-- `pre_to_levelorder(id)`.  `treebits - lo` is a `size_t`. -/
def preToLevelorderWord (treebits : ℕ) (id : BitVec 32) : Option (BitVec 32) :=
  if id = 0 then none
  else
    let lo : ℤ := countLowZeroBits32 id.toNat + 1
    (bitmask treebits).bind fun bitmask => (shiftRightUnsigned id lo).bind fun shifted =>
      (shiftOne (BitVec.ofNat 64 treebits - BitVec.ofInt 64 lo).toNat).map fun one =>
        (shifted &&& bitmask) ||| one

/-- A number from 1 to `numnodes`. -/
def IsNode (treebits : ℕ) (id : BitVec 32) : Prop := 1 ≤ id.toNat ∧ id.toNat ≤ numnodes treebits

instance (treebits : ℕ) (id : BitVec 32) : Decidable (IsNode treebits id) :=
  inferInstanceAs (Decidable (_ ∧ _))

/-! ## No shift goes out of range -/

section Words

variable {treebits : ℕ} {id : BitVec 32}

theorem isNode_iff : IsNode treebits id ↔ 1 ≤ id.toNat ∧ id.toNat < 2 ^ treebits := by
  have := Nat.two_pow_pos treebits
  rw [IsNode, numnodes_eq]
  omega

/-- `1 << count` as a number. -/
theorem shiftOne_eq {count : ℕ} (h : count < 31) :
    shiftOne count = some (BitVec.ofNat 32 (1 <<< count)) := by
  rw [shiftOne, if_pos ⟨by omega, by omega⟩, Int.toNat_natCast, Option.some_inj]
  apply BitVec.eq_of_toNat_eq
  rw [BitVec.toNat_shiftLeft, BitVec.toNat_ofNat, BitVec.toNat_ofNat]

theorem bitmask_eq (ht : treebits ≤ 30) :
    bitmask treebits = some (BitVec.ofNat 32 (numnodes treebits)) := by
  rw [bitmask, shiftOne_eq (by omega), Option.map_some, Option.some_inj]
  have hpow : 2 ^ treebits ≤ 2 ^ 30 := Nat.pow_le_pow_right (by omega) ht
  have hpos := Nat.two_pow_pos treebits
  apply BitVec.eq_of_toNat_eq
  rw [numnodes_eq, Nat.one_shiftLeft, BitVec.toNat_sub, BitVec.toNat_ofNat, BitVec.toNat_ofNat,
    BitVec.toNat_ofNat]
  omega

/-- The sum does not leave the range of an `int`. -/
theorem hiInt_eq {d : ℕ} (ht : treebits ≤ 30) (hd : d < treebits) (hid : id.toNat.log2 = d)
    (h0 : id.toNat ≠ 0) : hiInt treebits id = ((treebits - 1 - d : ℕ) : ℤ) := by
  have hz : countHighZeroBits32 id.toNat = 31 - d := by
    rw [countHighZeroBits32, leadingZeros, if_neg h0, hid]
  have hsum : (BitVec.ofNat 64 treebits - 32#64 + BitVec.ofNat 64 (31 - d)).setWidth 32 =
      BitVec.ofNat 32 (treebits - 1 - d) := by
    apply BitVec.eq_of_toNat_eq
    simp only [BitVec.toNat_setWidth, BitVec.toNat_add, BitVec.toNat_sub, BitVec.toNat_ofNat]
    omega
  rw [hiInt, hz, hsum, BitVec.toInt_eq_toNat_of_lt, BitVec.toNat_ofNat, Nat.mod_eq_of_lt]
  · omega
  · rw [BitVec.toNat_ofNat]
    omega

/-- `level_to_preorder` computes what it computes without overflow. -/
theorem levelToPreorderWord_eq (ht : treebits ≤ 30) (hid : IsNode treebits id) :
    levelToPreorderWord treebits id =
      (levelToPreorder treebits id.toNat).map (BitVec.ofNat 32) := by
  obtain ⟨hpos, hlt⟩ := isNode_iff.mp hid
  obtain ⟨d, x, hd, hx, hnode⟩ := exists_level hpos hlt
  have h0 : id.toNat ≠ 0 := Nat.one_le_iff_ne_zero.mp hpos
  have hlog : id.toNat.log2 = d :=
    (Nat.log2_eq_iff h0).mpr ⟨by omega, by rw [pow_succ]; omega⟩
  have hne : id ≠ 0 := fun h => h0 (by rw [h]; rfl)
  have hhi : treebits + countHighZeroBits32 id.toNat - 32 = treebits - 1 - d := by
    rw [countHighZeroBits32, leadingZeros, if_neg h0, hlog]
    omega
  rw [levelToPreorderWord, if_neg hne, levelToPreorder, if_neg h0]
  simp only [hhi, hiInt_eq ht hd hlog h0, bitmask_eq ht, shiftOne_eq (show treebits - 1 - d < 31 by
    omega), shiftLeftUnsigned]
  rw [if_pos ⟨by omega, by omega⟩]
  simp only [Option.bind_some, Option.map_some, Option.some_inj]
  apply BitVec.eq_of_toNat_eq
  -- what the shift pushes out of the word is cut off on both sides
  rw [BitVec.toNat_or, BitVec.toNat_and, BitVec.toNat_shiftLeft]
  simp only [BitVec.toNat_ofNat, Nat.or_mod_two_pow, Nat.and_mod_two_pow]
  congr 3

/-- `pre_to_levelorder` computes what it computes without overflow. -/
theorem preToLevelorderWord_eq (ht : treebits ≤ 30) (hid : IsNode treebits id) :
    preToLevelorderWord treebits id =
      (preToLevelorder treebits id.toNat).map (BitVec.ofNat 32) := by
  obtain ⟨hpos, hlt⟩ := isNode_iff.mp hid
  obtain ⟨d, x, hd, hx, hnode⟩ := exists_odd hpos hlt
  have h0 : id.toNat ≠ 0 := Nat.one_le_iff_ne_zero.mp hpos
  have hne : id ≠ 0 := fun h => h0 (by rw [h]; rfl)
  have hlo : countLowZeroBits32 id.toNat = treebits - 1 - d := by
    rw [hnode]
    exact trailingZeros_mul_two_pow (by omega) (by omega)
  have hcount : (BitVec.ofNat 64 treebits -
      BitVec.ofInt 64 (((treebits - 1 - d : ℕ) : ℤ) + 1)).toNat = d := by
    have hcast : ((treebits - 1 - d : ℕ) : ℤ) + 1 = ((treebits - d : ℕ) : ℤ) := by omega
    rw [hcast, BitVec.ofInt_natCast, BitVec.toNat_sub, BitVec.toNat_ofNat, BitVec.toNat_ofNat]
    omega
  rw [preToLevelorderWord, if_neg hne, preToLevelorder, if_neg h0]
  simp only [hlo, hcount, bitmask_eq ht, shiftOne_eq (show d < 31 by omega), shiftRightUnsigned]
  rw [if_pos ⟨by omega, by omega⟩]
  simp only [Option.bind_some, Option.map_some, Option.some_inj]
  apply BitVec.eq_of_toNat_eq
  rw [BitVec.toNat_or, BitVec.toNat_and, BitVec.toNat_ushiftRight]
  have hshift : id.toNat >>> (treebits - 1 - d + 1) < 2 ^ 32 :=
    (Nat.shiftRight_le ..).trans_lt id.isLt
  simp only [BitVec.toNat_ofNat, Nat.or_mod_two_pow, Nat.and_mod_two_pow,
    Nat.mod_eq_of_lt hshift]
  congr 3
  omega

end Words

/-! ## Inverse to each other -/

section Inverse

variable {treebits : ℕ} {id : BitVec 32}

/-- The place of a node, and back. -/
theorem levelToPreorderWord_inverse (ht : treebits ≤ 30) (hid : IsNode treebits id) :
    ∃ pos, levelToPreorderWord treebits id = some pos ∧ IsNode treebits pos ∧
      preToLevelorderWord treebits pos = some id := by
  obtain ⟨hpos, hlt⟩ := isNode_iff.mp hid
  obtain ⟨d, x, hd, hx, hnode⟩ := exists_level hpos hlt
  have hvalue := levelToPreorder_eq (by omega) hd hx
  obtain ⟨pos, hpos', h1, h2, -⟩ := inorder_levelToPreorder (by omega) (fun i => i) hpos hlt
  have hpow : 2 ^ treebits ≤ 2 ^ 32 := Nat.pow_le_pow_right (by omega) (by omega)
  have hword : (BitVec.ofNat 32 pos).toNat = pos := by
    rw [BitVec.toNat_ofNat, Nat.mod_eq_of_lt (h2.trans_le hpow)]
  have hposNode : IsNode treebits (BitVec.ofNat 32 pos) := by
    rw [isNode_iff, hword]
    exact ⟨h1, h2⟩
  refine ⟨BitVec.ofNat 32 pos, ?_, hposNode, ?_⟩
  · rw [levelToPreorderWord_eq ht hid, hpos', Option.map_some]
  · rw [hnode, hvalue, Option.some_inj] at hpos'
    rw [preToLevelorderWord_eq ht hposNode, hword, ← hpos', preToLevelorder_eq (by omega) hd hx,
      Option.map_some, ← hnode, BitVec.ofNat_toNat, BitVec.setWidth_eq]

/-- The node at a place, and back. -/
theorem preToLevelorderWord_inverse (ht : treebits ≤ 30) (hid : IsNode treebits id) :
    ∃ node, preToLevelorderWord treebits id = some node ∧ IsNode treebits node ∧
      levelToPreorderWord treebits node = some id := by
  obtain ⟨hpos, hlt⟩ := isNode_iff.mp hid
  obtain ⟨d, x, hd, hx, hodd⟩ := exists_odd hpos hlt
  have hpow : 2 ^ treebits ≤ 2 ^ 32 := Nat.pow_le_pow_right (by omega) (by omega)
  have hlevel : 2 ^ d + x < 2 ^ treebits := by
    have : 2 ^ (d + 1) ≤ 2 ^ treebits := Nat.pow_le_pow_right (by omega) hd
    rw [pow_succ] at this
    omega
  have hword : (BitVec.ofNat 32 (2 ^ d + x)).toNat = 2 ^ d + x := by
    rw [BitVec.toNat_ofNat, Nat.mod_eq_of_lt (hlevel.trans_le hpow)]
  have hnode : IsNode treebits (BitVec.ofNat 32 (2 ^ d + x)) := by
    have := Nat.two_pow_pos d
    exact isNode_iff.mpr (by rw [hword]; exact ⟨by omega, hlevel⟩)
  refine ⟨BitVec.ofNat 32 (2 ^ d + x), ?_, hnode, ?_⟩
  · rw [preToLevelorderWord_eq ht hid, hodd, preToLevelorder_eq (by omega) hd hx, Option.map_some]
  · rw [levelToPreorderWord_eq ht hnode, hword, levelToPreorder_eq (by omega) hd hx,
      Option.map_some, ← hodd, BitVec.ofNat_toNat, BitVec.setWidth_eq]

end Inverse

/-! ## The in-order -/

section InOrder

variable {treebits d x k c z : ℕ}

/-- The place of a node `k` levels below the child `c` of the `x`-th node of a level. -/
theorem levelToPreorder_below (ht : treebits ≤ 32) (hx : x < 2 ^ d) (hz : z < 2 ^ k) (hc : c ≤ 1)
    (hlevel : d + 1 + k < treebits) :
    levelToPreorder treebits ((2 * (2 ^ d + x) + c) * 2 ^ k + z) =
      some ((2 * ((2 * x + c) * 2 ^ k + z) + 1) * 2 ^ (treebits - 1 - (d + 1 + k))) := by
  have hlt : (2 * x + c) * 2 ^ k + z < 2 ^ (d + 1 + k) := by
    have hle : (2 * x + c + 1) * 2 ^ k ≤ 2 ^ (d + 1) * 2 ^ k :=
      Nat.mul_le_mul_right _ (by rw [pow_succ]; omega)
    rw [← pow_add, Nat.add_mul _ 1, one_mul] at hle
    omega
  rw [← levelToPreorder_eq ht hlevel hlt]
  congr 1
  rw [pow_add, pow_succ]
  ring

/-- A node lies behind its left and in front of its right subtree. -/
theorem levelToPreorder_between (ht : treebits ≤ 32) {id j p q : ℕ} (hid : 1 ≤ id)
    (hj : j < 2 ^ treebits) (hp : levelToPreorder treebits id = some p)
    (hq : levelToPreorder treebits j = some q) :
    (j / 2 ^ k = 2 * id → q < p) ∧ (j / 2 ^ k = 2 * id + 1 → p < q) := by
  -- where both nodes lie, when `j` is `k` levels below the child `c` of `id`
  have hplaces : ∀ c ≤ 1, j / 2 ^ k = 2 * id + c → ∃ x z e, z < 2 ^ k ∧
      p = (2 * x + 1) * 2 ^ (k + 1) * 2 ^ e ∧ q = (2 * ((2 * x + c) * 2 ^ k + z) + 1) * 2 ^ e := by
    intro c hc hdiv
    have hsplit := Nat.div_add_mod j (2 ^ k)
    rw [hdiv, mul_comm] at hsplit
    have hidlt : id < 2 ^ treebits := by
      have := Nat.le_mul_of_pos_right (2 * id + c) (Nat.two_pow_pos k)
      omega
    obtain ⟨d, x, hd, hx, rfl⟩ := exists_level hid hidlt
    have hlevel : d + 1 + k < treebits := by
      rw [← Nat.pow_lt_pow_iff_right (show 1 < 2 by norm_num)]
      refine lt_of_le_of_lt ?_ hj
      calc 2 ^ (d + 1 + k) = 2 * 2 ^ d * 2 ^ k := by rw [pow_add, pow_succ]; ring
        _ ≤ (2 * (2 ^ d + x) + c) * 2 ^ k := Nat.mul_le_mul_right _ (by omega)
        _ ≤ j := by omega
    have hz := Nat.mod_lt j (Nat.two_pow_pos k)
    rw [levelToPreorder_eq ht hd hx, Option.some_inj] at hp
    rw [← hsplit, levelToPreorder_below ht hx hz hc hlevel, Option.some_inj] at hq
    refine ⟨x, j % 2 ^ k, treebits - 1 - (d + 1 + k), hz, ?_, hq.symm⟩
    rw [← hp, mul_assoc, ← pow_add]
    congr 2
    omega
  constructor
  · intro hdiv
    obtain ⟨x, z, e, hz, rfl, rfl⟩ := hplaces 0 (Nat.zero_le 1) hdiv
    apply Nat.mul_lt_mul_of_pos_right _ (Nat.two_pow_pos e)
    rw [pow_succ]
    linarith [show (2 * x + 1) * (2 ^ k * 2) = 2 * ((2 * x + 0) * 2 ^ k) + 2 * 2 ^ k by ring]
  · intro hdiv
    obtain ⟨x, z, e, -, rfl, rfl⟩ := hplaces 1 (le_refl 1) hdiv
    apply Nat.mul_lt_mul_of_pos_right _ (Nat.two_pow_pos e)
    rw [pow_succ]
    linarith [show (2 * x + 1) * (2 ^ k * 2) = 2 * ((2 * x + 1) * 2 ^ k) by ring]

end InOrder

/-- `level_to_preorder` and `pre_to_levelorder` are inverse to each other on the nodes, and
`level_to_preorder` gives the rank of a node in the in-order, behind all nodes of its left subtree
and in front of all nodes of its right subtree. -/
theorem treeIndex_bijections (treebits : ℕ) (h1 : 1 ≤ treebits) (h30 : treebits ≤ 30) :
    (∀ id, IsNode treebits id → ∃ pos, levelToPreorderWord treebits id = some pos ∧
      IsNode treebits pos ∧ preToLevelorderWord treebits pos = some id) ∧
    (∀ pos, IsNode treebits pos → ∃ id, preToLevelorderWord treebits pos = some id ∧
      IsNode treebits id ∧ levelToPreorderWord treebits id = some pos) ∧
    ∀ id pos, IsNode treebits id → levelToPreorderWord treebits id = some pos →
      (inorder (fun i => i) treebits 1)[pos.toNat - 1]? = some id.toNat ∧
      ∀ j pos', IsNode treebits j → levelToPreorderWord treebits j = some pos' →
        (InSubtree treebits (2 * id.toNat) j.toNat → pos' < pos) ∧
        (InSubtree treebits (2 * id.toNat + 1) j.toNat → pos < pos') := by
  refine ⟨fun id hid => levelToPreorderWord_inverse h30 hid,
    fun pos hpos => preToLevelorderWord_inverse h30 hpos, fun id pos hid hpos => ?_⟩
  -- a place in unbounded arithmetic
  have hplace : ∀ {j q}, IsNode treebits j → levelToPreorderWord treebits j = some q →
      levelToPreorder treebits j.toNat = some q.toNat ∧
        (inorder (fun i => i) treebits 1)[q.toNat - 1]? = some j.toNat := by
    intro j q hj hq
    obtain ⟨hjpos, hjlt⟩ := isNode_iff.mp hj
    obtain ⟨n, hn, -, hlt, hget⟩ := inorder_levelToPreorder (by omega) (fun i => i) hjpos hjlt
    rw [levelToPreorderWord_eq h30 hj, hn, Option.map_some, Option.some_inj] at hq
    have hpow : 2 ^ treebits ≤ 2 ^ 32 := Nat.pow_le_pow_right (by omega) (by omega)
    have hword : q.toNat = n := by
      rw [← hq, BitVec.toNat_ofNat, Nat.mod_eq_of_lt (hlt.trans_le hpow)]
    rw [hword]
    exact ⟨hn, hget⟩
  obtain ⟨hp, hget⟩ := hplace hid hpos
  refine ⟨hget, fun j pos' hj hpos' => ?_⟩
  obtain ⟨hq, -⟩ := hplace hj hpos'
  have hidpos := (isNode_iff.mp hid).1
  have hjlt := (isNode_iff.mp hj).2
  simp only [BitVec.lt_def]
  constructor
  · rintro ⟨k, -, hdiv⟩
    exact (levelToPreorder_between (by omega) hidpos hjlt hp hq).1 hdiv
  · rintro ⟨k, -, hdiv⟩
    exact (levelToPreorder_between (by omega) hidpos hjlt hp hq).2 hdiv

theorem treeIndex_bijections_three :
    (∀ id, IsNode 3 id → ∃ pos, levelToPreorderWord 3 id = some pos ∧
      IsNode 3 pos ∧ preToLevelorderWord 3 pos = some id) ∧ IsNode 3 2 ∧
      levelToPreorderWord 3 2 = some 2 ∧ levelToPreorderWord 3 7 = some 7 :=
  ⟨(treeIndex_bijections 3 (by decide) (by decide)).1, by decide, by decide, by decide⟩

end TreeCalculations

end StringSampleSort
