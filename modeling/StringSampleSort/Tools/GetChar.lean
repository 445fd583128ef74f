import StringSampleSort.Tools.KeyPacking

/-!
# Reading a key with one load

Model of `get_char<uint64_t>` of `src/tools/stringtools.hpp`, which loads eight bytes at once,
swaps them, and masks off what lies behind a terminator.

## Main results

- `cutBytes_memBytes`: up to the terminator, the bytes in memory are the window of the string
- `isKey_getChar`: for a string of at least `depth` characters the key is that of its window
-/

namespace StringSampleSort

open Library

/-! ## Model -/

/-- `__builtin_bswap64(*(uint64_t*)(str + depth))`: the byte at the lowest address becomes the
highest one. -/
def loadSwapped (mem : ℕ → CharType) (addr : ℕ) : KeyType :=
  BitVec.ofNat 64 (packBE 256 ((List.range 8).map fun k => (mem (addr + k)).toNat))

/-- `get_char<uint64_t>(str, depth)`. -/
def getChar (mem : ℕ → CharType) (str depth : ℕ) : KeyType :=
  let v := loadSwapped mem (str + depth)
  if v &&& 0xFF00000000000000#64 = 0 then 0
  else if v &&& 0x00FF000000000000#64 = 0 then v &&& 0xFFFF000000000000#64
  else if v &&& 0x0000FF0000000000#64 = 0 then v &&& 0xFFFFFF0000000000#64
  else if v &&& 0x000000FF00000000#64 = 0 then v &&& 0xFFFFFFFF00000000#64
  else if v &&& 0x00000000FF000000#64 = 0 then v &&& 0xFFFFFFFFFF000000#64
  else if v &&& 0x0000000000FF0000#64 = 0 then v &&& 0xFFFFFFFFFFFF0000#64
  else if v &&& 0x000000000000FF00#64 = 0 then v &&& 0xFFFFFFFFFFFFFF00#64
  else v

/-! ## The bytes behind a string -/

/-- The `n` bytes from an address on. -/
def memBytes (mem : ℕ → CharType) (addr n : ℕ) : List ℕ :=
  (List.range n).map fun k => (mem (addr + k)).toNat

theorem memBytes_succ (mem : ℕ → CharType) (addr n : ℕ) :
    memBytes mem addr (n + 1) = (mem addr).toNat :: memBytes mem (addr + 1) n := by
  rw [memBytes, List.range_succ_eq_map, List.map_cons, List.map_map]
  refine congrArg _ (List.map_congr_left fun k _ => ?_)
  simp only [Function.comp_apply, Nat.succ_eq_add_one, Nat.add_assoc, Nat.add_comm 1]

@[simp] theorem length_memBytes (mem : ℕ → CharType) (addr n : ℕ) :
    (memBytes mem addr n).length = n := by simp [memBytes]

theorem digits_memBytes (mem : ℕ → CharType) (addr n : ℕ) : Digits 256 (memBytes mem addr n) := by
  intro b hb
  obtain ⟨k, -, rfl⟩ := List.mem_map.mp hb
  exact (mem (addr + k)).isLt

theorem window_nil (n : ℕ) : window n [] = List.replicate n 0 := by
  induction n with
  | zero => rfl
  | succ n ih => rw [window, ih, List.replicate_succ]

/-- Up to the terminator, the bytes in memory are the window of the string. -/
theorem cutBytes_memBytes {mem : ℕ → CharType} (s : CString mem) (n : ℕ) {depth : ℕ}
    (hd : depth ≤ s.len) :
    cutBytes (memBytes mem (s.ptr + depth) n) =
      window n (((UCharStringSet mem).chars s).drop depth) := by
  induction n generalizing depth with
  | zero => rfl
  | succ n ih =>
    rw [memBytes_succ, cutBytes]
    rcases Nat.eq_or_lt_of_le hd with rfl | hlt
    · -- the terminator hides whatever lies behind it
      rw [s.nul, if_pos (show (0 : CharType).toNat = 0 from rfl), length_memBytes,
        (UCharStringSet mem).drop_chars_nil s (show s.len ≤ s.len from le_refl _), window_nil,
        List.replicate_succ]
    · have hne : (mem (s.ptr + depth)).toNat ≠ 0 := fun h =>
        s.notNul depth hlt (BitVec.eq_of_toNat_eq h)
      rw [if_neg hne, StringSet.drop_chars_cons _ s hlt, window, Nat.add_assoc, ih hlt]
      rfl

/-! ## The key of a window -/

/-- The tests and masks of the source, one for each byte but the last. -/
theorem getChar_eq_maskBehindZero (mem : ℕ → CharType) (str depth : ℕ) :
    getChar mem str depth = maskBehindZero 8 (loadSwapped mem (str + depth)) 7 0 := by
  rw [getChar]
  by_cases h : loadSwapped mem (str + depth) &&& 0xFF00000000000000#64 = 0
  · -- an empty rest gives the key zero, which is what its mask leaves
    rw [if_pos h]
    exact h.symm.trans (if_pos h).symm
  · rw [if_neg h]
    exact (if_neg h).symm

theorem wordBytes_loadSwapped (mem : ℕ → CharType) (addr : ℕ) :
    WordBytes 8 (loadSwapped mem addr) (memBytes mem addr 8) := by
  have hlt := packBE_lt (digits_memBytes mem addr 8)
  rw [length_memBytes] at hlt
  refine ⟨rfl, length_memBytes .., digits_memBytes mem addr 8, ?_⟩
  rw [loadSwapped, BitVec.toNat_ofNat]
  exact Nat.mod_eq_of_lt (hlt.trans_eq (by norm_num))

/-- The key of a string with at least `depth` characters stands for its window. -/
theorem isKey_getChar {mem : ℕ → CharType} (s : CString mem) {depth : ℕ} (hd : depth ≤ s.len) :
    IsKey (getChar mem s.ptr depth)
      (window 8 (((UCharStringSet mem).chars s).drop depth)) := by
  rw [isKey_iff, getChar_eq_maskBehindZero, ← cutBytes_memBytes s 8 hd]
  exact (wordBytes_loadSwapped mem (s.ptr + depth)).maskBehindZero rfl (by simp)

end StringSampleSort
