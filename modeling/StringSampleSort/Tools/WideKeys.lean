import StringSampleSort.Tools.StringOrder

/-!
# Keys of four, eight and sixteen characters

Model of `get_char` and `count_high_zero_bits` of `src/tools/stringtools.hpp` for the three key
types, and of the two ways in which `src/tools/stringset.hpp` extracts a key: character by
character, or with one load whose bytes are swapped and masked.

`__builtin_clz` and `__builtin_clzll` have no result for the word zero.

## Main results

- `wordBytes_getCharAs`: a key of every type stands for the window of the string
- `keyExtraction_eq`: both ways extract the same key, whatever lies behind the terminator
- `keyLcpExact_iff`: when the zero bits of a xor count the common characters
-/

namespace StringSampleSort

open Library

/-! ## Extracting keys -/

section Extract

variable (mem : ℕ → CharType)

/-- `__builtin_bswap32(*(uint32_t*)(str + depth))`: the byte at the lowest address becomes the
highest one. -/
def loadSwapped32 (addr : ℕ) : BitVec 32 := BitVec.ofNat 32 (packBE 256 (memBytes mem addr 4))

/-- `get_char<uint32_t>(str, depth)`. -/
def getCharUint32 (str depth : ℕ) : BitVec 32 :=
  let v := loadSwapped32 mem (str + depth)
  if v &&& 0xFF000000#32 = 0 then 0
  else if v &&& 0x00FF0000#32 = 0 then v &&& 0xFFFF0000#32
  else if v &&& 0x0000FF00#32 = 0 then v &&& 0xFFFFFF00#32
  else v

/-- `get_char_uint32_bswap32(str, depth)`. -/
def getCharUint32Bswap32 (str depth : ℕ) : BitVec 32 :=
  let v := loadSwapped32 mem (str + depth)
  if v &&& 0xFF000000#32 = 0 then 0
  else if v &&& 0x00FF0000#32 = 0 then v &&& 0xFFFF0000#32
  else if v &&& 0x0000FF00#32 = 0 then v &&& 0xFFFFFF00#32
  else v

/-- `get_char_uint64_bswap64(str, depth)`. -/
def getCharUint64Bswap64 (str depth : ℕ) : BitVec 64 :=
  let v := loadSwapped mem (str + depth)
  if v &&& 0xFF00000000000000#64 = 0 then 0
  else if v &&& 0x00FF000000000000#64 = 0 then v &&& 0xFFFF000000000000#64
  else if v &&& 0x0000FF0000000000#64 = 0 then v &&& 0xFFFFFF0000000000#64
  else if v &&& 0x000000FF00000000#64 = 0 then v &&& 0xFFFFFFFF00000000#64
  else if v &&& 0x00000000FF000000#64 = 0 then v &&& 0xFFFFFFFFFF000000#64
  else if v &&& 0x0000000000FF0000#64 = 0 then v &&& 0xFFFFFFFFFFFF0000#64
  else if v &&& 0x000000000000FF00#64 = 0 then v &&& 0xFFFFFFFFFFFFFF00#64
  else v

/-- `uint128_t(c) << 8 * k`.  The lower eight characters are shifted as `uint64_t`. -/
def charUint128 (k : ℕ) (c : CharType) : BitVec 128 :=
  if 8 ≤ k then c.setWidth 128 <<< (8 * k) else (c.setWidth 64 <<< (8 * k)).setWidth 128

/-- The rounds of `get_char<uint128_t>`, which the code unrolls.  The last one makes no test. -/
def getCharUint128Loop : ℕ → ℕ → BitVec 128 → BitVec 128
  | 0, i, v => v ||| charUint128 0 (mem i)
  | k + 1, i, v =>
    if mem i = 0 then v else getCharUint128Loop k (i + 1) (v ||| charUint128 (k + 1) (mem i))

/-- `get_char<uint128_t>(str, depth)`. -/
def getCharUint128 (str depth : ℕ) : BitVec 128 := getCharUint128Loop mem 15 (str + depth) 0

end Extract

/-- The value of `uint32_t(*i)`. -/
def charUint32 (signedChar : Bool) (c : CharType) : BitVec 32 :=
  if signedChar then c.signExtend 32 else c.setWidth 32

/-- The rounds of `get_char_uint32_simple`, which the code unrolls. -/
def getCharUint32Loop {S : Type} (ss : StringSet S) (s : S) : ℕ → ℕ → BitVec 32 → BitVec 32
  | 0, _, v => v
  | k + 1, i, v =>
    if ss.isEnd s i then v
    else getCharUint32Loop ss s k (i + 1)
      (v ||| charUint32 ss.signedChar (ss.deref i) <<< (8 * k))

/-- `get_char_uint32_simple(s, i)`. -/
def getCharUint32Simple {S : Type} (ss : StringSet S) (s : S) (i : ℕ) : BitVec 32 :=
  getCharUint32Loop ss s 4 i 0

/-! ## Counting zero bits -/

/-- `__builtin_clz` and `__builtin_clzll`. -/
def builtinClz {w : ℕ} (t : BitVec w) : Option ℕ :=
  if t = 0 then none else some (leadingZeros w t.toNat)

/-- The key types. -/
inductive KeyInt
  | uint32_t
  | uint64_t
  | uint128_t
  deriving DecidableEq, Repr

namespace KeyInt

/-- The number of bits. -/
def bits : KeyInt → ℕ
  | uint32_t => 32
  | uint64_t => 64
  | uint128_t => 128

/-- `sizeof(T)`. -/
def sizeof : KeyInt → ℕ
  | uint32_t => 4
  | uint64_t => 8
  | uint128_t => 16

/-- `get_char<T>(str, depth)`. -/
def getChar (mem : ℕ → CharType) (str depth : ℕ) : (T : KeyInt) → BitVec T.bits
  | uint32_t => getCharUint32 mem str depth
  | uint64_t => StringSampleSort.getChar mem str depth
  | uint128_t => getCharUint128 mem str depth

/-- `count_high_zero_bits<T>(t)`. -/
def countHighZeroBits : (T : KeyInt) → BitVec T.bits → Option ℕ
  | uint32_t, t => if t = 0 then some (sizeof uint32_t * 8) else builtinClz t
  | uint64_t, t => if t = 0 then some (sizeof uint64_t * 8) else builtinClz t
  | uint128_t, t =>
    if t = 0 then some (sizeof uint128_t * 8)
    else
      let hi : BitVec 64 := (t >>> 64).setWidth 64
      (builtinClz hi).bind fun b =>
        if b > 0 then some b else (builtinClz (t.setWidth 64 : BitVec 64)).map fun b => 64 + b

end KeyInt

/-! ## The bytes of a key -/

section Bytes

variable {mem : ℕ → CharType}

/-- The tests and masks of the source, one for each byte but the last. -/
theorem getCharUint32_eq_maskBehindZero (str depth : ℕ) :
    getCharUint32 mem str depth = maskBehindZero 4 (loadSwapped32 mem (str + depth)) 3 0 := by
  rw [getCharUint32]
  by_cases h : loadSwapped32 mem (str + depth) &&& 0xFF000000#32 = 0
  · rw [if_pos h]
    exact h.symm.trans (if_pos h).symm
  · rw [if_neg h]
    exact (if_neg h).symm

theorem wordBytes_loadSwapped32 (addr : ℕ) :
    WordBytes 4 (loadSwapped32 mem addr) (memBytes mem addr 4) := by
  have hlt := packBE_lt (digits_memBytes mem addr 4)
  rw [length_memBytes] at hlt
  refine ⟨rfl, length_memBytes .., digits_memBytes mem addr 4, ?_⟩
  rw [loadSwapped32, BitVec.toNat_ofNat]
  exact Nat.mod_eq_of_lt (hlt.trans_eq (by norm_num))

/-- A character that is shifted to byte `k` loses nothing. -/
theorem charUint128_eq {k : ℕ} (c : CharType) :
    charUint128 k c = BitVec.ofNat 128 c.toNat <<< (8 * k) := by
  have hc := c.isLt
  rw [charUint128, BitVec.ofNat_toNat]
  split
  · rfl
  · next hk =>
    -- the shift stays within the lower half
    have hlt : c.toNat * 2 ^ (8 * k) < 2 ^ 64 := by
      calc c.toNat * 2 ^ (8 * k) < 2 ^ 8 * 2 ^ (8 * k) :=
            Nat.mul_lt_mul_of_pos_right hc (Nat.two_pow_pos _)
        _ = 2 ^ (8 + 8 * k) := (pow_add ..).symm
        _ ≤ 2 ^ 64 := Nat.pow_le_pow_right (by omega) (by omega)
    apply BitVec.eq_of_toNat_eq
    simp only [BitVec.toNat_setWidth, BitVec.toNat_shiftLeft, Nat.shiftLeft_eq]
    rw [Nat.mod_eq_of_lt (show c.toNat < 2 ^ 64 by omega),
      Nat.mod_eq_of_lt (show c.toNat < 2 ^ 128 by omega), Nat.mod_eq_of_lt hlt]

theorem orBytes_window_nil (w n : ℕ) : orBytes w (window n []) = 0#w := by
  induction n with
  | zero => rfl
  | succ n ih =>
    rw [window, orBytes, ih]
    simp

/-- The rounds collect the window of the string. -/
theorem getCharUint128Loop_eq (s : CString mem) (k : ℕ) {depth : ℕ} (hd : depth ≤ s.len)
    (v : BitVec 128) :
    getCharUint128Loop mem k (s.ptr + depth) v =
      v ||| orBytes 128 (window (k + 1) (((UCharStringSet mem).chars s).drop depth)) := by
  induction k generalizing depth v with
  | zero =>
    rw [getCharUint128Loop, charUint128_eq]
    rcases Nat.eq_or_lt_of_le hd with rfl | hlt
    · rw [s.nul, (UCharStringSet mem).drop_chars_nil s (show s.len ≤ s.len from le_refl _)]
      rfl
    · rw [StringSet.drop_chars_cons _ s hlt]
      simp [window, orBytes]
      rfl
  | succ k ih =>
    rw [getCharUint128Loop]
    rcases Nat.eq_or_lt_of_le hd with rfl | hlt
    · rw [if_pos s.nul, (UCharStringSet mem).drop_chars_nil s (show s.len ≤ s.len from le_refl _),
        orBytes_window_nil, BitVec.or_zero]
    · rw [if_neg (s.notNul depth hlt), StringSet.drop_chars_cons _ s hlt, window, orBytes,
        length_window, Nat.add_assoc, ih hlt, charUint128_eq, BitVec.or_assoc]
      rfl

/-- The rounds collect the window of the string. -/
theorem getCharUint32Loop_eq (s : CString mem) (k : ℕ) {depth : ℕ} (hd : depth ≤ s.len)
    (v : BitVec 32) :
    getCharUint32Loop (UCharStringSet mem) s k ((UCharStringSet mem).getChars s depth) v =
      v ||| orBytes 32 (window k (((UCharStringSet mem).chars s).drop depth)) := by
  have hlawful := (UCharStringSet.sortable mem).lawful
  induction k generalizing depth v with
  | zero => simp [getCharUint32Loop, window, orBytes]
  | succ k ih =>
    rw [getCharUint32Loop]
    rcases Nat.eq_or_lt_of_le hd with rfl | hlt
    · rw [if_pos ((hlawful.isEnd_iff s s.len (le_refl _)).mpr rfl),
        (UCharStringSet mem).drop_chars_nil s (show s.len ≤ s.len from le_refl _),
        orBytes_window_nil, BitVec.or_zero]
    · have hend : ¬ (UCharStringSet mem).isEnd s ((UCharStringSet mem).getChars s depth) = true :=
        fun h => hlt.ne ((hlawful.isEnd_iff s depth hd).mp h)
      rw [if_neg hend, StringSet.drop_chars_cons _ s hlt, window, orBytes, length_window,
        ← BitVec.or_assoc, ← ih hlt, BitVec.ofNat_toNat]
      rfl

/-- A key of every type stands for the window of the string. -/
theorem wordBytes_getCharAs (T : KeyInt) (s : CString mem) {depth : ℕ} (hd : depth ≤ s.len) :
    WordBytes T.sizeof (T.getChar mem s.ptr depth)
      (window T.sizeof (((UCharStringSet mem).chars s).drop depth)) := by
  cases T with
  | uint32_t =>
    show WordBytes 4 (getCharUint32 mem s.ptr depth) _
    rw [getCharUint32_eq_maskBehindZero]
    have hload : WordBytes 4 (loadSwapped32 mem (s.ptr + depth)) (memBytes mem (s.ptr + depth) 4) :=
      wordBytes_loadSwapped32 _
    have hmask := hload.maskBehindZero (show 0 + 3 + 1 = 4 from rfl) (by simp)
    rwa [cutBytes_memBytes s 4 hd] at hmask
  | uint64_t => exact isKey_iff.mp (isKey_getChar s hd)
  | uint128_t =>
    show WordBytes 16 (getCharUint128 mem s.ptr depth) _
    rw [getCharUint128, getCharUint128Loop_eq s 15 hd, show (0 : BitVec 128) = 0#128 from rfl,
      BitVec.zero_or]
    exact wordBytes_orBytes rfl (length_window ..) (digits_window _ _)

/-- Both ways of `stringset.hpp` to extract a key of four characters. -/
theorem wordBytes_getCharUint32Simple (s : CString mem) {depth : ℕ} (hd : depth ≤ s.len) :
    WordBytes 4 (getCharUint32Simple (UCharStringSet mem) s ((UCharStringSet mem).getChars s depth))
      (window 4 (((UCharStringSet mem).chars s).drop depth)) := by
  rw [getCharUint32Simple, getCharUint32Loop_eq s 4 hd, show (0 : BitVec 32) = 0#32 from rfl,
    BitVec.zero_or]
  exact wordBytes_orBytes rfl (length_window ..) (digits_window _ _)

/-- The string at the same place in another memory that agrees up to the terminator. -/
def CString.transfer (s : CString mem) {mem' : ℕ → CharType}
    (h : ∀ k ≤ s.len, mem' (s.ptr + k) = mem (s.ptr + k)) : CString mem' where
  ptr := s.ptr
  len := s.len
  notNul k hk := by
    rw [h k hk.le]
    exact s.notNul k hk
  nul := (h s.len (le_refl _)).trans s.nul

theorem CString.chars_transfer (s : CString mem) {mem' : ℕ → CharType}
    (h : ∀ k ≤ s.len, mem' (s.ptr + k) = mem (s.ptr + k)) :
    (UCharStringSet mem').chars (s.transfer h) = (UCharStringSet mem).chars s :=
  List.map_congr_left fun k hk => h k (List.mem_range.mp hk).le

/-- What lies behind the terminator does not matter to a key. -/
theorem getCharAs_congr (T : KeyInt) (s : CString mem) {depth : ℕ} (hd : depth ≤ s.len)
    {mem' : ℕ → CharType} (h : ∀ k ≤ s.len, mem' (s.ptr + k) = mem (s.ptr + k)) :
    T.getChar mem' s.ptr depth = T.getChar mem s.ptr depth := by
  have hkey := wordBytes_getCharAs T (s.transfer h) (show depth ≤ (s.transfer h).len from hd)
  rw [s.chars_transfer h] at hkey
  exact (hkey.eq_iff (wordBytes_getCharAs T s hd)).mpr rfl

end Bytes

/-- The load that is swapped and masked gives the key that is collected character by character, and
no byte behind the terminator matters. -/
theorem keyExtraction_eq (mem : ℕ → CharType) (s : CString mem) (depth : ℕ) (hd : depth ≤ s.len) :
    let i := (UCharStringSet mem).getChars s depth
    (getChar mem s.ptr depth = getCharUint64Simple (UCharStringSet mem) s i ∧
      getCharUint64Bswap64 mem s.ptr depth = getCharUint64Simple (UCharStringSet mem) s i) ∧
    (getCharUint32 mem s.ptr depth = getCharUint32Simple (UCharStringSet mem) s i ∧
      getCharUint32Bswap32 mem s.ptr depth = getCharUint32Simple (UCharStringSet mem) s i) ∧
    ∀ mem' : ℕ → CharType, (∀ k ≤ s.len, mem' (s.ptr + k) = mem (s.ptr + k)) →
      getChar mem' s.ptr depth = getChar mem s.ptr depth ∧
      getCharUint64Bswap64 mem' s.ptr depth = getCharUint64Bswap64 mem s.ptr depth ∧
      getCharUint32 mem' s.ptr depth = getCharUint32 mem s.ptr depth ∧
      getCharUint32Bswap32 mem' s.ptr depth = getCharUint32Bswap32 mem s.ptr depth := by
  have h64 : getChar mem s.ptr depth = getUint64 (UCharStringSet mem) s depth :=
    ((isKey_getChar s hd).eq_iff
      (isKey_getUint64 (UCharStringSet.sortable mem).lawful s depth hd)).mpr rfl
  have h32 : getCharUint32 mem s.ptr depth = getCharUint32Simple (UCharStringSet mem) s
      ((UCharStringSet mem).getChars s depth) :=
    ((wordBytes_getCharAs .uint32_t s hd).eq_iff (wordBytes_getCharUint32Simple s hd)).mpr rfl
  -- the two functions of each width have the same text
  refine ⟨⟨h64, h64⟩, ⟨h32, h32⟩, fun mem' h => ?_⟩
  have h64' := getCharAs_congr .uint64_t s hd h
  have h32' := getCharAs_congr .uint32_t s hd h
  exact ⟨h64', h64', h32', h32'⟩

/-- The string "a", with an address whose bytes behind the terminator are not zero. -/
private def memGarbage : ℕ → CharType := fun p => if p = 1 then 0 else 97

private def garbageA : CString memGarbage := ⟨0, 1, by decide, rfl⟩

theorem keyExtraction_eq_garbage :
    getChar memGarbage 0 0 = getCharUint64Simple (UCharStringSet memGarbage) garbageA 0 ∧
      getCharUint32 memGarbage 0 0 = getCharUint32Simple (UCharStringSet memGarbage) garbageA 0 :=
  ⟨(keyExtraction_eq memGarbage garbageA 0 (Nat.zero_le _)).1.1,
    (keyExtraction_eq memGarbage garbageA 0 (Nat.zero_le _)).2.1.1⟩

/-! ## Counting common characters -/

/-- What the zero bits of the xor of two keys, and the order of the keys, are to say. -/
structure KeyLcpExact (T : KeyInt) {mem : ℕ → CharType} (a b : CString mem) (depth : ℕ) : Prop where
  lcp_of_ne : T.getChar mem a.ptr depth ≠ T.getChar mem b.ptr depth →
    (T.countHighZeroBits (T.getChar mem a.ptr depth ^^^ T.getChar mem b.ptr depth)).map (· / 8) =
      some (min (lcpLen (((UCharStringSet mem).chars a).drop depth)
        (((UCharStringSet mem).chars b).drop depth)) T.sizeof)
  lcp_of_eq : T.getChar mem a.ptr depth = T.getChar mem b.ptr depth →
    (T.countHighZeroBits (T.getChar mem a.ptr depth ^^^ T.getChar mem b.ptr depth)).map (· / 8) =
      some T.sizeof
  before : T.getChar mem a.ptr depth < T.getChar mem b.ptr depth →
    ((UCharStringSet mem).chars a).drop depth < ((UCharStringSet mem).chars b).drop depth

/-- For strings that agree up to the depth, the order of the keys is that of the strings. -/
theorem KeyLcpExact.lt {T : KeyInt} {mem : ℕ → CharType} {a b : CString mem} {depth : ℕ}
    (h : KeyLcpExact T a b depth)
    (hs : SharePrefix depth ((UCharStringSet mem).chars a) ((UCharStringSet mem).chars b))
    (hlt : T.getChar mem a.ptr depth < T.getChar mem b.ptr depth) :
    (UCharStringSet mem).chars a < (UCharStringSet mem).chars b :=
  (lt_iff_drop_lt hs.take_eq).mpr (h.before hlt)

/-- The two strings differ within the next eight characters, and their characters at the depth (zero
at the end of a string) have the same highest bit. -/
def UpperHalvesDiffer {mem : ℕ → CharType} (a b : CString mem) (depth : ℕ) : Prop :=
  window 8 (((UCharStringSet mem).chars a).drop depth) ≠
      window 8 (((UCharStringSet mem).chars b).drop depth) ∧
    (((UCharStringSet mem).chars a).getD depth 0).msb =
      (((UCharStringSet mem).chars b).getD depth 0).msb

section Count

variable {mem : ℕ → CharType} {a b : CString mem} {depth : ℕ}

/-- The upper bytes of a window are the shorter window. -/
theorem take_window {k n : ℕ} (hk : k ≤ n) (x : List CharType) :
    (window n x).take k = window k x := by
  apply List.ext_getElem?
  intro i
  rcases Nat.lt_or_ge i k with hi | hi
  · rw [List.getElem?_take_of_lt hi, window_getElem? x (hi.trans_le hk), window_getElem? x hi]
  · rw [List.getElem?_eq_none, List.getElem?_eq_none]
    · rw [length_window]
      exact hi
    · exact (List.length_take_le ..).trans hi

/-- The order of keys and the count for equal keys are always right.  So it remains to count the
zero bits. -/
theorem keyLcpExact_iff_count (T : KeyInt) (ha : depth ≤ a.len) (hb : depth ≤ b.len) :
    KeyLcpExact T a b depth ↔ (T.getChar mem a.ptr depth ≠ T.getChar mem b.ptr depth →
      (T.countHighZeroBits (T.getChar mem a.ptr depth ^^^ T.getChar mem b.ptr depth)).map (· / 8) =
        some (leadingZeros T.bits
          (T.getChar mem a.ptr depth ^^^ T.getChar mem b.ptr depth).toNat / 8)) := by
  have hx := (GenericCharStringSet.noNul false mem a).drop depth
  have hy := (GenericCharStringSet.noNul false mem b).drop depth
  have hu := wordBytes_getCharAs T a ha
  have hv := wordBytes_getCharAs T b hb
  have hlcp : T.getChar mem a.ptr depth ≠ T.getChar mem b.ptr depth →
      leadingZeros T.bits (T.getChar mem a.ptr depth ^^^ T.getChar mem b.ptr depth).toNat / 8 =
        min (lcpLen (((UCharStringSet mem).chars a).drop depth)
          (((UCharStringSet mem).chars b).drop depth)) T.sizeof := by
    intro hne
    rw [Ne, hu.eq_iff hv] at hne
    obtain ⟨hwindow, hlt⟩ := lcpLen_window hx hy hne
    rw [hu.leadingZeros_xor hv]
    exact hwindow.trans (min_eq_left hlt.le).symm
  constructor
  · intro h hne
    rw [h.lcp_of_ne hne, hlcp hne]
  · intro h
    refine ⟨fun hne => by rw [h hne, hlcp hne], fun heq => ?_, fun hlt => ?_⟩
    · rw [heq, BitVec.xor_self]
      cases T <;> rfl
    · exact lt_of_window_lt hx hy ((hu.lt_iff hv).mp hlt)

/-- A count that tests for zero first. -/
private theorem count_of_test {w : ℕ} (t : BitVec w) :
    (if t = 0 then some w else builtinClz t) = some (leadingZeros w t.toNat) := by
  rw [builtinClz]
  by_cases h : t = 0
  · rw [if_pos h, h]
    rfl
  · rw [if_neg h, if_neg h]

/-- The count of the narrow types. -/
theorem countHighZeroBits_narrow {T : KeyInt} (hT : T ≠ .uint128_t) (t : BitVec T.bits) :
    T.countHighZeroBits t = some (leadingZeros T.bits t.toNat) := by
  cases T with
  | uint128_t => exact absurd rfl hT
  | uint32_t => exact count_of_test t
  | uint64_t => exact count_of_test t

/-- The count of the wide type is right when the upper half is not zero and its highest bit is. -/
theorem countHighZeroBits_wide {t : BitVec 128} (ht : t ≠ 0) :
    (KeyInt.uint128_t.countHighZeroBits t).map (· / 8) = some (leadingZeros 128 t.toNat / 8) ↔
      t.toNat / 2 ^ 64 ≠ 0 ∧ t.toNat < 2 ^ 127 := by
  have hhi : ((t >>> 64).setWidth 64).toNat = t.toNat / 2 ^ 64 := by
    rw [BitVec.toNat_setWidth, BitVec.toNat_ushiftRight, Nat.shiftRight_eq_div_pow]
    have := t.isLt
    omega
  have hcount : KeyInt.uint128_t.countHighZeroBits t =
      (builtinClz ((t >>> 64).setWidth 64)).bind fun b =>
        if b > 0 then some b else (builtinClz (t.setWidth 64)).map fun b => 64 + b := if_neg ht
  have hzero : ((t >>> 64).setWidth 64 : BitVec 64) = 0 ↔ t.toNat / 2 ^ 64 = 0 := by
    rw [← hhi, ← BitVec.toNat_inj]
    rfl
  have htop := le_leadingZeros_iff (w := 128) (j := 1) t.isLt (by norm_num)
  rw [hcount]
  by_cases hh : t.toNat / 2 ^ 64 = 0
  · -- the count of an upper half without a bit is not defined
    rw [builtinClz, if_pos (hzero.mpr hh), Option.bind_none, Option.map_none]
    exact iff_of_false (by simp) fun h => h.1 hh
  · have hlead : leadingZeros 64 ((t >>> 64).setWidth 64 : BitVec 64).toNat =
        leadingZeros 128 t.toNat := by
      rw [hhi]
      exact leadingZeros_div (w := 64) (k := 64) t.isLt hh
    rw [builtinClz, if_neg (hzero.not.mpr hh), Option.bind_some, hlead]
    by_cases hb : leadingZeros 128 t.toNat > 0
    · rw [if_pos hb]
      exact iff_of_true rfl ⟨hh, htop.mp hb⟩
    · -- the two words differ in their highest bit, and the lower halves are counted
      rw [if_neg hb, show leadingZeros 128 t.toNat = 0 by omega]
      refine iff_of_false (fun hcontra => ?_) fun h => hb (htop.mpr h.2)
      rw [Option.map_map, Option.map_eq_some_iff] at hcontra
      obtain ⟨c, -, hc⟩ := hcontra
      simp only [Function.comp_apply] at hc
      omega

/-- The highest bit of a character. -/
private theorem msb_eq_iff (c d : CharType) : c.toNat / 128 = d.toNat / 128 ↔ c.msb = d.msb := by
  have hc := c.isLt
  have hd := d.isLt
  rw [BitVec.msb_eq_decide, BitVec.msb_eq_decide, decide_eq_decide]
  omega

/-- The condition of the wide type, on the strings. -/
theorem upperHalvesDiffer_iff (ha : depth ≤ a.len) (hb : depth ≤ b.len) :
    UpperHalvesDiffer a b depth ↔
      (getCharUint128 mem a.ptr depth ^^^ getCharUint128 mem b.ptr depth).toNat / 2 ^ 64 ≠ 0 ∧
        (getCharUint128 mem a.ptr depth ^^^ getCharUint128 mem b.ptr depth).toNat < 2 ^ 127 := by
  have hu : WordBytes 16 (getCharUint128 mem a.ptr depth) _ := wordBytes_getCharAs .uint128_t a ha
  have hv : WordBytes 16 (getCharUint128 mem b.ptr depth) _ := wordBytes_getCharAs .uint128_t b hb
  have hfirst : ∀ s : CString mem, (window 16 (((UCharStringSet mem).chars s).drop depth))[0]? =
      some (((UCharStringSet mem).chars s).getD depth 0).toNat := by
    intro s
    rw [window_getElem? _ (by norm_num), List.getElem?_drop, Nat.add_zero, Option.some_inj,
      List.getD_eq_getElem?_getD]
    cases ((UCharStringSet mem).chars s)[depth]? <;> rfl
  have hupper : (getCharUint128 mem a.ptr depth ^^^ getCharUint128 mem b.ptr depth).toNat / 2 ^ 64 ≠
      0 ↔ window 8 (((UCharStringSet mem).chars a).drop depth) ≠
        window 8 (((UCharStringSet mem).chars b).drop depth) := by
    have hinj := packBE_inj (hu.digits.take 8) (hv.digits.take 8)
      (by simp [hu.length_eq, hv.length_eq])
    rw [← hu.shiftRight_eq 8, ← hv.shiftRight_eq 8, ← xor_lt_two_pow_iff,
      ← BitVec.toNat_xor] at hinj
    rw [← take_window (show 8 ≤ 16 by norm_num), ← take_window (show 8 ≤ 16 by norm_num),
      not_iff_not, Nat.div_eq_zero_iff]
    exact (or_iff_right (by norm_num)).trans hinj
  rw [UpperHalvesDiffer, hupper, ← msb_eq_iff, ← hu.topBit_eq (hfirst a), ← hv.topBit_eq (hfirst b),
    BitVec.toNat_xor, xor_lt_two_pow_iff]

end Count

/-- When the zero bits of the xor of two keys count the characters that two strings have in common,
and the keys are ordered as the strings.  The count of the widest type takes a set highest bit for
an empty upper half. -/
theorem keyLcpExact_iff (T : KeyInt) (mem : ℕ → CharType) (a b : CString mem) (depth : ℕ)
    (ha : depth ≤ a.len) (hb : depth ≤ b.len) :
    KeyLcpExact T a b depth ↔ T ≠ .uint128_t ∨
      window 16 (((UCharStringSet mem).chars a).drop depth) =
        window 16 (((UCharStringSet mem).chars b).drop depth) ∨
      UpperHalvesDiffer a b depth := by
  rw [keyLcpExact_iff_count T ha hb]
  by_cases hT : T = .uint128_t
  · subst hT
    have hu := wordBytes_getCharAs .uint128_t a ha
    have hv := wordBytes_getCharAs .uint128_t b hb
    have heq : getCharUint128 mem a.ptr depth = getCharUint128 mem b.ptr depth ↔
        window 16 (((UCharStringSet mem).chars a).drop depth) =
          window 16 (((UCharStringSet mem).chars b).drop depth) := hu.eq_iff hv
    rw [or_iff_right (not_not_intro rfl), ← heq, upperHalvesDiffer_iff ha hb]
    by_cases hkeys : getCharUint128 mem a.ptr depth = getCharUint128 mem b.ptr depth
    · exact iff_of_true (fun hne => absurd hkeys hne) (Or.inl hkeys)
    · rw [or_iff_right hkeys, ← countHighZeroBits_wide fun h => hkeys (BitVec.xor_eq_zero_iff.mp h)]
      exact forall_prop_of_true hkeys
  · refine iff_of_true (fun _ => ?_) (Or.inl hT)
    rw [countHighZeroBits_narrow hT]
    rfl

/-- A memory with the string "\x80aaaaaaaa" at address 0, and the string "\x01" at address 10. -/
private def memHighBit : ℕ → CharType := fun p =>
  if p = 0 then 128 else if p ≤ 8 then 97 else if p = 10 then 1 else 0

private def highBitA : CString memHighBit := ⟨0, 9, by decide, rfl⟩

private def oneB : CString memHighBit := ⟨10, 1, by decide, rfl⟩

/-- Two strings whose first characters have the same highest bit. -/
theorem keyLcpExact_iff_lowBits : KeyLcpExact .uint128_t ⟨1, 8, by decide, rfl⟩ oneB 0 := by
  refine (keyLcpExact_iff .uint128_t memHighBit ⟨1, 8, by decide, rfl⟩ oneB 0 (Nat.zero_le _)
    (Nat.zero_le _)).mpr ?_
  exact Or.inr (Or.inr ⟨by decide, by decide⟩)

/-- Two strings whose first characters differ in the highest bit: the count of the widest type finds
65 zero bits, and eight common characters. -/
theorem keyLcp_fails_highBit :
    KeyInt.uint128_t.countHighZeroBits (KeyInt.uint128_t.getChar memHighBit highBitA.ptr 0 ^^^
        KeyInt.uint128_t.getChar memHighBit oneB.ptr 0) = some 65 ∧
      lcpLen ((UCharStringSet memHighBit).chars highBitA) ((UCharStringSet memHighBit).chars oneB) =
        0 ∧
      ¬ KeyLcpExact .uint128_t highBitA oneB 0 := by
  have hcount : KeyInt.uint128_t.countHighZeroBits (KeyInt.uint128_t.getChar memHighBit
      highBitA.ptr 0 ^^^ KeyInt.uint128_t.getChar memHighBit oneB.ptr 0) = some 65 := by decide
  have hlcp : lcpLen ((UCharStringSet memHighBit).chars highBitA)
      ((UCharStringSet memHighBit).chars oneB) = 0 := by decide
  refine ⟨hcount, hlcp, fun h => ?_⟩
  have hexact := h.lcp_of_ne (by decide)
  rw [hcount, List.drop_zero, List.drop_zero, hlcp] at hexact
  exact absurd hexact (by decide)

end StringSampleSort
