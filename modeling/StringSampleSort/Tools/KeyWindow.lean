import StringSampleSort.Tools.GetChar

/-!
# Keys of strings without zero characters

When no character of a string is zero, its key shows where the string ends: a zero byte in a
key is the terminator.  The sorters rest on this when they take a key apart.

## Main results

- `KeyOf.lowByte_ne_zero_iff`: a key without terminator has eight characters
- `KeyOf.le_length_of_between`: the bytes common to two keys are characters of every string
  whose key lies strictly between
-/

namespace StringSampleSort

open Library

/-- `k` is the key of the characters `cs`, none of which is zero. -/
structure KeyOf (k : KeyType) (cs : List CharType) : Prop where
  isKey : IsKey k (window 8 cs)
  notNul : ∀ c ∈ cs, c ≠ 0

namespace KeyOf

variable {a k : KeyType} {as cs : List CharType}

/-- A zero byte is the terminator or lies behind it. -/
theorem window_eq_zero_iff (h : KeyOf k cs) {i : ℕ} (hi : i < 8) :
    (window 8 cs)[i]? = some 0 ↔ cs.length ≤ i := by
  rw [window_getElem? cs hi, Option.some_inj]
  rcases Nat.lt_or_ge i cs.length with hlt | hge
  · rw [List.getElem?_eq_getElem hlt]
    refine iff_of_false (fun h0 => ?_) (by omega)
    exact h.notNul _ (List.getElem_mem hlt) (BitVec.eq_of_toNat_eq h0)
  · rw [List.getElem?_eq_none hge]
    exact iff_of_true rfl hge

theorem lowByte_ne_zero_iff (h : KeyOf k cs) : lowByte k ≠ 0 ↔ 8 ≤ cs.length := by
  rw [Ne, lowByte_eq_zero_iff h.isKey, h.window_eq_zero_iff (by norm_num)]
  omega

/-- Two keys that agree up to a terminator are the same. -/
theorem eq_of_take_eq (h : KeyOf k cs) (ha : KeyOf a as) {l : ℕ} (hl : l ≤ 8)
    (htake : (window 8 cs).take l = (window 8 as).take l) (hend : cs.length < l) : k = a := by
  rw [h.isKey.eq_iff ha.isKey]
  have hget : ∀ i < l, (window 8 cs)[i]? = (window 8 as)[i]? := fun i hi => by
    rw [← List.getElem?_take_of_lt hi, htake, List.getElem?_take_of_lt hi]
  -- the terminator stands in both keys
  have has : as.length ≤ cs.length := by
    rw [← ha.window_eq_zero_iff (by omega), ← hget _ hend, h.window_eq_zero_iff (by omega)]
  apply List.ext_getElem?
  intro i
  rcases Nat.lt_or_ge i 8 with hi | hi
  · rcases Nat.lt_or_ge i l with hil | hil
    · exact hget i hil
    · rw [(h.window_eq_zero_iff hi).mpr (by omega), (ha.window_eq_zero_iff hi).mpr (by omega)]
  · rw [List.getElem?_eq_none (by simpa using hi), List.getElem?_eq_none (by simpa using hi)]

end KeyOf

/-- A key between two others shares their common bytes. -/
theorem take_eq_of_between {a k c : KeyType} {u v w : List ℕ} (ha : IsKey a u) (hk : IsKey k v)
    (hc : IsKey c w) (hak : a ≤ k) (hkc : k ≤ c) :
    v.take (lcpKeyType a c) = u.take (lcpKeyType a c) := by
  have hlcp := (le_lcpLen_iff u w (lcpKeyType a c)).mp (lcpKeyType_eq ha hc).le
  rw [BitVec.le_def, ha.value, hk.value] at hak
  rw [BitVec.le_def, hk.value, hc.value] at hkc
  have huv : u.length = v.length := ha.length_eq.trans hk.length_eq.symm
  have hvw : v.length = w.length := hk.length_eq.trans hc.length_eq.symm
  have h₁ := packBE_take_le ha.digits hk.digits (by norm_num) huv hak (lcpKeyType a c)
  have h₂ := packBE_take_le hk.digits hc.digits (by norm_num) hvw hkc (lcpKeyType a c)
  rw [← hlcp.2.2] at h₂
  refine (packBE_inj (hk.digits.take _) (ha.digits.take _) ?_).mp (le_antisymm h₂ h₁)
  rw [List.length_take, List.length_take, huv]

/-- The bytes common to two keys, the smaller one of some string, are characters of every
string whose key lies strictly between. -/
theorem KeyOf.le_length_of_between {a k c : KeyType} {as cs : List CharType} {w : List ℕ}
    (ha : KeyOf a as) (hk : KeyOf k cs) (hc : IsKey c w) (hak : a < k) (hkc : k < c) :
    lcpKeyType a c ≤ cs.length := by
  by_contra hlt
  have hle : lcpKeyType a c ≤ 8 := by
    rw [lcpKeyType_eq ha.isKey hc]
    exact (lcpLen_le_left (window 8 as) w).trans_eq (length_window 8 as)
  have htake := take_eq_of_between ha.isKey hk.isKey hc hak.le hkc.le
  exact hak.ne (hk.eq_of_take_eq ha hle htake (by omega)).symm

/-- The key that `get_char` reads from a string of at least `depth` characters. -/
theorem keyOf_getChar {mem : ℕ → CharType} (s : CString mem) {depth : ℕ} (hd : depth ≤ s.len) :
    KeyOf (getChar mem s.ptr depth) (((UCharStringSet mem).chars s).drop depth) where
  isKey := isKey_getChar s hd
  notNul c hc := by
    obtain ⟨i, hi⟩ := List.mem_iff_getElem?.mp (List.mem_of_mem_drop hc)
    have hlt : i < s.len := by
      have := (List.getElem?_eq_some_iff.mp hi).1
      rwa [StringSet.length_chars] at this
    rw [(UCharStringSet mem).getElem?_chars s hlt, Option.some_inj] at hi
    rw [← hi]
    exact s.notNul i hlt

end StringSampleSort
