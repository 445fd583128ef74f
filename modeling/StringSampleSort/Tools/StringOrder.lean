import StringSampleSort.Library.LcpOrder
import StringSampleSort.Tools.KeyOrder
import StringSampleSort.Tools.KeyWindow

/-!
# String order and keys

The sorters compare strings by their keys at a depth that all strings of a range reach and up to
which they agree.  This module says what such a comparison tells about the strings, and which
string sets compare as the sorters need it.

## Main results

- `keyAt_le_keyAt`: key order is string order
- `SharePrefix.of_keyAt_eq`, `eq_of_keyAt_eq`: what equal keys say, with and without terminator
- `lcpLen_of_keyAt_ne`: different keys give the common prefix
- `UCharStringSet.sortable`, `UCharSuffixSet.sortable`, `StringSuffixSet.sortable`: sets that the
  sorters can sort
-/

namespace StringSampleSort

open Library

/-- Characters are ordered as unsigned numbers. -/
instance : LinearOrder CharType where
  le_refl := BitVec.le_refl
  le_trans _ _ _ := BitVec.le_trans
  le_antisymm _ _ := BitVec.le_antisymm
  le_total := BitVec.le_total
  lt_iff_le_not_ge a b := by
    rw [BitVec.lt_def, BitVec.le_def, BitVec.le_def]
    omega
  toDecidableLE := inferInstance
  toDecidableLT := inferInstance
  toDecidableEq := inferInstance

/-! ## Prefixes -/

/-- Two strings reach the depth and agree up to it. -/
structure SharePrefix (d : ℕ) (x y : List CharType) : Prop where
  left : d ≤ x.length
  right : d ≤ y.length
  take_eq : x.take d = y.take d

namespace SharePrefix

variable {d e : ℕ} {x y z : List CharType}

theorem iff_le_lcpLen : SharePrefix d x y ↔ d ≤ lcpLen x y := by
  rw [le_lcpLen_iff]
  exact ⟨fun h => ⟨h.left, h.right, h.take_eq⟩, fun h => ⟨h.1, h.2.1, h.2.2⟩⟩

theorem symm (h : SharePrefix d x y) : SharePrefix d y x := ⟨h.right, h.left, h.take_eq.symm⟩

theorem trans (h : SharePrefix d x y) (h' : SharePrefix d y z) : SharePrefix d x z :=
  ⟨h.left, h'.right, h.take_eq.trans h'.take_eq⟩

theorem mono (h : SharePrefix d x y) (hed : e ≤ d) : SharePrefix e x y := by
  rw [iff_le_lcpLen] at h ⊢
  exact hed.trans h

theorem zero (x y : List CharType) : SharePrefix 0 x y := ⟨Nat.zero_le _, Nat.zero_le _, rfl⟩

/-- The common prefix is the shared one and what the rests have in common. -/
theorem lcpLen_eq (h : SharePrefix d x y) : lcpLen x y = d + lcpLen (x.drop d) (y.drop d) :=
  lcpLen_of_take_eq h.left h.take_eq

end SharePrefix

/-! ## Keys of strings -/

/-- No character is the terminator. -/
def NoNul (x : List CharType) : Prop := ∀ c ∈ x, c ≠ 0

theorem NoNul.drop {x : List CharType} (h : NoNul x) (d : ℕ) : NoNul (x.drop d) := fun c hc =>
  h c (List.mem_of_mem_drop hc)

/-- The key of a string at a depth. -/
def keyAt (x : List CharType) (d : ℕ) : KeyType :=
  BitVec.ofNat 64 (packBE 256 (window 8 (x.drop d)))

theorem isKey_keyAt (x : List CharType) (d : ℕ) : IsKey (keyAt x d) (window 8 (x.drop d)) where
  length_eq := length_window _ _
  digits := digits_window _ _
  value := by
    have hlt := packBE_lt (digits_window 8 (x.drop d))
    rw [length_window] at hlt
    rw [keyAt, BitVec.toNat_ofNat, Nat.mod_eq_of_lt (hlt.trans_eq (by norm_num))]

/-- `get_char` reads the key from a string that reaches the depth. -/
theorem getChar_eq_keyAt {mem : ℕ → CharType} (s : CString mem) {depth : ℕ} (hd : depth ≤ s.len) :
    getChar mem s.ptr depth = keyAt ((UCharStringSet mem).chars s) depth :=
  ((isKey_getChar s hd).eq_iff (isKey_keyAt _ depth)).mpr rfl

theorem keyOf_keyAt {x : List CharType} (h : NoNul x) (d : ℕ) : KeyOf (keyAt x d) (x.drop d) :=
  ⟨isKey_keyAt x d, h.drop d⟩

/-- The windows of strings are ordered as the strings. -/
theorem lt_of_window_lt {x y : List CharType} (hx : NoNul x) (hy : NoNul y) {k : ℕ}
    (h : window k x < window k y) : x < y := by
  obtain ⟨c, hc, hlt⟩ := window_lt hx hy h
  exact (lt_iff_lcpLen x y).mpr ⟨c, hc, fun d hd => hlt d hd⟩

section Keys

variable {x y : List CharType} {d : ℕ}

/-- A smaller key belongs to a smaller string. -/
theorem lt_of_keyAt_lt (hx : NoNul x) (hy : NoNul y) (hs : SharePrefix d x y)
    (h : keyAt x d < keyAt y d) : x < y := by
  rw [(isKey_keyAt x d).lt_iff (isKey_keyAt y d)] at h
  exact (lt_iff_drop_lt hs.take_eq).mpr (lt_of_window_lt (hx.drop d) (hy.drop d) h)

/-- Key order is string order. -/
theorem keyAt_le_keyAt (hx : NoNul x) (hy : NoNul y) (hs : SharePrefix d x y) (h : x ≤ y) :
    keyAt x d ≤ keyAt y d :=
  not_lt.mp fun hlt => not_lt.mpr h (lt_of_keyAt_lt hy hx hs.symm hlt)

/-- A key without terminator belongs to strings that go on for eight more characters. -/
theorem lowByte_keyAt_ne_zero (hx : NoNul x) (hd : d ≤ x.length) :
    lowByte (keyAt x d) ≠ 0 ↔ d + 8 ≤ x.length := by
  rw [(keyOf_keyAt hx d).lowByte_ne_zero_iff, List.length_drop]
  omega

/-- Strings with equal keys have the next eight characters in common, or end there. -/
theorem take_eq_of_keyAt_eq (hx : NoNul x) (hy : NoNul y) (hs : SharePrefix d x y)
    (h : keyAt x d = keyAt y d) : x.take (d + 8) = y.take (d + 8) := by
  rw [(isKey_keyAt x d).eq_iff (isKey_keyAt y d), window_eq_iff (hx.drop d) (hy.drop d)] at h
  rw [List.take_add, List.take_add, h, hs.take_eq]

/-- Strings with equal keys without terminator agree up to eight characters more. -/
theorem SharePrefix.of_keyAt_eq (hx : NoNul x) (hy : NoNul y) (hs : SharePrefix d x y)
    (h : keyAt x d = keyAt y d) (hlow : lowByte (keyAt x d) ≠ 0) : SharePrefix (d + 8) x y where
  left := (lowByte_keyAt_ne_zero hx hs.left).mp hlow
  right := (lowByte_keyAt_ne_zero hy hs.right).mp (h ▸ hlow)
  take_eq := take_eq_of_keyAt_eq hx hy hs h

/-- Strings with equal keys that contain the terminator are the same. -/
theorem eq_of_keyAt_eq (hx : NoNul x) (hy : NoNul y) (hs : SharePrefix d x y)
    (h : keyAt x d = keyAt y d) (hlow : lowByte (keyAt x d) = 0) : x = y := by
  have hlx : x.length < d + 8 := by
    by_contra hge
    exact (lowByte_keyAt_ne_zero hx hs.left).mpr (not_lt.mp hge) hlow
  have hly : y.length < d + 8 := by
    by_contra hge
    exact (lowByte_keyAt_ne_zero hy hs.right).mpr (not_lt.mp hge) (h ▸ hlow)
  have htake := take_eq_of_keyAt_eq hx hy hs h
  rwa [List.take_of_length_le hlx.le, List.take_of_length_le hly.le] at htake

/-- A key that contains the terminator gives the length of the string. -/
theorem length_of_lowByte_eq_zero (hx : NoNul x) (hd : d ≤ x.length)
    (hlow : lowByte (keyAt x d) = 0) : x.length = d + lcpKeyDepth (keyAt x d) := by
  have hlx : x.length < d + 8 := by
    by_contra hge
    exact (lowByte_keyAt_ne_zero hx hd).mpr (not_lt.mp hge) hlow
  have hkey := keyOf_keyAt hx d
  have hlen : (x.drop d).length = x.length - d := List.length_drop
  rw [lcpKeyDepth_eq hkey.isKey (m := x.length - d) (by omega)]
  · omega
  · intro i h₁ h₂
    exact (hkey.window_eq_zero_iff h₂).mpr (by omega)
  · rcases Nat.eq_zero_or_pos (x.length - d) with hzero | hpos
    · exact Or.inl hzero
    · refine Or.inr fun hlast => ?_
      have := (hkey.window_eq_zero_iff (by omega)).mp hlast
      omega

/-- Different keys give the common prefix. -/
theorem lcpLen_of_keyAt_ne (hx : NoNul x) (hy : NoNul y) (hs : SharePrefix d x y)
    (h : keyAt x d ≠ keyAt y d) :
    lcpLen x y = d + lcpKeyType (keyAt x d) (keyAt y d) ∧
      lcpKeyType (keyAt x d) (keyAt y d) < 8 := by
  rw [Ne, (isKey_keyAt x d).eq_iff (isKey_keyAt y d)] at h
  obtain ⟨h₁, h₂⟩ := lcpLen_window (hx.drop d) (hy.drop d) h
  rw [lcpKeyType_eq (isKey_keyAt x d) (isKey_keyAt y d), h₁, hs.lcpLen_eq]
  exact ⟨rfl, h₂⟩

/-- The bytes of a key are the characters of the string, then terminators. -/
theorem getCharAtDepth_keyAt (y : List CharType) (d : ℕ) {i : ℕ} (hi : i < 8) :
    getCharAtDepth (keyAt y d) i = y.getD (d + i) 0 := by
  have hget := getCharAtDepth_toNat (isKey_keyAt y d) hi
  rw [window_getElem? _ hi, List.getElem?_drop, Option.some_inj] at hget
  apply BitVec.eq_of_toNat_eq
  rw [hget, List.getD_eq_getElem?_getD]
  cases y[d + i]? <;> rfl

/-- The bytes common to two keys of a range are shared by all strings between them. -/
theorem SharePrefix.of_between {a z : List CharType} (ha : NoNul a) (hx : NoNul x)
    (hsa : SharePrefix d a x) (hax : keyAt a d < keyAt x d)
    (hxz : keyAt x d < keyAt z d) :
    SharePrefix (d + lcpKeyType (keyAt a d) (keyAt z d)) a x := by
  have hle : lcpKeyType (keyAt a d) (keyAt z d) ≤ (x.drop d).length :=
    KeyOf.le_length_of_between (keyOf_keyAt ha d) (keyOf_keyAt hx d) (isKey_keyAt z d) hax hxz
  have hlcp := (le_lcpLen_iff (window 8 (a.drop d)) (window 8 (z.drop d)) _).mp
    (lcpKeyType_eq (isKey_keyAt a d) (isKey_keyAt z d)).le
  rw [length_window] at hlcp
  have htake := take_eq_of_between (isKey_keyAt a d) (isKey_keyAt x d) (isKey_keyAt z d) hax.le
    hxz.le
  -- the windows agree, so the strings do, as far as they go
  have hget : ∀ i < lcpKeyType (keyAt a d) (keyAt z d), (x.drop d)[i]? = (a.drop d)[i]? := by
    intro i hi
    have hi8 : i < 8 := by omega
    have hwin : (window 8 (x.drop d))[i]? = (window 8 (a.drop d))[i]? := by
      rw [← List.getElem?_take_of_lt hi, htake, List.getElem?_take_of_lt hi]
    have hilt : i < (x.drop d).length := by omega
    have hia : i < (a.drop d).length := by
      by_contra hge
      have hz := ((keyOf_keyAt ha d).window_eq_zero_iff hi8).mpr (not_lt.mp hge)
      have := ((keyOf_keyAt hx d).window_eq_zero_iff hi8).mp (hwin.trans hz)
      omega
    rw [window_getElem? _ hi8, window_getElem? _ hi8, List.getElem?_eq_getElem hilt,
      List.getElem?_eq_getElem hia, Option.some_inj] at hwin
    rw [List.getElem?_eq_getElem hilt, List.getElem?_eq_getElem hia]
    exact congrArg some (BitVec.eq_of_toNat_eq hwin)
  rw [iff_le_lcpLen, hsa.lcpLen_eq]
  refine Nat.add_le_add_left ((le_lcpLen_iff _ _ _).mpr ⟨?_, hle, ?_⟩) d
  · by_contra hlt
    have hlt := not_le.mp hlt
    have hnone := hget _ hlt
    rw [List.getElem?_eq_none (le_refl _), List.getElem?_eq_none_iff] at hnone
    omega
  · apply List.ext_getElem?
    intro i
    rcases Nat.lt_or_ge i (lcpKeyType (keyAt a d) (keyAt z d)) with hi | hi
    · rw [List.getElem?_take_of_lt hi, List.getElem?_take_of_lt hi, hget i hi]
    · rw [List.getElem?_eq_none, List.getElem?_eq_none]
      · exact (List.length_take_le ..).trans hi
      · exact (List.length_take_le ..).trans hi

end Keys

/-! ## The order of a set -/

/-- The set compares its strings at the end of their common prefix as the order of `f` does, and
common prefixes follow that order. -/
structure StringSet.OrderedBy {S ι : Type} [LinearOrder ι] (ss : StringSet S) (f : S → ι) :
    Prop where
  lawful : ss.Lawful
  lcpLen_between : ∀ a b c, f a ≤ f b → f b ≤ f c → lcpLen (ss.chars a) (ss.chars c) =
    min (lcpLen (ss.chars a) (ss.chars b)) (lcpLen (ss.chars b) (ss.chars c))
  isLeq_iff : ∀ a b k, k = lcpLen (ss.chars a) (ss.chars b) →
    (ss.isLeq a (ss.getChars a k) b (ss.getChars b k) = true ↔ f a ≤ f b)
  le_of_isLess : ∀ a b k, k = lcpLen (ss.chars a) (ss.chars b) →
    ss.isLess a (ss.getChars a k) b (ss.getChars b k) = true → f a ≤ f b
  ge_of_not_isLess : ∀ a b k, k = lcpLen (ss.chars a) (ss.chars b) →
    ss.isLess a (ss.getChars a k) b (ss.getChars b k) = false → f b ≤ f a

/-- The characters of a NUL-terminated string as numbers, the terminator included. -/
def GenericCharStringSet.values (sg : Bool) (mem : ℕ → CharType) (s : CString mem) : List ℤ :=
  ((GenericCharStringSet sg mem).chars s).map (charVal sg) ++ [0]

/-- The characters of a string as numbers. -/
def StringSet.values {S : Type} (ss : StringSet S) (s : S) : List ℤ :=
  (ss.chars s).map (charVal ss.signedChar)

theorem charVal_ne_zero {sg : Bool} {c : CharType} (hc : c ≠ 0) : charVal sg c ≠ 0 := by
  intro h
  refine hc (charVal_injective sg (h.trans ?_))
  cases sg <;> rfl

/-- Unsigned characters and their values give the same order of strings. -/
theorem map_charVal_lt_iff (l m : List CharType) :
    l.map (charVal false) < m.map (charVal false) ↔ l < m :=
  map_lt_map_iff (fun c d h => (charVal_lt_iff_unsigned c d).mpr h) l m

theorem GenericCharStringSet.noNul (sg : Bool) (mem : ℕ → CharType) (s : CString mem) :
    NoNul ((GenericCharStringSet sg mem).chars s) := by
  intro c hc
  obtain ⟨k, hk, rfl⟩ := List.mem_map.mp hc
  exact s.notNul k (List.mem_range.mp hk)

theorem GenericCharStringSet.zero_not_mem (sg : Bool) (mem : ℕ → CharType) (s : CString mem) :
    (0 : ℤ) ∉ ((GenericCharStringSet sg mem).chars s).map (charVal sg) := by
  intro hmem
  obtain ⟨c, hc, h0⟩ := List.mem_map.mp hmem
  exact charVal_ne_zero (noNul sg mem s c hc) h0

theorem GenericCharStringSet.getElem?_values {sg : Bool} {mem : ℕ → CharType} {s : CString mem}
    {k : ℕ} (hk : k ≤ s.len) : (values sg mem s)[k]? = some (charVal sg (mem (s.ptr + k))) := by
  have hlen : (((GenericCharStringSet sg mem).chars s).map (charVal sg)).length = s.len := by
    rw [List.length_map, StringSet.length_chars]
    rfl
  rcases Nat.eq_or_lt_of_le hk with heq | hlt
  · rw [values, List.getElem?_append_right (hlen.trans heq.symm).le, hlen, heq, Nat.sub_self,
      s.nul]
    cases sg <;> rfl
  · rw [values, List.getElem?_append_left (hlt.trans_eq hlen.symm), List.getElem?_map,
      StringSet.getElem?_chars _ s hlt]
    rfl

/-- How two NUL-terminated strings compare, by the characters behind their common prefix. -/
theorem GenericCharStringSet.compare_values {sg : Bool} {mem : ℕ → CharType} {a b : CString mem}
    {k : ℕ} (hk : k = lcpLen ((GenericCharStringSet sg mem).chars a)
      ((GenericCharStringSet sg mem).chars b)) :
    (charVal sg (mem (a.ptr + k)) < charVal sg (mem (b.ptr + k)) ∧
        values sg mem a < values sg mem b) ∨
      (charVal sg (mem (b.ptr + k)) < charVal sg (mem (a.ptr + k)) ∧
        values sg mem b < values sg mem a) ∨
      charVal sg (mem (a.ptr + k)) = charVal sg (mem (b.ptr + k)) ∧
        values sg mem a = values sg mem b := by
  obtain ⟨ha, hb, htake⟩ := (le_lcpLen_iff _ _ _).mp hk.le
  have hvalues : (values sg mem a).take k = (values sg mem b).take k := by
    rw [values, values, List.take_append_of_le_length (by rwa [List.length_map]),
      List.take_append_of_le_length (by rwa [List.length_map]), ← List.map_take, ← List.map_take,
      htake]
  rw [StringSet.length_chars] at ha hb
  have hva : (values sg mem a)[k]? = _ := getElem?_values ha
  have hvb : (values sg mem b)[k]? = _ := getElem?_values hb
  rcases lt_trichotomy (charVal sg (mem (a.ptr + k))) (charVal sg (mem (b.ptr + k))) with
    hlt | heq | hgt
  · exact Or.inl ⟨hlt, lt_of_getElem?_lt hvalues hva hvb hlt⟩
  · -- the same character ends the common prefix only when it is the terminator of both
    refine Or.inr (Or.inr ⟨heq, ?_⟩)
    have hchar := charVal_injective sg heq
    have hend : ¬ (k < a.len ∧ k < b.len) := by
      rintro ⟨hla, hlb⟩
      have hne := ((lcpLen_eq_iff _ _ _).mp hk.symm).2.2.2
      rw [StringSet.length_chars, StringSet.length_chars, StringSet.getElem?_chars _ a hla,
        StringSet.getElem?_chars _ b hlb] at hne
      rcases hne with h | h | h
      · exact hla.ne h
      · exact hlb.ne h
      · exact h (congrArg some hchar)
    have hboth : k = a.len ∧ k = b.len := by
      change k ≤ a.len at ha
      change k ≤ b.len at hb
      rcases Nat.eq_or_lt_of_le ha with hla | hla
      · refine ⟨hla, le_antisymm hb (not_lt.mp fun hlb => b.notNul k hlb ?_)⟩
        rw [← hchar, hla, a.nul]
      · have hlb : k = b.len := le_antisymm hb (not_lt.mp fun hlb => hend ⟨hla, hlb⟩)
        refine absurd ?_ (a.notNul k hla)
        rw [hchar, hlb, b.nul]
    have hsame : (GenericCharStringSet sg mem).chars a = (GenericCharStringSet sg mem).chars b := by
      apply eq_of_lcpLen_eq
      · rw [← hk, StringSet.length_chars]
        exact hboth.1.ge
      · rw [← hk, StringSet.length_chars]
        exact hboth.2.ge
    rw [values, values, hsame]
  · exact Or.inr (Or.inl ⟨hgt, lt_of_getElem?_lt hvalues.symm hvb hva hgt⟩)

/-- NUL-terminated strings are ordered by their characters, the terminator included. -/
theorem GenericCharStringSet.orderedBy (sg : Bool) (mem : ℕ → CharType) :
    (GenericCharStringSet sg mem).OrderedBy (values sg mem) := by
  refine ⟨lawful sg mem, fun a b c hab hbc => ?_, fun a b k hk => ?_, fun a b k hk h => ?_,
    fun a b k hk h => ?_⟩
  · have hval := lcpLen_of_between hab hbc
    have hterm := fun s t => lcpLen_terminated (zero_not_mem sg mem s) (zero_not_mem sg mem t)
    have h₁ := hterm a b
    have h₂ := hterm b c
    have h₃ := hterm a c
    have hle := lcpLen_le_right ((GenericCharStringSet sg mem).chars a)
      ((GenericCharStringSet sg mem).chars b)
    rw [lcpLen_map fun _ _ => charVal_injective sg, List.length_map] at h₁ h₂ h₃
    rw [values, values, values] at hval
    omega
  · change decide (charVal sg (mem (a.ptr + k)) ≤ charVal sg (mem (b.ptr + k))) = true ↔ _
    rw [decide_eq_true_iff]
    rcases compare_values hk with ⟨h₁, h₂⟩ | ⟨h₁, h₂⟩ | ⟨h₁, h₂⟩
    · exact iff_of_true h₁.le h₂.le
    · exact iff_of_false (not_le.mpr h₁) (not_le.mpr h₂)
    · exact iff_of_true h₁.le h₂.le
  · change decide (charVal sg (mem (a.ptr + k)) < charVal sg (mem (b.ptr + k))) = true at h
    rw [decide_eq_true_iff] at h
    rcases compare_values hk with ⟨-, h₂⟩ | ⟨h₁, -⟩ | ⟨-, h₂⟩
    · exact h₂.le
    · exact absurd h (lt_asymm h₁)
    · exact h₂.le
  · change decide (charVal sg (mem (a.ptr + k)) < charVal sg (mem (b.ptr + k))) = false at h
    rw [decide_eq_false_iff_not] at h
    rcases compare_values hk with ⟨h₁, -⟩ | ⟨-, h₂⟩ | ⟨-, h₂⟩
    · exact absurd h₁ h
    · exact h₂.le
    · exact h₂.ge

/-- Sets with the base comparisons are ordered by their characters. -/
theorem StringSet.BaseDerived.orderedBy {S : Type} {ss : StringSet S} (h : ss.BaseDerived) :
    ss.OrderedBy ss.values := by
  have hlaw := h.lawful
  have hinj : Function.Injective (charVal ss.signedChar) := fun _ _ => charVal_injective _
  have hlcp : ∀ a b, lcpLen (ss.values a) (ss.values b) = lcpLen (ss.chars a) (ss.chars b) :=
    fun a b => lcpLen_map hinj _ _
  have hend : ∀ s k, k ≤ ss.length s →
      ss.isEnd s (ss.getChars s k) = ((ss.values s)[k]?).isNone := by
    intro s k hk
    rw [Bool.eq_iff_iff, hlaw.isEnd_iff s k hk, Option.isNone_iff_eq_none,
      List.getElem?_eq_none_iff, StringSet.values, List.length_map, ss.length_chars]
    omega
  have hderef : ∀ s k v, (ss.values s)[k]? = some v →
      charVal ss.signedChar (ss.deref (ss.getChars s k)) = v := by
    intro s k v hv
    rw [StringSet.values, List.getElem?_map] at hv
    obtain ⟨c, hc, rfl⟩ := Option.map_eq_some_iff.mp hv
    have hlt := (List.getElem?_eq_some_iff.mp hc).1
    rw [ss.length_chars] at hlt
    rw [ss.getElem?_chars s hlt, Option.some_inj] at hc
    rw [hc]
  have hle : ∀ a b k, k = lcpLen (ss.chars a) (ss.chars b) → k ≤ ss.length a ∧ k ≤ ss.length b :=
    fun a b k hk => by
      rw [← ss.length_chars a, ← ss.length_chars b, hk]
      exact ⟨lcpLen_le_left _ _, lcpLen_le_right _ _⟩
  -- `is_less` and `is_leq` differ in the comparison of characters only
  have hless : ∀ a b k, k = lcpLen (ss.chars a) (ss.chars b) →
      (ss.isLess a (ss.getChars a k) b (ss.getChars b k) = true ↔ ss.values a ≤ ss.values b) := by
    intro a b k hk
    rw [h.isLess_eq, StringSetBase.isLess, hend a k (hle a b k hk).1, hend b k (hle a b k hk).2]
    rcases compare_lcpLen (hk.trans (hlcp a b).symm) with ⟨h₁, h₂, heq⟩ | ⟨h₁, ⟨d, h₂⟩, hlt⟩ |
        ⟨⟨c, h₁⟩, h₂, hlt⟩ | ⟨c, d, h₁, h₂, hne, hiff⟩
    · rw [h₁]
      exact iff_of_true rfl heq.le
    · rw [h₁]
      exact iff_of_true rfl hlt.le
    · simpa [h₁, h₂] using hlt
    · rw [hderef a k c h₁, hderef b k d h₂, h₁, h₂]
      simp only [Option.isNone_some, Bool.false_or, Bool.not_false, Bool.true_and,
        decide_eq_true_eq]
      refine hiff.trans ⟨le_of_lt, fun hle => lt_of_le_of_ne hle fun heq => ?_⟩
      rw [heq, h₂, Option.some_inj] at h₁
      exact hne h₁.symm
  have hleq : ∀ a b k, k = lcpLen (ss.chars a) (ss.chars b) →
      (ss.isLeq a (ss.getChars a k) b (ss.getChars b k) =
        ss.isLess a (ss.getChars a k) b (ss.getChars b k)) := by
    intro a b k hk
    rw [h.isLess_eq, h.isLeq_eq, StringSetBase.isLess, StringSetBase.isLeq,
      hend a k (hle a b k hk).1, hend b k (hle a b k hk).2]
    rcases compare_lcpLen (hk.trans (hlcp a b).symm) with ⟨h₁, -, -⟩ | ⟨h₁, -, -⟩ |
        ⟨-, h₂, -⟩ | ⟨c, d, h₁, h₂, hne, -⟩
    · simp [h₁]
    · simp [h₁]
    · simp [h₂]
    · rw [hderef a k c h₁, hderef b k d h₂, h₁, h₂]
      simp only [le_iff_lt_or_eq, hne, or_false]
  refine ⟨hlaw, fun a b c hab hbc => ?_, fun a b k hk => ?_, fun a b k hk => (hless a b k hk).mp,
    fun a b k hk hfalse => ?_⟩
  · rw [← hlcp, ← hlcp, ← hlcp]
    exact lcpLen_of_between hab hbc
  · rw [hleq a b k hk]
    exact hless a b k hk
  · rw [← Bool.not_eq_true, hless a b k hk] at hfalse
    exact (not_le.mp hfalse).le

/-- Each set has an order of its own. -/
theorem StringSetOf.orderedBy {S : Type} {ss : StringSet S} (h : StringSetOf ss) :
    ∃ f : S → List ℤ, ss.OrderedBy f := by
  rcases h.generic_or_base with ⟨sg, mem, rfl, rfl⟩ | hbase
  · exact ⟨_, GenericCharStringSet.orderedBy sg mem⟩
  · exact ⟨_, hbase.orderedBy⟩

/-! ## Sets that the sorters can sort -/

/-- A string set without zero characters that compares unsigned characters: keys are those of the
characters, and comparisons at the end of the common prefix decide the order. -/
structure StringSet.Sortable {S : Type} (ss : StringSet S) : Prop where
  lawful : ss.Lawful
  noNul : ∀ s, NoNul (ss.chars s)
  key_eq : ∀ s d, d ≤ ss.length s → getUint64 ss s d = keyAt (ss.chars s) d
  isLeq_iff : ∀ a b k, k = lcpLen (ss.chars a) (ss.chars b) →
    (ss.isLeq a (ss.getChars a k) b (ss.getChars b k) = true ↔ ss.chars a ≤ ss.chars b)
  le_of_isLess : ∀ a b k, k = lcpLen (ss.chars a) (ss.chars b) →
    ss.isLess a (ss.getChars a k) b (ss.getChars b k) = true → ss.chars a ≤ ss.chars b
  ge_of_not_isLess : ∀ a b k, k = lcpLen (ss.chars a) (ss.chars b) →
    ss.isLess a (ss.getChars a k) b (ss.getChars b k) = false → ss.chars b ≤ ss.chars a

theorem StringSet.Sortable.orderedBy {S : Type} {ss : StringSet S} (h : ss.Sortable) :
    ss.OrderedBy ss.chars :=
  ⟨h.lawful, fun _ _ _ hab hbc => lcpLen_of_between hab hbc, h.isLeq_iff, h.le_of_isLess,
    h.ge_of_not_isLess⟩

/-- Keys of neighbouring strings say how long their common prefix is. -/
theorem lcp_of_keys {S : Type} {ss : StringSet S} (hset : ss.Sortable) {a b : S} {depth lcp : ℕ}
    {c : CharType} (hshare : SharePrefix depth (ss.chars a) (ss.chars b))
    (hlcp : lcp = lcpKeyType (keyAt (ss.chars a) depth) (keyAt (ss.chars b) depth))
    (hchar : c = getCharAtDepth (keyAt (ss.chars b) depth) lcp)
    (hne : keyAt (ss.chars a) depth ≠ keyAt (ss.chars b) depth) :
    lcpLen (ss.chars a) (ss.chars b) = depth + lcp ∧ (ss.chars b).getD (depth + lcp) 0 = c := by
  obtain ⟨h₁, h₂⟩ := lcpLen_of_keyAt_ne (hset.noNul a) (hset.noNul b) hshare hne
  rw [← hlcp] at h₁ h₂
  exact ⟨h₁, by rw [hchar, getCharAtDepth_keyAt _ _ h₂]⟩

/-- A set whose own order is that of the characters can be sorted. -/
theorem StringSet.OrderedBy.sortable {S ι : Type} [LinearOrder ι] {ss : StringSet S} {f : S → ι}
    (h : ss.OrderedBy f) (hsg : ss.signedChar = false) (hnul : ∀ s, NoNul (ss.chars s))
    (hf : ∀ a b, f a < f b ↔ ss.chars a < ss.chars b) : ss.Sortable := by
  have hle : ∀ a b, f a ≤ f b ↔ ss.chars a ≤ ss.chars b := fun a b => by
    rw [← not_lt, hf, not_lt]
  refine ⟨h.lawful, hnul, fun s d hd => ?_, fun a b k hk => (h.isLeq_iff a b k hk).trans (hle a b),
    fun a b k hk hless => (hle a b).mp (h.le_of_isLess a b k hk hless),
    fun a b k hk hless => (hle b a).mp (h.ge_of_not_isLess a b k hk hless)⟩
  have hkey := isKey_getUint64 h.lawful s d hd
  rw [hsg] at hkey
  exact (hkey.eq_iff (isKey_keyAt _ d)).mpr rfl

theorem UCharStringSet.sortable (mem : ℕ → CharType) : (UCharStringSet mem).Sortable := by
  refine (GenericCharStringSet.orderedBy false mem).sortable rfl
    (GenericCharStringSet.noNul false mem) fun a b => ?_
  -- every character is above the terminator
  have hpos : ∀ s, ∀ v ∈ ((GenericCharStringSet false mem).chars s).map (charVal false), 0 < v := by
    intro s v hv
    obtain ⟨c, hc, rfl⟩ := List.mem_map.mp hv
    exact lt_of_le_of_ne (Int.natCast_nonneg _)
      (charVal_ne_zero (GenericCharStringSet.noNul false mem s c hc)).symm
  exact (terminated_lt_iff (hpos a) (hpos b)).trans (map_charVal_lt_iff _ _)

/-- A set with the base comparisons can be sorted when its characters are unsigned and none is
zero. -/
theorem StringSet.BaseDerived.sortable {S : Type} {ss : StringSet S} (h : ss.BaseDerived)
    (hsg : ss.signedChar = false) (hnul : ∀ s, NoNul (ss.chars s)) : ss.Sortable := by
  refine h.orderedBy.sortable hsg hnul fun a b => ?_
  rw [StringSet.values, StringSet.values, hsg]
  exact map_charVal_lt_iff _ _

theorem UCharSuffixSet.sortable {mem : ℕ → CharType} {text textSize : ℕ}
    (hnul : ∀ i < textSize, mem (text + i) ≠ 0) : (UCharSuffixSet mem text textSize).Sortable := by
  refine (UCharSuffixSet.baseDerived mem text textSize).sortable rfl fun s c hc => ?_
  obtain ⟨k, hk, rfl⟩ := List.mem_map.mp hc
  have hlt : k < textSize - s := List.mem_range.mp hk
  show mem (text + s + k) ≠ 0
  rw [Nat.add_assoc]
  exact hnul _ (by omega)

/-! ## Signed characters of seven bits -/

/-- The top bit of a character is clear, and it is not the terminator. -/
def SevenBit (c : CharType) : Prop := c ≠ 0 ∧ c.toNat < 128

theorem anyHigh_window {x : List CharType} (h : ∀ c ∈ x, SevenBit c) (k : ℕ) :
    anyHigh (window k x) = false := by
  induction k generalizing x with
  | zero => rfl
  | succ k ih =>
    cases x with
    | nil => exact (anyHigh_cons _ _).trans (by simpa using ih (by simp))
    | cons c cs =>
      have hc := (h c List.mem_cons_self).2
      have hcs := ih fun d hd => h d (List.mem_cons_of_mem c hd)
      exact (anyHigh_cons _ _).trans (by simpa [hcs] using hc)

/-- The sign of seven-bit characters does not matter for a key. -/
theorem keyBytes_of_sevenBit (sg : Bool) {x : List CharType} (h : ∀ c ∈ x, SevenBit c) (k : ℕ) :
    keyBytes sg (window k x) = window k x := by
  unfold keyBytes
  split
  · exact smear_of_not_anyHigh (anyHigh_window h k)
  · rfl

theorem charVal_of_sevenBit (sg : Bool) {c : CharType} (h : SevenBit c) :
    charVal sg c = charVal false c := by
  cases sg with
  | false => rfl
  | true => exact BitVec.toInt_eq_toNat_of_lt (by have := h.2; omega)

/-- A set with the base comparisons can be sorted when all of its characters are of seven bits,
also when they are signed. -/
theorem StringSet.BaseDerived.sortable_of_sevenBit {S : Type} {ss : StringSet S}
    (h : ss.BaseDerived) (hchars : ∀ s, ∀ c ∈ ss.chars s, SevenBit c) : ss.Sortable := by
  have hvalues : ∀ s, ss.values s = (ss.chars s).map (charVal false) := fun s =>
    List.map_congr_left fun c hc => charVal_of_sevenBit _ (hchars s c hc)
  have hle : ∀ a b, ss.values a ≤ ss.values b ↔ ss.chars a ≤ ss.chars b := by
    intro a b
    rw [← not_lt, hvalues, hvalues, map_charVal_lt_iff, not_lt]
  have horder := h.orderedBy
  refine ⟨h.lawful, fun s c hc => (hchars s c hc).1, fun s d hd => ?_,
    fun a b k hk => (horder.isLeq_iff a b k hk).trans (hle a b),
    fun a b k hk hless => (hle a b).mp (horder.le_of_isLess a b k hk hless),
    fun a b k hk hless => (hle b a).mp (horder.ge_of_not_isLess a b k hk hless)⟩
  -- the key of the set is that of its characters
  have hkey := isKey_getUint64 h.lawful s d hd
  rw [keyBytes_of_sevenBit _ fun c hc => hchars s c (List.mem_of_mem_drop hc)] at hkey
  exact (hkey.eq_iff (isKey_keyAt _ d)).mpr rfl

theorem StringSuffixSet.sortable {mem : ℕ → CharType} {text : StdString}
    (hchars : ∀ i < text.size, SevenBit (mem (text.data + i))) :
    (StringSuffixSet mem text).Sortable := by
  refine (StringSuffixSet.baseDerived mem text).sortable_of_sevenBit fun s c hc => ?_
  obtain ⟨k, hk, rfl⟩ := List.mem_map.mp hc
  have hlt : k < text.size - s := List.mem_range.mp hk
  show SevenBit (mem (text.data + s + k))
  rw [Nat.add_assoc]
  exact hchars _ (Nat.add_lt_of_lt_sub' hlt)

end StringSampleSort
