import StringSampleSort.Library.BigEndian
import Mathlib.Data.List.Range

/-!
# The `StringSet` concept

Model of `src/tools/stringset.hpp`: the CRTP base class `StringSetBase` and the six
string sets derived from it.

A `CharIterator` is an address into a character memory, so that an iterator of one
string can be compared with the end of another one, as the code may do.
`Traits::Char` is `unsigned char` or `char`, which is signed on x86-64; the memory
holds raw bytes and the set knows how a byte is read as a number.
-/

namespace StringSampleSort

open Library (lcpLen lcpLen_cons lcpLen_nil_left lcpLen_nil_right)

/-- One raw character, as it lies in memory. -/
abbrev CharType := BitVec 8

/-! ## Characters -/

/-- The value of `*i` in a comparison: integer promotion of the set's `Char`. -/
def charVal (signedChar : Bool) (c : CharType) : ℤ :=
  if signedChar then c.toInt else c.toNat

/-- The value of `uint64_t(*i)`: sign extended for `char`, zero extended for
`unsigned char`. -/
def charUint64 (signedChar : Bool) (c : CharType) : BitVec 64 :=
  if signedChar then c.signExtend 64 else c.setWidth 64

theorem charVal_lt_iff_unsigned (c d : CharType) :
    charVal false c < charVal false d ↔ c.toNat < d.toNat := by
  simp [charVal]

theorem charVal_injective (signedChar : Bool) {c d : CharType}
    (h : charVal signedChar c = charVal signedChar d) : c = d := by
  cases signedChar with
  | false => exact BitVec.eq_of_toNat_eq (by simpa [charVal] using h)
  | true => exact BitVec.eq_of_toInt_eq (by simpa [charVal] using h)

/-! ## The concept -/

/-- A string set: how the characters of a string are reached and compared.
`S` is `Traits::String`. -/
structure StringSet (S : Type) where
  /-- the memory behind every `CharIterator` -/
  deref : ℕ → CharType
  /-- `Traits::Char` is `char` -/
  signedChar : Bool
  /-- `get_chars(s, depth)` -/
  getChars : S → ℕ → ℕ
  /-- `is_end(s, i)` -/
  isEnd : S → ℕ → Bool
  /-- `is_equal(a, ai, b, bi)` -/
  isEqual : S → ℕ → S → ℕ → Bool
  /-- `is_less(a, ai, b, bi)` -/
  isLess : S → ℕ → S → ℕ → Bool
  /-- `is_leq(a, ai, b, bi)` -/
  isLeq : S → ℕ → S → ℕ → Bool
  /-- number of characters of a string, the position of its end -/
  length : S → ℕ

namespace StringSetBase

variable {S : Type} (isEnd : S → ℕ → Bool) (deref : ℕ → CharType) (signedChar : Bool)

/-- `StringSetBase::is_equal`. -/
def isEqual (a : S) (ai : ℕ) (b : S) (bi : ℕ) : Bool :=
  !isEnd a ai && !isEnd b bi && decide (deref ai = deref bi)

/-- `StringSetBase::is_less`. -/
def isLess (a : S) (ai : ℕ) (b : S) (bi : ℕ) : Bool :=
  isEnd a ai || (!isEnd a ai && !isEnd b bi &&
    decide (charVal signedChar (deref ai) < charVal signedChar (deref bi)))

/-- `StringSetBase::is_leq`. -/
def isLeq (a : S) (ai : ℕ) (b : S) (bi : ℕ) : Bool :=
  isEnd a ai || (!isEnd a ai && !isEnd b bi &&
    decide (charVal signedChar (deref ai) ≤ charVal signedChar (deref bi)))

end StringSetBase

/-! ## NUL-terminated strings -/

/-- A pointer to a NUL-terminated string in the character memory `mem`. -/
@[ext] structure CString (mem : ℕ → CharType) where
  ptr : ℕ
  len : ℕ
  notNul : ∀ k < len, mem (ptr + k) ≠ 0
  nul : mem (ptr + len) = 0

/-- `GenericCharStringSet<CharType>`, which has its own character comparisons. -/
def GenericCharStringSet (signedChar : Bool) (mem : ℕ → CharType) :
    StringSet (CString mem) where
  deref := mem
  signedChar := signedChar
  getChars s depth := s.ptr + depth
  isEnd _ i := decide (mem i = 0)
  isEqual _ ai _ bi := decide (mem ai = mem bi) && decide (mem ai ≠ 0)
  isLess _ ai _ bi := decide (charVal signedChar (mem ai) < charVal signedChar (mem bi))
  isLeq _ ai _ bi := decide (charVal signedChar (mem ai) ≤ charVal signedChar (mem bi))
  length s := s.len

/-- `CharStringSet`. -/
def CharStringSet (mem : ℕ → CharType) : StringSet (CString mem) :=
  GenericCharStringSet true mem

/-- `UCharStringSet`. -/
def UCharStringSet (mem : ℕ → CharType) : StringSet (CString mem) :=
  GenericCharStringSet false mem

/-! ## Length-delimited strings -/

/-- A set that inherits all comparisons of `StringSetBase`. -/
def baseStringSet {S : Type} (deref : ℕ → CharType) (signedChar : Bool)
    (getChars : S → ℕ → ℕ) (isEnd : S → ℕ → Bool) (length : S → ℕ) : StringSet S where
  deref := deref
  signedChar := signedChar
  getChars := getChars
  isEnd := isEnd
  isEqual := StringSetBase.isEqual isEnd deref
  isLess := StringSetBase.isLess isEnd deref signedChar
  isLeq := StringSetBase.isLeq isEnd deref signedChar
  length := length

/-- A `std::string` object: the address of its first character and its size. -/
structure StdString where
  data : ℕ
  size : ℕ

/-- `s.end()`. -/
def StdString.endAddr (s : StdString) : ℕ := s.data + s.size

/-- `VectorStringSet`. -/
def VectorStringSet (mem : ℕ → CharType) : StringSet StdString :=
  baseStringSet mem true (fun s depth => s.data + depth)
    (fun s i => decide (s.endAddr ≤ i)) StdString.size

/-- A `std::unique_ptr<std::string>`. -/
structure UniquePtrString where
  get : StdString

/-- `VectorPtrStringSet`. -/
def VectorPtrStringSet (mem : ℕ → CharType) : StringSet UniquePtrString :=
  baseStringSet mem true (fun s depth => s.get.data + depth)
    (fun s i => decide (s.get.endAddr ≤ i)) (fun s => s.get.size)

/-- A suffix index of a text of `textSize` characters. -/
abbrev SuffixIndex (textSize : ℕ) := Fin (textSize + 1)

/-- `UCharSuffixSet` over the text from `text` to `text + textSize`. -/
def UCharSuffixSet (mem : ℕ → CharType) (text textSize : ℕ) :
    StringSet (SuffixIndex textSize) :=
  baseStringSet mem false (fun s depth => text + s + depth)
    (fun _ i => decide (text + textSize ≤ i)) (fun s => textSize - s)

/-- `StringSuffixSet` over a `std::string` text. -/
def StringSuffixSet (mem : ℕ → CharType) (text : StdString) :
    StringSet (SuffixIndex text.size) :=
  baseStringSet mem true (fun s depth => text.data + s + depth)
    (fun _ i => decide (text.endAddr ≤ i)) (fun s => text.size - s)

/-- The string set types of `stringset.hpp`. -/
inductive StringSetOf : {S : Type} → StringSet S → Prop
  | charStringSet (mem : ℕ → CharType) : StringSetOf (CharStringSet mem)
  | ucharStringSet (mem : ℕ → CharType) : StringSetOf (UCharStringSet mem)
  | vectorStringSet (mem : ℕ → CharType) : StringSetOf (VectorStringSet mem)
  | vectorPtrStringSet (mem : ℕ → CharType) : StringSetOf (VectorPtrStringSet mem)
  | ucharSuffixSet (mem : ℕ → CharType) (text textSize : ℕ) :
      StringSetOf (UCharSuffixSet mem text textSize)
  | stringSuffixSet (mem : ℕ → CharType) (text : StdString) :
      StringSetOf (StringSuffixSet mem text)

/-! ## Scanning two strings

The loop `while (ss.is_equal(a, ai, b, bi)) ++ai, ++bi;` of `check_order`, `calc_lcp`
and the insertion sorts. -/

/-- The iterators after at most `fuel` rounds of the scan; the end of `a` stops the
scan after at most `length a` rounds. -/
def StringSet.scanEqual {S : Type} (ss : StringSet S) (a b : S) : ℕ → ℕ → ℕ → ℕ × ℕ
  | 0, ai, bi => (ai, bi)
  | fuel + 1, ai, bi =>
    if ss.isEqual a ai b bi then ss.scanEqual a b fuel (ai + 1) (bi + 1) else (ai, bi)

/-! ## What all six sets share -/

namespace StringSet

variable {S : Type} (ss : StringSet S)

/-- The characters of a string. -/
def chars (s : S) : List CharType :=
  (List.range (ss.length s)).map fun k => ss.deref (ss.getChars s k)

/-- The laws of the concept: iterators advance with the depth, and within a string
`is_end` holds at its end only. -/
structure Lawful : Prop where
  getChars_add : ∀ s depth, ss.getChars s depth = ss.getChars s 0 + depth
  isEnd_iff : ∀ s k, k ≤ ss.length s →
    (ss.isEnd s (ss.getChars s k) = true ↔ k = ss.length s)
  isEqual_iff : ∀ a b i j, i ≤ ss.length a → j ≤ ss.length b →
    (ss.isEqual a (ss.getChars a i) b (ss.getChars b j) = true ↔
      i < ss.length a ∧ j < ss.length b ∧
        ss.deref (ss.getChars a i) = ss.deref (ss.getChars b j))

/-- A set derived from `StringSetBase` without redefining anything: its strings end
at a position, whatever the characters are. -/
structure BaseDerived : Prop where
  getChars_add : ∀ s depth, ss.getChars s depth = ss.getChars s 0 + depth
  isEnd_iff : ∀ s i, ss.isEnd s i = true ↔ ss.getChars s (ss.length s) ≤ i
  isEqual_eq : ss.isEqual = StringSetBase.isEqual ss.isEnd ss.deref
  isLess_eq : ss.isLess = StringSetBase.isLess ss.isEnd ss.deref ss.signedChar
  isLeq_eq : ss.isLeq = StringSetBase.isLeq ss.isEnd ss.deref ss.signedChar

@[simp] theorem length_chars (s : S) : (ss.chars s).length = ss.length s := by
  simp [chars]

theorem getElem?_chars (s : S) {k : ℕ} (hk : k < ss.length s) :
    (ss.chars s)[k]? = some (ss.deref (ss.getChars s k)) := by
  simp [chars, hk]

theorem drop_chars_cons (s : S) {k : ℕ} (hk : k < ss.length s) :
    (ss.chars s).drop k = ss.deref (ss.getChars s k) :: (ss.chars s).drop (k + 1) := by
  rw [List.drop_eq_getElem_cons (by simpa using hk)]
  simp [chars]

theorem drop_chars_nil (s : S) {k : ℕ} (hk : ss.length s ≤ k) : (ss.chars s).drop k = [] :=
  List.drop_of_length_le (by simpa using hk)

variable {ss}

/-- The scan stops behind the longest common prefix of the remaining characters. -/
theorem scanEqual_eq (h : ss.Lawful) (a b : S) (fuel i j : ℕ) (hi : i ≤ ss.length a)
    (hj : j ≤ ss.length b) (hfuel : ss.length a - i ≤ fuel) :
    ss.scanEqual a b fuel (ss.getChars a i) (ss.getChars b j) =
      (ss.getChars a (i + lcpLen ((ss.chars a).drop i) ((ss.chars b).drop j)),
       ss.getChars b (j + lcpLen ((ss.chars a).drop i) ((ss.chars b).drop j))) := by
  induction fuel generalizing i j with
  | zero =>
    rw [ss.drop_chars_nil a (by omega)]
    simp [scanEqual]
  | succ fuel ih =>
    rw [scanEqual]
    by_cases heq : ss.isEqual a (ss.getChars a i) b (ss.getChars b j) = true
    · obtain ⟨hia, hjb, hc⟩ := (h.isEqual_iff a b i j hi hj).mp heq
      have hsuc := ih (i + 1) (j + 1) hia hjb (by omega)
      rw [if_pos heq, show ss.getChars a i + 1 = ss.getChars a (i + 1) by
          rw [h.getChars_add a i, h.getChars_add a (i + 1)]; omega,
        show ss.getChars b j + 1 = ss.getChars b (j + 1) by
          rw [h.getChars_add b j, h.getChars_add b (j + 1)]; omega, hsuc,
        ss.drop_chars_cons a hia, ss.drop_chars_cons b hjb, lcpLen_cons, if_pos hc]
      simp only [Nat.add_assoc, Nat.add_comm 1]
    · have hzero : lcpLen ((ss.chars a).drop i) ((ss.chars b).drop j) = 0 := by
        rcases Nat.lt_or_ge i (ss.length a) with hia | hia
        · rcases Nat.lt_or_ge j (ss.length b) with hjb | hjb
          · rw [ss.drop_chars_cons a hia, ss.drop_chars_cons b hjb, lcpLen_cons, if_neg]
            exact fun hc => heq ((h.isEqual_iff a b i j hi hj).mpr ⟨hia, hjb, hc⟩)
          · rw [ss.drop_chars_nil b hjb, lcpLen_nil_right]
        · rw [ss.drop_chars_nil a hia, lcpLen_nil_left]
      rw [if_neg heq, hzero]
      rfl

end StringSet

theorem GenericCharStringSet.lawful (signedChar : Bool) (mem : ℕ → CharType) :
    (GenericCharStringSet signedChar mem).Lawful where
  getChars_add s depth := by simp [GenericCharStringSet]
  isEnd_iff s k hk := by
    change k ≤ s.len at hk
    show decide (mem (s.ptr + k) = 0) = true ↔ k = s.len
    rw [decide_eq_true_iff]
    refine ⟨fun h => ?_, fun h => h ▸ s.nul⟩
    by_contra hne
    exact s.notNul k (by omega) h
  isEqual_iff a b i j hi hj := by
    change i ≤ a.len at hi
    change j ≤ b.len at hj
    show (decide (mem (a.ptr + i) = mem (b.ptr + j)) && decide (mem (a.ptr + i) ≠ 0)) = true ↔
      i < a.len ∧ j < b.len ∧ mem (a.ptr + i) = mem (b.ptr + j)
    simp only [Bool.and_eq_true, decide_eq_true_eq]
    constructor
    · rintro ⟨heq, hne⟩
      refine ⟨?_, ?_, heq⟩
      · by_contra h
        exact hne (by rw [show i = a.len by omega]; exact a.nul)
      · by_contra h
        exact hne (by rw [heq, show j = b.len by omega]; exact b.nul)
    · rintro ⟨hlt, -, heq⟩
      exact ⟨heq, a.notNul i hlt⟩

theorem StringSet.BaseDerived.lawful {S : Type} {ss : StringSet S} (h : ss.BaseDerived) :
    ss.Lawful where
  getChars_add := h.getChars_add
  isEnd_iff s k hk := by
    rw [h.isEnd_iff, h.getChars_add s k, h.getChars_add s (ss.length s)]
    omega
  isEqual_iff a b i j hi hj := by
    rw [h.isEqual_eq, StringSetBase.isEqual]
    have ha := h.isEnd_iff a (ss.getChars a i)
    have hb := h.isEnd_iff b (ss.getChars b j)
    rw [h.getChars_add a i, h.getChars_add a (ss.length a)] at ha
    rw [h.getChars_add b j, h.getChars_add b (ss.length b)] at hb
    simp only [Bool.and_eq_true, Bool.not_eq_true', decide_eq_true_eq, ← Bool.not_eq_true,
      h.getChars_add a i, h.getChars_add b j, ha, hb, and_assoc]
    constructor
    · rintro ⟨h₁, h₂, h₃⟩
      exact ⟨by omega, by omega, h₃⟩
    · rintro ⟨h₁, h₂, h₃⟩
      exact ⟨by omega, by omega, h₃⟩

theorem baseStringSet_baseDerived {S : Type} (deref : ℕ → CharType) (signedChar : Bool)
    (getChars : S → ℕ → ℕ) (isEnd : S → ℕ → Bool) (length : S → ℕ)
    (hadd : ∀ s depth, getChars s depth = getChars s 0 + depth)
    (hend : ∀ s i, isEnd s i = true ↔ getChars s (length s) ≤ i) :
    (baseStringSet deref signedChar getChars isEnd length).BaseDerived :=
  ⟨hadd, hend, rfl, rfl, rfl⟩

theorem VectorStringSet.baseDerived (mem : ℕ → CharType) :
    (VectorStringSet mem).BaseDerived :=
  baseStringSet_baseDerived _ _ _ _ _ (by simp) fun _ _ => decide_eq_true_iff

theorem VectorPtrStringSet.baseDerived (mem : ℕ → CharType) :
    (VectorPtrStringSet mem).BaseDerived :=
  baseStringSet_baseDerived _ _ _ _ _ (by simp) fun _ _ => decide_eq_true_iff

theorem UCharSuffixSet.baseDerived (mem : ℕ → CharType) (text textSize : ℕ) :
    (UCharSuffixSet mem text textSize).BaseDerived := by
  refine baseStringSet_baseDerived _ _ _ _ _ (by simp) fun s i => ?_
  have hs := s.isLt
  rw [decide_eq_true_iff]
  omega

theorem StringSuffixSet.baseDerived (mem : ℕ → CharType) (text : StdString) :
    (StringSuffixSet mem text).BaseDerived := by
  refine baseStringSet_baseDerived _ _ _ _ _ (by simp) fun s i => ?_
  have hs := s.isLt
  rw [decide_eq_true_iff, StdString.endAddr]
  omega

/-- Every set is one of NUL-terminated strings or one with the base comparisons. -/
theorem StringSetOf.generic_or_base {S : Type} {ss : StringSet S} (h : StringSetOf ss) :
    (∃ sg mem, ∃ hS : S = CString mem, hS ▸ ss = GenericCharStringSet sg mem) ∨
      ss.BaseDerived := by
  cases h with
  | charStringSet mem => exact Or.inl ⟨true, mem, rfl, rfl⟩
  | ucharStringSet mem => exact Or.inl ⟨false, mem, rfl, rfl⟩
  | vectorStringSet mem => exact Or.inr (VectorStringSet.baseDerived mem)
  | vectorPtrStringSet mem => exact Or.inr (VectorPtrStringSet.baseDerived mem)
  | ucharSuffixSet mem text textSize =>
    exact Or.inr (UCharSuffixSet.baseDerived mem text textSize)
  | stringSuffixSet mem text => exact Or.inr (StringSuffixSet.baseDerived mem text)

theorem StringSetOf.lawful {S : Type} {ss : StringSet S} (h : StringSetOf ss) : ss.Lawful := by
  rcases h.generic_or_base with ⟨sg, mem, rfl, rfl⟩ | hbase
  · exact GenericCharStringSet.lawful sg mem
  · exact hbase.lawful

end StringSampleSort
