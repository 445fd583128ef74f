import StringSampleSort.Library.Slice
import StringSampleSort.Tools.StringSet

/-!
# String pointers

Model of the five string pointer classes of `src/tools/stringptr.hpp` that the parallel sample
sort works on.  A pointer holds a range of the active string array and the same range of the
shadow array, to which strings are moved at the next sorting level; both change their roles
there.  Some classes have an output array of their own, LCPs, and distinguishing characters.

The pointers that a sort works with all come from one, by `sub` and `flip`, and are determined by
their place, their size and whether they are flipped.

## Main results

- `StringPtrClass.sub_pointer`, `StringPtrClass.flipSub_pointer`: subranges
- `StringPtrClass.copyBack_pointer`: what `copy_back` does
- `StringPtrClass.fillLcp_pointer`: what `fill_lcp` does
-/

namespace StringSampleSort

open Library Slice

/-! ## Model -/

/-- The string arrays of a sort. -/
inductive StringArray
  | original
  | shadow
  | output
  deriving DecidableEq, Repr

/-- What the pointers of a sort point to. -/
@[ext] structure Memory (S : Type) where
  strings : StringArray → ℕ → S
  lcps : ℕ → ℕ
  cache : ℕ → CharType

/-- A string set of so many strings from an iterator on. -/
structure StringRange where
  array : StringArray
  begin : ℕ
  size : ℕ
  deriving DecidableEq, Repr

namespace StringRange

/-- `subi(first, last)`. -/
def subi (r : StringRange) (first last : ℕ) : StringRange :=
  { r with begin := r.begin + first, size := last - first }

/-- `at(i)`. -/
def get {S : Type} (r : StringRange) (m : Memory S) (i : ℕ) : S := m.strings r.array (r.begin + i)

end StringRange

namespace Memory

variable {S : Type} (m : Memory S)

/-- The strings of a range are overwritten. -/
def write (r : StringRange) (A : ℕ → S) : Memory S :=
  { m with
    strings := Function.update m.strings r.array
      (splice (m.strings r.array) r.begin r.size A) }

/-- `std::move(src.begin(), src.end(), dst.begin())`. -/
def move (src dst : StringRange) : Memory S := m.write { dst with size := src.size } (src.get m)

end Memory

/-- The string pointer classes. -/
inductive StringPtrClass
  | StringShadowPtr
  | StringShadowOutPtr
  | StringShadowLcpPtr
  | StringShadowLcpOutPtr
  | StringShadowLcpCacheOutPtr
  deriving DecidableEq, Repr

/-- A string pointer.  `output`, `lcps` and `cache` are used by the classes that have them;
`lcps` and `cache` are the places of the first entry. -/
structure StringPtr where
  active : StringRange
  shadow : StringRange
  output : StringRange
  lcps : ℕ
  cache : ℕ
  flipped : Bool
  deriving DecidableEq, Repr

namespace StringPtr

/-- `size()`. -/
def size (sp : StringPtr) : ℕ := sp.active.size

/-- `sub(offset, size)`. -/
def sub (sp : StringPtr) (offset size : ℕ) : StringPtr where
  active := sp.active.subi offset (offset + size)
  shadow := sp.shadow.subi offset (offset + size)
  output := sp.output.subi offset (offset + size)
  lcps := sp.lcps + offset
  cache := sp.cache + offset
  flipped := sp.flipped

/-- `flip(offset, size)`. -/
def flipSub (sp : StringPtr) (offset size : ℕ) : StringPtr where
  active := sp.shadow.subi offset (offset + size)
  shadow := sp.active.subi offset (offset + size)
  output := sp.output.subi offset (offset + size)
  lcps := sp.lcps + offset
  cache := sp.cache + offset
  flipped := !sp.flipped

/-- `flip()`. -/
def flip (sp : StringPtr) : StringPtr :=
  { sp with active := sp.shadow, shadow := sp.active, flipped := !sp.flipped }

/-- `original()`. -/
def original (sp : StringPtr) : StringPtr := if sp.flipped then sp.flip else sp

end StringPtr

namespace StringPtrClass

/-- `with_lcp`. -/
def withLcp : StringPtrClass → Bool
  | StringShadowPtr | StringShadowOutPtr => false
  | _ => true

/-- The class has a separate output array. -/
def hasOutput : StringPtrClass → Bool
  | StringShadowPtr | StringShadowLcpPtr => false
  | _ => true

/-- The class has an array of distinguishing characters. -/
def hasCache : StringPtrClass → Bool
  | StringShadowLcpCacheOutPtr => true
  | _ => false

variable (cls : StringPtrClass)

/-- `output()`. -/
def output (sp : StringPtr) : StringRange := if cls.hasOutput then sp.output else sp.active

section Operations

variable {S : Type}

/-- `copy_back()`: the pointer that it returns, and the strings that it moves. -/
def copyBack (sp : StringPtr) (m : Memory S) : StringPtr × Memory S :=
  if cls.hasOutput then
    (sp.original,
      if (sp.active.array, sp.active.begin) ≠ (sp.output.array, sp.output.begin) then
        m.move sp.active sp.output else m)
  else if !sp.flipped then (sp, m)
  else (sp.flip, m.move sp.active sp.shadow)

/-- `set_lcp(i, v)`, without its own assertions: one of them compares `v` with the `unsigned int` that
`calc_lcp` returns, and fails for prefixes of `2 ^ 32` characters. -/
def setLcp (sp : StringPtr) (i v : ℕ) (m : Memory S) : Memory S :=
  if cls.withLcp then { m with lcps := Function.update m.lcps (sp.lcps + i) v } else m

/-- `set_cache(i, c)`. -/
def setCache (sp : StringPtr) (i : ℕ) (c : CharType) (m : Memory S) : Memory S :=
  if cls.hasCache then { m with cache := Function.update m.cache (sp.cache + i) c } else m

/-- `fill_lcp(v)`. -/
def fillLcp (sp : StringPtr) (v : ℕ) (m : Memory S) : Memory S :=
  if cls.withLcp then
    (List.range' 1 (sp.size - 1)).foldl (fun m i => cls.setCache sp i 0 (cls.setLcp sp i v m)) m
  else m

end Operations

/-! ## The pointers of a sort -/

/-- The array to which strings are moved from the original one: the output array, where there is
one, is the shadow array. -/
def shadowArray : StringArray := if cls.hasOutput then .output else .shadow

/-- The array that holds the strings of a pointer. -/
def activeArray (flipped : Bool) : StringArray := if flipped then cls.shadowArray else .original

/-- The array that holds the sorted strings in the end. -/
def outputArray : StringArray := if cls.hasOutput then .output else .original

/-- The pointer to the `n` strings from place `lo` on. -/
def pointer (flipped : Bool) (lo n : ℕ) : StringPtr where
  active := ⟨cls.activeArray flipped, lo, n⟩
  shadow := ⟨cls.activeArray !flipped, lo, n⟩
  output := ⟨.output, lo, n⟩
  lcps := lo
  cache := lo
  flipped := flipped

variable {cls}

@[simp] theorem size_pointer (f : Bool) (lo n : ℕ) : (cls.pointer f lo n).size = n := rfl

@[simp] theorem sub_pointer (f : Bool) (lo n offset size : ℕ) :
    (cls.pointer f lo n).sub offset size = cls.pointer f (lo + offset) size := by
  simp [pointer, StringPtr.sub, StringRange.subi]

@[simp] theorem flipSub_pointer (f : Bool) (lo n offset size : ℕ) :
    (cls.pointer f lo n).flipSub offset size = cls.pointer (!f) (lo + offset) size := by
  simp [pointer, StringPtr.flipSub, StringRange.subi]

@[simp] theorem flip_pointer (f : Bool) (lo n : ℕ) :
    (cls.pointer f lo n).flip = cls.pointer (!f) lo n := by
  simp [pointer, StringPtr.flip]

@[simp] theorem original_pointer (f : Bool) (lo n : ℕ) :
    (cls.pointer f lo n).original = cls.pointer false lo n := by
  cases f with
  | false => rfl
  | true => exact flip_pointer true lo n

@[simp] theorem output_pointer (lo n : ℕ) :
    cls.output (cls.pointer false lo n) = ⟨cls.outputArray, lo, n⟩ := by
  rw [output, outputArray]
  split <;> rfl

theorem activeArray_ne (f : Bool) : cls.activeArray (!f) ≠ cls.activeArray f := by
  cases cls <;> cases f <;> decide

section Operations

variable {S : Type} (m : Memory S)

variable (cls) in
/-- The strings of a window are moved to the output array. -/
def copyOut (f : Bool) (lo n : ℕ) (m : Memory S) : Memory S :=
  m.write ⟨cls.outputArray, lo, n⟩ fun i => m.strings (cls.activeArray f) (lo + i)

theorem write_self (r : StringRange) : m.write r (fun i => m.strings r.array (r.begin + i)) = m := by
  rw [Memory.write, splice_self, Function.update_eq_self]

/-- `copy_back` leaves the strings in the output array and returns an unflipped pointer. -/
theorem copyBack_pointer (f : Bool) (lo n : ℕ) :
    cls.copyBack (cls.pointer f lo n) m = (cls.pointer false lo n, cls.copyOut f lo n m) := by
  have hself : cls.activeArray f = cls.outputArray → cls.copyOut f lo n m = m := by
    intro h
    rw [copyOut, h]
    exact write_self m ⟨cls.outputArray, lo, n⟩
  rw [copyBack]
  by_cases hout : cls.hasOutput = true
  · rw [if_pos hout, original_pointer]
    refine congrArg _ ?_
    have hO : cls.outputArray = .output := if_pos hout
    have hS : cls.activeArray true = .output := if_pos hout
    cases f with
    | false =>
      rw [if_pos (by simp [pointer, activeArray])]
      rw [copyOut, hO]
      rfl
    | true =>
      rw [if_neg (by simp [pointer, hS])]
      exact (hself (hS.trans hO.symm)).symm
  · rw [if_neg hout]
    have hO : cls.outputArray = .original := if_neg hout
    cases f with
    | false => exact congrArg _ (hself hO.symm).symm
    | true =>
      refine Prod.ext (flip_pointer true lo n) ?_
      rw [copyOut, hO]
      rfl

variable (cls) in
/-- The memory after `fill_lcp`: the entries of the window behind the first one are set. -/
def filled (lo n v : ℕ) (m : Memory S) : Memory S :=
  { m with
    lcps := if cls.withLcp then splice m.lcps (lo + 1) (n - 1) (fun _ => v) else m.lcps
    cache := if cls.hasCache then splice m.cache (lo + 1) (n - 1) (fun _ => 0) else m.cache }

theorem fillLcp_pointer (f : Bool) (lo n v : ℕ) :
    cls.fillLcp (cls.pointer f lo n) v m = cls.filled lo n v m := by
  have hcache : cls.withLcp = false → cls.hasCache = false := by
    cases cls <;> decide
  rw [fillLcp, filled]
  split
  · next hlcp =>
    have hloop : ∀ k, (List.range' 1 k).foldl (fun m i =>
        cls.setCache (cls.pointer f lo n) i 0 (cls.setLcp (cls.pointer f lo n) i v m)) m =
        { m with
          lcps := splice m.lcps (lo + 1) k (fun _ => v)
          cache := if cls.hasCache then splice m.cache (lo + 1) k (fun _ => 0) else m.cache } := by
      intro k
      induction k with
      | zero =>
        rw [splice_zero, splice_zero, ite_self]
        rfl
      | succ k ih =>
        rw [List.range'_1_concat, List.foldl_append, ih, List.foldl_cons, List.foldl_nil, setCache,
          setLcp, if_pos hlcp, splice_succ, splice_succ,
          show lo + 1 + k = lo + (1 + k) by omega]
        split <;> rfl
    exact hloop (n - 1)
  · next hlcp =>
    rw [if_neg (by rw [hcache (Bool.not_eq_true _ ▸ hlcp)]; simp)]

end Operations

end StringPtrClass

end StringSampleSort
