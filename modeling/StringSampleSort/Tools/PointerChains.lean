import StringSampleSort.Tools.StringPtr

/-!
# Chains of string pointers

Model of the five string pointer classes of `src/tools/stringptr.hpp`, each with the members and
functions that it has itself.  A sort derives all of its pointers from one by `sub`, `flip` and
`original`, and calls `copy_back` on any of them.

A string set may hold its strings as objects.  A move leaves something behind in the place that a
string is moved from, and this is a parameter of the model.

## Main results

- `moveEach_moved`: what `std::move` does to two arrays
- `PointerClass.Places.run`: every chain of calls leads to a window of the first pointer
- `stringPtr_chains`: all windows of a derived pointer lie at one offset, and `copy_back` leaves
  its strings in the output window
- `PointerClass.KeepsAligned.copyBack_eq`: the classes do what the parallel sort relies on
-/

namespace StringSampleSort

open Library Slice

/-! ## Moving strings -/

section Move

variable {S : Type} (left : S → S → S) (src dst : StringRange)

/-- `*(dst + i) = std::move(*(src + i));`, where a move of `x` onto `y` leaves `left x y` behind. -/
def Memory.moveOne (m : Memory S) (i : ℕ) : Memory S :=
  { m with
    strings := fun arr q =>
      if arr = dst.array ∧ q = dst.begin + i then src.get m i
      else if arr = src.array ∧ q = src.begin + i then left (src.get m i) (dst.get m i)
      else m.strings arr q }

/-- `std::move(src.begin(), src.end(), dst.begin())`. -/
def Memory.moveEach (m : Memory S) : Memory S :=
  (List.range src.size).foldl (Memory.moveOne left src dst) m

end Move

/-! ## The classes -/

/-- `StringShadowPtr`. -/
structure StringShadowPtr where
  active_ : StringRange
  shadow_ : StringRange
  flipped_ : Bool

namespace StringShadowPtr

variable (p : StringShadowPtr)

/-- `flipped()`. -/
@[simp] def flipped : Bool := p.flipped_

/-- `active()`. -/
@[simp] def active : StringRange := p.active_

/-- `shadow()`. -/
@[simp] def shadow : StringRange := p.shadow_

/-- `size()`. -/
@[simp] def size : ℕ := p.active_.size

/-- `sub(offset, _size)`.  No result means that the assertion fails. -/
def sub (offset _size : ℕ) : Option StringShadowPtr :=
  if offset + _size ≤ p.size then
    some ⟨p.active_.subi offset (offset + _size), p.shadow_.subi offset (offset + _size),
      p.flipped_⟩
  else none

/-- `flip(offset, _size)`. -/
def flipSub (offset _size : ℕ) : Option StringShadowPtr :=
  if offset + _size ≤ p.size then
    some ⟨p.shadow_.subi offset (offset + _size), p.active_.subi offset (offset + _size),
      !p.flipped_⟩
  else none

/-- `flip()`. -/
def flip : StringShadowPtr := ⟨p.shadow_, p.active_, !p.flipped_⟩

/-- `original()`. -/
def original : StringShadowPtr := if p.flipped_ then p.flip else p

/-- `output()`, which asserts that the pointer is not flipped. -/
def output : Option StringRange := if !p.flipped_ then some p.active_ else none

/-- `copy_back()`. -/
def copyBack {S : Type} (left : S → S → S) (m : Memory S) : StringShadowPtr × Memory S :=
  if !p.flipped_ then (p, m) else (p.flip, m.moveEach left p.active_ p.shadow_)

end StringShadowPtr

/-- `StringShadowOutPtr`, which encapsulates a `StringShadowPtr`. -/
structure StringShadowOutPtr where
  sp : StringShadowPtr
  output_ : StringRange

namespace StringShadowOutPtr

variable (p : StringShadowOutPtr)

/-- `flipped()`. -/
@[simp] def flipped : Bool := p.sp.flipped

/-- `active()`. -/
@[simp] def active : StringRange := p.sp.active

/-- `shadow()`. -/
@[simp] def shadow : StringRange := p.sp.shadow

/-- `size()`. -/
@[simp] def size : ℕ := p.sp.size

/-- `sub(offset, _size)`. -/
def sub (offset _size : ℕ) : Option StringShadowOutPtr :=
  if offset + _size ≤ p.sp.size then
    some ⟨⟨p.sp.active.subi offset (offset + _size), p.sp.shadow.subi offset (offset + _size),
      p.flipped⟩, p.output_.subi offset (offset + _size)⟩
  else none

/-- `flip(offset, _size)`. -/
def flipSub (offset _size : ℕ) : Option StringShadowOutPtr :=
  if offset + _size ≤ p.sp.size then
    some ⟨⟨p.sp.shadow.subi offset (offset + _size), p.sp.active.subi offset (offset + _size),
      !p.flipped⟩, p.output_.subi offset (offset + _size)⟩
  else none

/-- `flip()`. -/
def flip : StringShadowOutPtr := ⟨⟨p.sp.shadow, p.sp.active, !p.flipped⟩, p.output_⟩

/-- `original()`. -/
def original : StringShadowOutPtr := if p.flipped then p.flip else p

/-- `output()`. -/
@[simp] def output : StringRange := p.output_

/-- `copy_back()`, which compares where the arrays begin. -/
def copyBack {S : Type} (left : S → S → S) (m : Memory S) : StringShadowOutPtr × Memory S :=
  (p.original,
    if (p.sp.active.array, p.sp.active.begin) ≠ (p.output_.array, p.output_.begin) then
      m.moveEach left p.sp.active p.output_
    else m)

end StringShadowOutPtr

/-- `StringShadowLcpPtr`. -/
structure StringShadowLcpPtr extends StringShadowPtr where
  lcps_ : ℕ

namespace StringShadowLcpPtr

variable (p : StringShadowLcpPtr)

/-- `sub(offset, _size)`. -/
def sub (offset _size : ℕ) : Option StringShadowLcpPtr :=
  if offset + _size ≤ p.size then
    some ⟨⟨p.active.subi offset (offset + _size), p.shadow.subi offset (offset + _size), p.flipped⟩,
      p.lcps_ + offset⟩
  else none

/-- `flip(offset, _size)`. -/
def flipSub (offset _size : ℕ) : Option StringShadowLcpPtr :=
  if offset + _size ≤ p.size then
    some ⟨⟨p.shadow.subi offset (offset + _size), p.active.subi offset (offset + _size),
      !p.flipped⟩, p.lcps_ + offset⟩
  else none

/-- `flip()`. -/
def flip : StringShadowLcpPtr := ⟨⟨p.shadow, p.active, !p.flipped⟩, p.lcps_⟩

/-- `original()`. -/
def original : StringShadowLcpPtr := if p.flipped then p.flip else p

/-- `copy_back()`. -/
def copyBack {S : Type} (left : S → S → S) (m : Memory S) : StringShadowLcpPtr × Memory S :=
  if !p.flipped then (p, m) else (p.flip, (p.toStringShadowPtr.copyBack left m).2)

end StringShadowLcpPtr

/-- `StringShadowLcpOutPtr`. -/
structure StringShadowLcpOutPtr extends StringShadowOutPtr where
  lcps_ : ℕ

namespace StringShadowLcpOutPtr

variable (p : StringShadowLcpOutPtr)

/-- `sub(offset, _size)`. -/
def sub (offset _size : ℕ) : Option StringShadowLcpOutPtr :=
  if offset + _size ≤ p.size then
    some ⟨⟨⟨p.active.subi offset (offset + _size), p.shadow.subi offset (offset + _size),
      p.flipped⟩, p.output.subi offset (offset + _size)⟩, p.lcps_ + offset⟩
  else none

/-- `flip(offset, _size)`. -/
def flipSub (offset _size : ℕ) : Option StringShadowLcpOutPtr :=
  if offset + _size ≤ p.size then
    some ⟨⟨⟨p.shadow.subi offset (offset + _size), p.active.subi offset (offset + _size),
      !p.flipped⟩, p.output.subi offset (offset + _size)⟩, p.lcps_ + offset⟩
  else none

/-- `flip()`. -/
def flip : StringShadowLcpOutPtr := ⟨⟨⟨p.shadow, p.active, !p.flipped⟩, p.output⟩, p.lcps_⟩

/-- `original()`. -/
def original : StringShadowLcpOutPtr := if p.flipped then p.flip else p

/-- `copy_back()`. -/
def copyBack {S : Type} (left : S → S → S) (m : Memory S) : StringShadowLcpOutPtr × Memory S :=
  (p.original, (p.toStringShadowOutPtr.copyBack left m).2)

end StringShadowLcpOutPtr

/-- `StringShadowLcpCacheOutPtr`. -/
structure StringShadowLcpCacheOutPtr extends StringShadowLcpOutPtr where
  cache_ : ℕ

namespace StringShadowLcpCacheOutPtr

variable (p : StringShadowLcpCacheOutPtr)

/-- `sub(offset, _size)`. -/
def sub (offset _size : ℕ) : Option StringShadowLcpCacheOutPtr :=
  if offset + _size ≤ p.size then
    some ⟨⟨⟨⟨p.active.subi offset (offset + _size), p.shadow.subi offset (offset + _size),
      p.flipped⟩, p.output.subi offset (offset + _size)⟩, p.lcps_ + offset⟩, p.cache_ + offset⟩
  else none

/-- `flip(offset, _size)`. -/
def flipSub (offset _size : ℕ) : Option StringShadowLcpCacheOutPtr :=
  if offset + _size ≤ p.size then
    some ⟨⟨⟨⟨p.shadow.subi offset (offset + _size), p.active.subi offset (offset + _size),
      !p.flipped⟩, p.output.subi offset (offset + _size)⟩, p.lcps_ + offset⟩, p.cache_ + offset⟩
  else none

/-- `flip()`. -/
def flip : StringShadowLcpCacheOutPtr :=
  ⟨⟨⟨⟨p.shadow, p.active, !p.flipped⟩, p.output⟩, p.lcps_⟩, p.cache_⟩

/-- `original()`. -/
def original : StringShadowLcpCacheOutPtr := if p.flipped then p.flip else p

/-- `copy_back()`. -/
def copyBack {S : Type} (left : S → S → S) (m : Memory S) :
    StringShadowLcpCacheOutPtr × Memory S :=
  (p.original, (p.toStringShadowLcpOutPtr.copyBack left m).2)

end StringShadowLcpCacheOutPtr

/-! ## Chains of calls -/

/-- What the classes have in common.  There is no `output` where it must not be asked for, and there
are no `lcps` and no `cache` in the classes without these arrays. -/
structure PointerClass (P : Type) where
  active : P → StringRange
  shadow : P → StringRange
  flipped : P → Bool
  output : P → Option StringRange
  lcps : P → Option ℕ
  cache : P → Option ℕ
  sub : P → ℕ → ℕ → Option P
  flipSub : P → ℕ → ℕ → Option P
  flip : P → P
  original : P → P
  copyBack : {S : Type} → (S → S → S) → P → Memory S → P × Memory S

/-- The functions of `StringShadowPtr`. -/
def shadowPtr : PointerClass StringShadowPtr where
  active p := p.active
  shadow p := p.shadow
  flipped p := p.flipped
  output p := p.output
  lcps _ := none
  cache _ := none
  sub p := p.sub
  flipSub p := p.flipSub
  flip p := p.flip
  original p := p.original
  copyBack left p := p.copyBack left

/-- The functions of `StringShadowOutPtr`. -/
def shadowOutPtr : PointerClass StringShadowOutPtr where
  active p := p.active
  shadow p := p.shadow
  flipped p := p.flipped
  output p := some p.output
  lcps _ := none
  cache _ := none
  sub p := p.sub
  flipSub p := p.flipSub
  flip p := p.flip
  original p := p.original
  copyBack left p := p.copyBack left

/-- The functions of `StringShadowLcpPtr`. -/
def shadowLcpPtr : PointerClass StringShadowLcpPtr where
  active p := p.active
  shadow p := p.shadow
  flipped p := p.flipped
  output p := p.output
  lcps p := some p.lcps_
  cache _ := none
  sub p := p.sub
  flipSub p := p.flipSub
  flip p := p.flip
  original p := p.original
  copyBack left p := p.copyBack left

/-- The functions of `StringShadowLcpOutPtr`. -/
def shadowLcpOutPtr : PointerClass StringShadowLcpOutPtr where
  active p := p.active
  shadow p := p.shadow
  flipped p := p.flipped
  output p := some p.output
  lcps p := some p.lcps_
  cache _ := none
  sub p := p.sub
  flipSub p := p.flipSub
  flip p := p.flip
  original p := p.original
  copyBack left p := p.copyBack left

/-- The functions of `StringShadowLcpCacheOutPtr`. -/
def shadowLcpCacheOutPtr : PointerClass StringShadowLcpCacheOutPtr where
  active p := p.active
  shadow p := p.shadow
  flipped p := p.flipped
  output p := some p.output
  lcps p := some p.lcps_
  cache p := some p.cache_
  sub p := p.sub
  flipSub p := p.flipSub
  flip p := p.flip
  original p := p.original
  copyBack left p := p.copyBack left

/-- A call by which a pointer is derived from another one. -/
inductive PointerCall
  | sub (offset size : ℕ)
  | flipSub (offset size : ℕ)
  | flip
  | original

/-- So many places of a range from an offset on. -/
def StringRange.window (r : StringRange) (offset size : ℕ) : StringRange :=
  ⟨r.array, r.begin + offset, size⟩

/-- A place of a range. -/
def StringRange.Holds (r : StringRange) (arr : StringArray) (q : ℕ) : Prop :=
  arr = r.array ∧ InWindow r.begin r.size q

namespace PointerClass

variable {P : Type} (c : PointerClass P)

/-- One call. -/
def call (p : P) : PointerCall → Option P
  | .sub offset size => c.sub p offset size
  | .flipSub offset size => c.flipSub p offset size
  | .flip => some (c.flip p)
  | .original => some (c.original p)

/-- A chain of calls.  There is a result when all arguments are in range. -/
def run : P → List PointerCall → Option P
  | p, [] => some p
  | p, a :: chain => (c.call p a).bind fun p => run p chain

/-- `size()`. -/
def size (p : P) : ℕ := (c.active p).size

/-- The first pointer of a sort: it is not flipped, its ranges have one size, and the shadow array
is not the original one.  The output array may be any of the two, or another one. -/
structure IsRoot (root : P) : Prop where
  unflipped : c.flipped root = false
  shadow_size : (c.shadow root).size = c.size root
  shadow_ne : (c.shadow root).array ≠ (c.active root).array
  output : ∃ out, c.output root = some out ∧ out.size = c.size root ∧
    (out.array = (c.active root).array → out = c.active root) ∧
    (out.array = (c.shadow root).array → out = c.shadow root)

/-- The array to which a pointer is flipped. -/
def home (root : P) (flipped : Bool) : StringRange :=
  if flipped then c.shadow root else c.active root

/-- All windows of a pointer are the same window of the ranges of the first one. -/
structure AlignedAt (root p : P) (offset size : ℕ) : Prop where
  active : c.active p = (c.home root (c.flipped p)).window offset size
  shadow : c.shadow p = (c.home root !c.flipped p).window offset size
  output : ∀ w, c.output p = some w → ∃ out, c.output root = some out ∧ w = out.window offset size
  lcps : c.lcps p = (c.lcps root).map (· + offset)
  cache : c.cache p = (c.cache root).map (· + offset)

end PointerClass

/-- The strings of `src` have been moved to `dst`.  Nothing else has changed, except for what is
left behind of strings that have been moved. -/
structure StringsMoved {S : Type} (left : S → S → S) (src dst : StringRange) (m m' : Memory S) :
    Prop where
  get : ∀ i < src.size, dst.get m' i = src.get m i
  outside : ∀ arr q, ¬ dst.Holds arr q → m'.strings arr q = m.strings arr q ∨
    src.Holds arr q ∧ ∃ y, m'.strings arr q = left (m.strings arr q) y
  lcps : m'.lcps = m.lcps
  cache : m'.cache = m.cache

/-- What is known about the pointers that are derived from a first one. -/
structure PointerClass.KeepsAligned {P : Type} (c : PointerClass P) (root p : P) (offset : ℕ) :
    Prop where
  inRange : offset + c.size p ≤ c.size root
  aligned : c.AlignedAt root p offset (c.size p)
  flipped_iff : c.flipped p = true ↔ (c.active p).array = (c.shadow root).array
  copyBack : ∀ {S : Type} (left : S → S → S) (m : Memory S),
    let r := c.copyBack left p m
    c.flipped r.1 = false ∧ c.AlignedAt root r.1 offset (c.size p) ∧
      ∃ out, c.output r.1 = some out ∧ StringsMoved left (c.active p) out m r.2 ∧
        ((∀ x y, left x y = x) →
          ∀ arr q, ¬ out.Holds arr q → r.2.strings arr q = m.strings arr q)

/-! ## Moved strings -/

section Moved

variable {S : Type} {left : S → S → S} {src dst : StringRange} {m m' : Memory S}

/-- Strings that are at their place already. -/
theorem StringsMoved.refl (left : S → S → S) (r : StringRange) (m : Memory S) :
    StringsMoved left r r m m :=
  ⟨fun _ _ => rfl, fun _ _ _ => Or.inl rfl, rfl, rfl⟩

/-- When nothing is left behind, only the places that are moved to change. -/
theorem StringsMoved.eq_of_copy (h : StringsMoved left src dst m m') (hleft : ∀ x y, left x y = x)
    (arr : StringArray) (q : ℕ) (hq : ¬ dst.Holds arr q) : m'.strings arr q = m.strings arr q := by
  rcases h.outside arr q hq with heq | ⟨-, y, heq⟩
  · exact heq
  · exact heq.trans (hleft _ y)

/-- The strings after one round of `std::move`. -/
theorem Memory.moveOne_strings (left : S → S → S) (src dst : StringRange) (m : Memory S) (k : ℕ)
    (arr : StringArray) (q : ℕ) :
    (m.moveOne left src dst k).strings arr q =
      if arr = dst.array ∧ q = dst.begin + k then src.get m k
      else if arr = src.array ∧ q = src.begin + k then left (src.get m k) (dst.get m k)
      else m.strings arr q :=
  rfl

/-- The first `k` rounds of `std::move` between two arrays. -/
private theorem moveOne_rounds (left : S → S → S) (hne : src.array ≠ dst.array) (m : Memory S)
    (k : ℕ) :
    StringsMoved left { src with size := k } { dst with size := k } m
      ((List.range k).foldl (Memory.moveOne left src dst) m) := by
  induction k with
  | zero =>
    refine ⟨fun i hi => absurd hi (Nat.not_lt_zero i), fun _ _ _ => Or.inl rfl, rfl, rfl⟩
  | succ k ih =>
    rw [List.range_succ, List.foldl_append, List.foldl_cons, List.foldl_nil]
    set m' := (List.range k).foldl (Memory.moveOne left src dst) m
    -- round `k` finds the string that it moves where it has always been
    have hsrc : src.get m' k = src.get m k := by
      rcases ih.outside src.array (src.begin + k) fun h => hne h.1 with heq | ⟨⟨-, -, hlt⟩, -⟩
      · exact heq
      · exact absurd hlt (lt_irrefl _)
    -- the earlier rounds have moved the strings below `k`, and left theirs behind
    refine ⟨fun i hi => ?_, fun arr q hq => ?_, ih.lcps, ih.cache⟩
    · show (m'.moveOne left src dst k).strings dst.array (dst.begin + i) = _
      rw [Memory.moveOne_strings]
      by_cases hik : i = k
      · rw [if_pos ⟨rfl, by rw [hik]⟩, hsrc, hik]
        rfl
      · rw [if_neg (by simp [hik]), if_neg fun h => hne h.1.symm]
        apply ih.get i
        exact lt_of_le_of_ne (Nat.le_of_lt_succ hi) hik
    · have hout : ¬ StringRange.Holds { dst with size := k } arr q :=
        fun h => hq ⟨h.1, h.2.1, h.2.2.trans (Nat.lt_succ_self _)⟩
      have hplace : ¬ (arr = dst.array ∧ q = dst.begin + k) := by
        rintro ⟨harr, rfl⟩
        exact hq ⟨harr, Nat.le_add_right .., Nat.lt_succ_self _⟩
      rw [Memory.moveOne_strings, if_neg hplace]
      -- what round `k` leaves behind is the only new change outside of `dst`
      by_cases hk : arr = src.array ∧ q = src.begin + k
      · obtain ⟨rfl, rfl⟩ := hk
        rw [if_pos ⟨rfl, rfl⟩, hsrc]
        exact Or.inr ⟨⟨rfl, Nat.le_add_right .., Nat.lt_succ_self _⟩, _, rfl⟩
      · rw [if_neg hk]
        rcases ih.outside arr q hout with heq | ⟨hin, hy⟩
        · exact Or.inl heq
        · exact Or.inr ⟨⟨hin.1, hin.2.1, hin.2.2.trans (Nat.lt_succ_self _)⟩, hy⟩

/-- `std::move` between two arrays. -/
theorem moveEach_moved (left : S → S → S) (hne : src.array ≠ dst.array)
    (hsize : dst.size = src.size) (m : Memory S) :
    StringsMoved left src dst m (m.moveEach left src dst) := by
  have h := moveOne_rounds left hne m src.size
  have hdst : ({ dst with size := src.size } : StringRange) = dst := by rw [← hsize]
  rw [hdst] at h
  exact h

/-- Strings are moved unless they are at their place already. -/
theorem moveUnless_moved (left : S → S → S) (hsize : dst.size = src.size)
    (hsame : dst.array = src.array → dst = src) (m : Memory S) :
    StringsMoved left src dst m
      (if (src.array, src.begin) ≠ (dst.array, dst.begin) then m.moveEach left src dst else m) := by
  -- two windows of one array are the same window here
  by_cases harr : dst.array = src.array
  · obtain rfl := hsame harr
    rw [if_neg (not_not_intro rfl)]
    exact StringsMoved.refl left _ m
  · rw [if_pos fun heq => harr (Prod.ext_iff.mp heq).1.symm]
    exact moveEach_moved left (Ne.symm harr) hsize m

end Moved

/-! ## Places -/

@[simp] theorem StringRange.window_size (r : StringRange) (offset size : ℕ) :
    (r.window offset size).size = size := rfl

@[simp] theorem StringRange.window_array (r : StringRange) (offset size : ℕ) :
    (r.window offset size).array = r.array := rfl

/-- A part of a window is a window. -/
@[simp] theorem StringRange.window_subi (r : StringRange) (offset size o s : ℕ) :
    (r.window offset size).subi o (o + s) = r.window (offset + o) s := by
  simp [StringRange.window, StringRange.subi, Nat.add_assoc]

/-- The whole of a range. -/
theorem StringRange.window_zero {r : StringRange} {n : ℕ} (h : r.size = n) :
    r.window 0 n = r := by
  subst h
  rfl

namespace PointerClass

variable {P : Type} {c : PointerClass P} {root : P} {place : Bool → ℕ → ℕ → P}

/-- The pointers that are derived from a first one are given by their place in it: whether they are
flipped, the offset and the size.  Each function leads from places to places. -/
structure Places (c : PointerClass P) (root : P) (place : Bool → ℕ → ℕ → P) : Prop where
  root_eq : place false 0 (c.size root) = root
  flipped : ∀ f offset n, c.flipped (place f offset n) = f
  aligned : ∀ f offset n, c.AlignedAt root (place f offset n) offset n
  sub : ∀ f offset n o s, c.sub (place f offset n) o s =
    if o + s ≤ n then some (place f (offset + o) s) else none
  flipSub : ∀ f offset n o s, c.flipSub (place f offset n) o s =
    if o + s ≤ n then some (place (!f) (offset + o) s) else none
  flip : ∀ f offset n, c.flip (place f offset n) = place (!f) offset n
  original : ∀ f offset n, c.original (place f offset n) = place false offset n
  copyBack : ∀ {S : Type} (left : S → S → S) f offset n (m : Memory S),
    let r := c.copyBack left (place f offset n) m
    r.1 = place false offset n ∧ ∃ out, c.output (place false offset n) = some out ∧
      StringsMoved left (c.active (place f offset n)) out m r.2

/-- The size of a place. -/
theorem Places.size (h : c.Places root place) (f : Bool) (offset n : ℕ) :
    c.size (place f offset n) = n := by
  rw [PointerClass.size, (h.aligned f offset n).active, StringRange.window_size]

/-- One call leads to a place within the place that it starts from. -/
theorem Places.call (h : c.Places root place) {f : Bool} {offset n : ℕ} {a : PointerCall} {p : P}
    (hcall : c.call (place f offset n) a = some p) :
    ∃ f' o s, p = place f' (offset + o) s ∧ o + s ≤ n := by
  -- `sub` and `flip().sub` go to a part, the others stay where they are
  cases a with
  | sub o s =>
    rw [PointerClass.call, h.sub, Option.ite_none_right_eq_some] at hcall
    exact ⟨f, o, s, (Option.some.inj hcall.2).symm, hcall.1⟩
  | flipSub o s =>
    rw [PointerClass.call, h.flipSub, Option.ite_none_right_eq_some] at hcall
    exact ⟨!f, o, s, (Option.some.inj hcall.2).symm, hcall.1⟩
  | flip =>
    rw [PointerClass.call, h.flip] at hcall
    exact ⟨!f, 0, n, (Option.some.inj hcall).symm, (Nat.zero_add n).le⟩
  | original =>
    rw [PointerClass.call, h.original] at hcall
    exact ⟨false, 0, n, (Option.some.inj hcall).symm, (Nat.zero_add n).le⟩

/-- A chain of calls leads to a place within the place that it starts from. -/
theorem Places.run (h : c.Places root place) {chain : List PointerCall} :
    ∀ {f : Bool} {offset n : ℕ} {p : P}, c.run (place f offset n) chain = some p →
      ∃ f' o s, p = place f' (offset + o) s ∧ o + s ≤ n := by
  -- by induction on the chain, for the place that the rest of it starts from
  induction chain with
  | nil =>
    intro f offset n p hrun
    exact ⟨f, 0, n, (Option.some.inj hrun).symm, (Nat.zero_add n).le⟩
  | cons a chain ih =>
    intro f offset n p hrun
    rw [PointerClass.run, Option.bind_eq_some_iff] at hrun
    obtain ⟨p₁, hcall, hrest⟩ := hrun
    obtain ⟨f₁, o₁, s₁, rfl, hle₁⟩ := h.call hcall
    obtain ⟨f₂, o₂, s₂, rfl, hle₂⟩ := ih hrest
    -- offsets add up, and each call stays within what the calls before it have left
    exact ⟨f₂, o₁ + o₂, s₂, by rw [Nat.add_assoc], by omega⟩

/-- A place has all that is known about derived pointers. -/
theorem Places.keepsAligned (h : c.Places root place) (hroot : c.IsRoot root) {f : Bool}
    {offset n : ℕ} (hle : offset + n ≤ c.size root) :
    c.KeepsAligned root (place f offset n) offset := by
  have hsize := h.size f offset n
  refine ⟨by rw [hsize]; exact hle, by rw [hsize]; exact h.aligned .., ?_, fun left m => ?_⟩
  · rw [(h.aligned f offset n).active, h.flipped]
    cases f with
    | false => simp [home, hroot.shadow_ne.symm]
    | true => simp [home]
  · obtain ⟨hfst, out, hout, hmoved⟩ := h.copyBack left f offset n m
    rw [hsize]
    refine ⟨by rw [hfst, h.flipped], by rw [hfst]; exact h.aligned .., out, ?_, hmoved,
      hmoved.eq_of_copy⟩
    rw [hfst]
    exact hout

/-- Every chain of calls from the first pointer. -/
theorem Places.run_keepsAligned (h : c.Places root place) (hroot : c.IsRoot root)
    {chain : List PointerCall} {p : P} (hrun : c.run root chain = some p) :
    ∃ offset, c.KeepsAligned root p offset := by
  rw [← h.root_eq] at hrun
  obtain ⟨f, o, s, rfl, hle⟩ := h.run hrun
  rw [Nat.zero_add]
  exact ⟨o, h.keepsAligned hroot hle⟩

/-- The windows of an output range and of the range that a pointer works on. -/
theorem IsRoot.window_eq (hroot : c.IsRoot root) {out : StringRange}
    (hout : c.output root = some out) (f : Bool) (offset n : ℕ) :
    (out.window offset n).array = ((c.home root f).window offset n).array →
      out.window offset n = (c.home root f).window offset n := by
  obtain ⟨out', hout', -, hactive, hshadow⟩ := hroot.output
  obtain rfl : out = out' := Option.some.inj (hout.symm.trans hout')
  intro harr
  cases f with
  | false => rw [hactive harr]; rfl
  | true => rw [hshadow harr]; rfl

end PointerClass

/-! ### The places of each class -/

/-- Place of a `StringShadowPtr`. -/
@[simp] def StringShadowPtr.place (root : StringShadowPtr) (f : Bool) (offset n : ℕ) :
    StringShadowPtr :=
  ⟨(shadowPtr.home root f).window offset n, (shadowPtr.home root !f).window offset n, f⟩

/-- Place of a `StringShadowOutPtr`. -/
@[simp] def StringShadowOutPtr.place (root : StringShadowOutPtr) (f : Bool) (offset n : ℕ) :
    StringShadowOutPtr :=
  ⟨root.sp.place f offset n, root.output_.window offset n⟩

/-- Place of a `StringShadowLcpPtr`. -/
@[simp] def StringShadowLcpPtr.place (root : StringShadowLcpPtr) (f : Bool) (offset n : ℕ) :
    StringShadowLcpPtr :=
  ⟨root.toStringShadowPtr.place f offset n, root.lcps_ + offset⟩

/-- Place of a `StringShadowLcpOutPtr`. -/
@[simp] def StringShadowLcpOutPtr.place (root : StringShadowLcpOutPtr) (f : Bool) (offset n : ℕ) :
    StringShadowLcpOutPtr :=
  ⟨root.toStringShadowOutPtr.place f offset n, root.lcps_ + offset⟩

/-- Place of a `StringShadowLcpCacheOutPtr`. -/
@[simp] def StringShadowLcpCacheOutPtr.place (root : StringShadowLcpCacheOutPtr) (f : Bool)
    (offset n : ℕ) : StringShadowLcpCacheOutPtr :=
  ⟨root.toStringShadowLcpOutPtr.place f offset n, root.cache_ + offset⟩

/-- The output range of a `StringShadowPtr` that is not flipped. -/
private theorem StringShadowPtr.output_eq {p : StringShadowPtr} (h : p.flipped_ = false) :
    p.output = some p.active_ := by
  simp [StringShadowPtr.output, h]

/-- The place of the first pointer itself. -/
private theorem StringShadowPtr.place_zero {root : StringShadowPtr} (hflip : root.flipped_ = false)
    (hsize : root.shadow_.size = root.active_.size) :
    root.place false 0 root.active_.size = root := by
  obtain ⟨active, shadow, flipped⟩ := root
  obtain rfl := hflip
  exact congrArg₂ (StringShadowPtr.mk · · false) (StringRange.window_zero rfl)
    (StringRange.window_zero hsize)

theorem shadowPtr_places {root : StringShadowPtr} (h : shadowPtr.IsRoot root) :
    shadowPtr.Places root root.place where
  root_eq := StringShadowPtr.place_zero h.unflipped h.shadow_size
  flipped f offset n := rfl
  aligned f offset n :=
    { active := rfl
      shadow := rfl
      output := by
        intro w hw
        cases f with
        | false =>
          exact ⟨root.active_, StringShadowPtr.output_eq h.unflipped, (Option.some.inj hw).symm⟩
        -- there is no output range to ask for
        | true => cases hw
      lcps := rfl
      cache := rfl }
  sub f offset n o s := by
    simp [shadowPtr, StringShadowPtr.sub]
  flipSub f offset n o s := by
    simp [shadowPtr, StringShadowPtr.flipSub]
  flip f offset n := by
    simp [shadowPtr, StringShadowPtr.flip]
  original f offset n := by cases f <;> rfl
  copyBack left f offset n m := by
    cases f with
    | false => exact ⟨rfl, _, rfl, StringsMoved.refl ..⟩
    | true =>
      -- the shadow array is moved to the original one
      refine ⟨rfl, _, rfl, ?_⟩
      apply moveEach_moved
      · exact h.shadow_ne
      · rfl

theorem shadowLcpPtr_places {root : StringShadowLcpPtr} (h : shadowLcpPtr.IsRoot root) :
    shadowLcpPtr.Places root root.place where
  root_eq := congrArg (StringShadowLcpPtr.mk · root.lcps_)
    (StringShadowPtr.place_zero h.unflipped h.shadow_size)
  flipped f offset n := rfl
  aligned f offset n :=
    { active := rfl
      shadow := rfl
      output := by
        intro w hw
        cases f with
        | false =>
          exact ⟨root.active_, StringShadowPtr.output_eq h.unflipped, (Option.some.inj hw).symm⟩
        | true => cases hw
      lcps := rfl
      cache := rfl }
  sub f offset n o s := by
    simp [shadowLcpPtr, StringShadowLcpPtr.sub, Nat.add_assoc]
  flipSub f offset n o s := by
    simp [shadowLcpPtr, StringShadowLcpPtr.flipSub, Nat.add_assoc]
  flip f offset n := by
    simp [shadowLcpPtr, StringShadowLcpPtr.flip]
  original f offset n := by cases f <;> rfl
  copyBack left f offset n m := by
    cases f with
    | false => exact ⟨rfl, _, rfl, StringsMoved.refl ..⟩
    | true =>
      refine ⟨rfl, _, rfl, ?_⟩
      apply moveEach_moved
      · exact h.shadow_ne
      · rfl

/-- The place of the first pointer itself. -/
private theorem StringShadowOutPtr.place_zero {root : StringShadowOutPtr}
    (hflip : root.sp.flipped_ = false) (hsize : root.sp.shadow_.size = root.sp.active_.size)
    (hout : ∃ out, some root.output_ = some out ∧ out.size = root.sp.active_.size) :
    root.place false 0 root.sp.active_.size = root := by
  obtain ⟨out, heq, hsize'⟩ := hout
  obtain rfl := Option.some.inj heq
  exact congrArg₂ StringShadowOutPtr.mk (StringShadowPtr.place_zero hflip hsize)
    (StringRange.window_zero hsize')

/-- `copy_back` of the classes with an output array. -/
private theorem StringShadowOutPtr.copyBack_moved {S : Type} {root : StringShadowOutPtr}
    (h : ∀ f offset n, (root.output_.window offset n).array =
        (root.place f offset n).active.array →
      root.output_.window offset n = (root.place f offset n).active)
    (left : S → S → S) (f : Bool) (offset n : ℕ) (m : Memory S) :
    StringsMoved left (root.place f offset n).active (root.output_.window offset n) m
      ((root.place f offset n).copyBack left m).2 := by
  apply moveUnless_moved
  · rfl
  · exact h f offset n

theorem shadowOutPtr_places {root : StringShadowOutPtr} (h : shadowOutPtr.IsRoot root) :
    shadowOutPtr.Places root root.place where
  root_eq := StringShadowOutPtr.place_zero h.unflipped h.shadow_size
    (h.output.imp fun _ hout => ⟨hout.1, hout.2.1⟩)
  flipped f offset n := rfl
  aligned f offset n :=
    { active := rfl
      shadow := rfl
      output := fun w hw => ⟨root.output_, rfl, (Option.some.inj hw).symm⟩
      lcps := rfl
      cache := rfl }
  sub f offset n o s := by
    simp [shadowOutPtr, StringShadowOutPtr.sub]
  flipSub f offset n o s := by
    simp [shadowOutPtr, StringShadowOutPtr.flipSub]
  flip f offset n := by
    simp [shadowOutPtr, StringShadowOutPtr.flip]
  original f offset n := by cases f <;> rfl
  copyBack left f offset n m := by
    -- whichever array is active, its strings go to the output
    refine ⟨by cases f <;> rfl, _, rfl, ?_⟩
    exact StringShadowOutPtr.copyBack_moved (h.window_eq rfl) left f offset n m

theorem shadowLcpOutPtr_places {root : StringShadowLcpOutPtr} (h : shadowLcpOutPtr.IsRoot root) :
    shadowLcpOutPtr.Places root root.place where
  root_eq := congrArg (StringShadowLcpOutPtr.mk · root.lcps_)
    (StringShadowOutPtr.place_zero h.unflipped h.shadow_size
      (h.output.imp fun _ hout => ⟨hout.1, hout.2.1⟩))
  flipped f offset n := rfl
  aligned f offset n :=
    { active := rfl
      shadow := rfl
      output := fun w hw => ⟨root.output_, rfl, (Option.some.inj hw).symm⟩
      lcps := rfl
      cache := rfl }
  sub f offset n o s := by
    simp [shadowLcpOutPtr, StringShadowLcpOutPtr.sub, Nat.add_assoc]
  flipSub f offset n o s := by
    simp [shadowLcpOutPtr, StringShadowLcpOutPtr.flipSub, Nat.add_assoc]
  flip f offset n := by
    simp [shadowLcpOutPtr, StringShadowLcpOutPtr.flip]
  original f offset n := by cases f <;> rfl
  copyBack left f offset n m := by
    refine ⟨by cases f <;> rfl, _, rfl, ?_⟩
    exact StringShadowOutPtr.copyBack_moved (h.window_eq rfl) left f offset n m

theorem shadowLcpCacheOutPtr_places {root : StringShadowLcpCacheOutPtr}
    (h : shadowLcpCacheOutPtr.IsRoot root) :
    shadowLcpCacheOutPtr.Places root root.place where
  root_eq := congrArg (fun p => StringShadowLcpCacheOutPtr.mk ⟨p, root.lcps_⟩ root.cache_)
    (StringShadowOutPtr.place_zero h.unflipped h.shadow_size
      (h.output.imp fun _ hout => ⟨hout.1, hout.2.1⟩))
  flipped f offset n := rfl
  aligned f offset n :=
    { active := rfl
      shadow := rfl
      output := fun w hw => ⟨root.output_, rfl, (Option.some.inj hw).symm⟩
      lcps := rfl
      cache := rfl }
  sub f offset n o s := by
    simp [shadowLcpCacheOutPtr, StringShadowLcpCacheOutPtr.sub, Nat.add_assoc]
  flipSub f offset n o s := by
    simp [shadowLcpCacheOutPtr, StringShadowLcpCacheOutPtr.flipSub, Nat.add_assoc]
  flip f offset n := by
    simp [shadowLcpCacheOutPtr, StringShadowLcpCacheOutPtr.flip]
  original f offset n := by cases f <;> rfl
  copyBack left f offset n m := by
    refine ⟨by cases f <;> rfl, _, rfl, ?_⟩
    exact StringShadowOutPtr.copyBack_moved (h.window_eq rfl) left f offset n m

/-! ## Aligned windows in all chains -/

/-- Every pointer that is derived from a first one keeps its windows aligned. -/
def PointerClass.ChainsAligned {P : Type} (c : PointerClass P) : Prop :=
  ∀ root, c.IsRoot root → ∀ chain p, c.run root chain = some p →
    ∃ offset, c.KeepsAligned root p offset

/-- All windows of a pointer that is derived by `sub`, `flip` and `original` lie at one offset of
the first pointer's, and `copy_back` leaves its strings in the output window. -/
theorem stringPtr_chains :
    shadowPtr.ChainsAligned ∧ shadowOutPtr.ChainsAligned ∧ shadowLcpPtr.ChainsAligned ∧
      shadowLcpOutPtr.ChainsAligned ∧ shadowLcpCacheOutPtr.ChainsAligned :=
  ⟨fun _ h _ _ => (shadowPtr_places h).run_keepsAligned h,
    fun _ h _ _ => (shadowOutPtr_places h).run_keepsAligned h,
    fun _ h _ _ => (shadowLcpPtr_places h).run_keepsAligned h,
    fun _ h _ _ => (shadowLcpOutPtr_places h).run_keepsAligned h,
    fun _ h _ _ => (shadowLcpCacheOutPtr_places h).run_keepsAligned h⟩

/-- The first pointer of a sort of two strings into an output array that is the shadow array too. -/
def outRoot : StringShadowLcpCacheOutPtr :=
  ⟨⟨⟨⟨⟨.original, 0, 2⟩, ⟨.output, 0, 2⟩, false⟩, ⟨.output, 0, 2⟩⟩, 0⟩, 0⟩

theorem outRoot_isRoot : shadowLcpCacheOutPtr.IsRoot outRoot where
  unflipped := rfl
  shadow_size := rfl
  shadow_ne := by decide
  output := ⟨_, rfl, rfl, fun h => absurd h (by decide), fun _ => rfl⟩

theorem stringPtr_chains_outRoot :
    shadowLcpCacheOutPtr.IsRoot outRoot ∧ ∃ p offset,
      shadowLcpCacheOutPtr.run outRoot [.flip, .sub 1 1] = some p ∧
      shadowLcpCacheOutPtr.KeepsAligned outRoot p offset :=
  ⟨outRoot_isRoot, _, _, rfl,
    (stringPtr_chains.2.2.2.2 outRoot outRoot_isRoot [.flip, .sub 1 1] _ rfl).choose_spec⟩

/-- A string set of `std::unique_ptr<std::string>`: a pointer that is moved from is null. -/
def moveUniquePtr {T : Type} (_ _ : Option T) : Option T := none

/-- `copy_back` changes places outside the output window: a flipped pointer to one string leaves a
null pointer behind in the shadow array. -/
theorem copyBack_leaves_null :
    let root : StringShadowPtr := ⟨⟨.original, 0, 1⟩, ⟨.shadow, 0, 1⟩, false⟩
    let m : Memory (Option String) := ⟨fun _ _ => some "string", fun _ => 0, fun _ => 0⟩
    shadowPtr.IsRoot root ∧ ∃ p out, shadowPtr.run root [.flip] = some p ∧
      shadowPtr.output (shadowPtr.copyBack moveUniquePtr p m).1 = some out ∧
      ¬ out.Holds .shadow 0 ∧
      (shadowPtr.copyBack moveUniquePtr p m).2.strings .shadow 0 ≠ m.strings .shadow 0 := by
  refine ⟨⟨rfl, rfl, by decide, _, rfl, rfl, fun _ => rfl, fun h => by cases h⟩, _, _, rfl, rfl, ?_,
    ?_⟩
  · exact fun h => by cases h.1
  · exact fun h => by cases h

/-! ## The pointers of the parallel sort -/

namespace PointerClass

variable {P : Type} {c : PointerClass P} {root p : P}

/-- A pointer has what a pointer of the parallel sort has. -/
structure Represents (c : PointerClass P) (cls : StringPtrClass) (p : P) (f : Bool) (lo n : ℕ) :
    Prop where
  active : c.active p = (cls.pointer f lo n).active
  shadow : c.shadow p = (cls.pointer f lo n).shadow
  flipped : c.flipped p = f
  output : ∀ w, c.output p = some w → w = ⟨cls.outputArray, lo, n⟩
  lcps : c.lcps p = if cls.withLcp then some lo else none
  cache : c.cache p = if cls.hasCache then some lo else none

/-- A derived pointer is the pointer of the parallel sort to the strings from its offset on. -/
theorem KeepsAligned.represents {cls : StringPtrClass} {n offset : ℕ}
    (h : c.KeepsAligned root p offset) (hroot : c.Represents cls root false 0 n) :
    c.Represents cls p (c.flipped p) offset (c.size p) where
  active := by
    rw [h.aligned.active]
    -- flipped or not, the window lies in one of the two arrays of the first pointer
    cases c.flipped p with
    | false => simp [home, hroot.active, StringPtrClass.pointer, StringRange.window]
    | true => simp [home, hroot.shadow, StringPtrClass.pointer, StringRange.window]
  shadow := by
    rw [h.aligned.shadow]
    cases c.flipped p with
    | false => simp [home, hroot.shadow, StringPtrClass.pointer, StringRange.window]
    | true => simp [home, hroot.active, StringPtrClass.pointer, StringRange.window]
  flipped := rfl
  output := by
    intro w hw
    obtain ⟨out, hout, rfl⟩ := h.aligned.output w hw
    simp [hroot.output out hout, StringRange.window]
  lcps := by
    rw [h.aligned.lcps, hroot.lcps]
    cases cls.withLcp <;> simp
  cache := by
    rw [h.aligned.cache, hroot.cache]
    cases cls.hasCache <;> simp

/-- What `copy_back` does with strings that are copied is what it does in the parallel sort. -/
theorem KeepsAligned.copyBack_eq {S : Type} {cls : StringPtrClass} {n offset : ℕ}
    (h : c.KeepsAligned root p offset) (hroot : c.Represents cls root false 0 n) (m : Memory S) :
    (c.copyBack (fun x _ => x) p m).2 = cls.copyOut (c.flipped p) offset (c.size p) m := by
  obtain ⟨-, haligned, out, hsome, hmoved, hframe⟩ := h.copyBack (fun x _ => x) m
  -- the output window of the pointer is its part of the output array
  have hout : out = ⟨cls.outputArray, offset, c.size p⟩ := by
    obtain ⟨w, hw, rfl⟩ := haligned.output out hsome
    simp [hroot.output w hw, StringRange.window]
  have hactive := (h.represents hroot).active
  subst hout
  rw [hactive] at hmoved
  apply Memory.ext
  · funext arr q
    -- inside of the window the strings are those of the active array
    by_cases hin : StringRange.Holds ⟨cls.outputArray, offset, c.size p⟩ arr q
    · obtain ⟨rfl, hlo, hhi⟩ := hin
      obtain ⟨i, rfl⟩ := Nat.exists_eq_add_of_le hlo
      have hi : i < c.size p := Nat.lt_of_add_lt_add_left hhi
      refine (hmoved.get i hi).trans ?_
      simp [StringPtrClass.copyOut, Memory.write, StringRange.get, StringPtrClass.pointer,
        splice_add _ _ _ hi]
    · -- copied strings leave nothing behind outside of it
      rw [hframe (fun _ _ => rfl) arr q hin]
      by_cases harr : arr = cls.outputArray
      · subst harr
        simp [StringPtrClass.copyOut, Memory.write,
          splice_of_not_in _ _ fun hwin => hin ⟨rfl, hwin⟩]
      · simp [StringPtrClass.copyOut, Memory.write, Function.update_of_ne harr]
  · rw [hmoved.lcps]
    rfl
  · rw [hmoved.cache]
    rfl

end PointerClass

/-- The first pointers of the parallel sort, with the output array as shadow array where there is
one. -/
theorem firstPointers_represent (n : ℕ) :
    let original : StringRange := ⟨.original, 0, n⟩
    let output : StringRange := ⟨.output, 0, n⟩
    let pair : StringShadowPtr := ⟨original, ⟨.shadow, 0, n⟩, false⟩
    let triple : StringShadowOutPtr := ⟨⟨original, output, false⟩, output⟩
    shadowPtr.Represents .StringShadowPtr pair false 0 n ∧
      shadowOutPtr.Represents .StringShadowOutPtr triple false 0 n ∧
      shadowLcpPtr.Represents .StringShadowLcpPtr ⟨pair, 0⟩ false 0 n ∧
      shadowLcpOutPtr.Represents .StringShadowLcpOutPtr ⟨triple, 0⟩ false 0 n ∧
      shadowLcpCacheOutPtr.Represents .StringShadowLcpCacheOutPtr ⟨⟨triple, 0⟩, 0⟩ false 0 n := by
  refine ⟨?_, ?_, ?_, ?_, ?_⟩
  all_goals exact ⟨rfl, rfl, rfl, fun w hw => (Option.some.inj hw).symm, rfl, rfl⟩

end StringSampleSort
