import StringSampleSort.Library.InsertionSort
import StringSampleSort.Tools.CheckOrder
import StringSampleSort.Tools.StringOrder

/-!
# Insertion sorts for string sets

Model of `inssort_generic` of `src/sequential/inssort.hpp` and of `lcp_insertion_sort` of
`src/sequential/bingmann-lcp_inssort.hpp`, the base cases of the sorters.

`lcp_insertion_sort` keeps the common prefix lengths of the sorted front.  The length behind the
front is the depth, so that the first comparison of each round compares characters.

## Main results

- `inssortGeneric_spec`: the strings are sorted
- `lcpInsertDown_spec`: one round of the LCP insertion sort
- `lcpInsertionSort_exact`: on every set the strings are sorted in the order of the set, and their
  common prefixes and distinguishing characters are known
-/

namespace StringSampleSort

open Library

/-! ## Model -/

section Model

variable {S : Type} (ss : StringSet S)

/-- `is_leq` at the first position from `depth` on where `is_equal` fails. -/
def leqAtMismatch (depth : ℕ) (a b : S) : Bool :=
  ss.isLeq a (mismatch ss a b depth).1 b (mismatch ss a b depth).2

/-- `inssort_generic(ss, depth)` for `n` strings. -/
def inssortGeneric (strings : ℕ → S) (n depth : ℕ) : ℕ → S :=
  insertionSort (leqAtMismatch ss depth) n strings

/-- The arrays of `lcp_insertion_sort`. -/
@[ext] structure LcpArrays (S : Type) where
  strings : ℕ → S
  lcp : ℕ → ℕ
  cache : ℕ → CharType

/-- The end of a round: `new_str` goes to place `i`, its `new_lcp` behind it.  The last round is
specialized `with checks for out-of-bound access`. -/
def LcpArrays.place (saveCache checked : Bool) (n : ℕ) (new_str : S) (i new_lcp : ℕ)
    (a : LcpArrays S) : LcpArrays S :=
  let strings := Function.update a.strings i new_str
  if !checked || decide (i + 1 < n) then
    { strings := strings
      lcp := Function.update a.lcp (i + 1) new_lcp
      cache := if saveCache then
        Function.update a.cache (i + 1) (ss.deref (ss.getChars (strings (i + 1)) new_lcp))
        else a.cache }
  else { a with strings := strings }

/-- The string before place `i + 1` moves up to it. -/
def LcpArrays.shift (saveCache checked : Bool) (n i : ℕ) (a : LcpArrays S) : LcpArrays S where
  strings := Function.update a.strings (i + 1) (a.strings i)
  lcp := if !checked || decide (i + 1 + 1 < n) then Function.update a.lcp (i + 1 + 1) (a.lcp (i + 1))
    else a.lcp
  cache := if saveCache then Function.update a.cache (i + 1) (a.cache i) else a.cache

/-- `lcp[i] = new_lcp;` and `cache[i] = c;` -/
def LcpArrays.setEntry (saveCache : Bool) (i new_lcp : ℕ) (c : CharType) (a : LcpArrays S) :
    LcpArrays S :=
  { a with
    lcp := Function.update a.lcp i new_lcp
    cache := if saveCache then Function.update a.cache i c else a.cache }

/-- A round of `lcp_insertion_sort`: `new_str` is inserted from place `i` down. -/
def lcpInsertDown (saveCache checked : Bool) (n : ℕ) (new_str : S) :
    ℕ → ℕ → LcpArrays S → LcpArrays S
  | 0, new_lcp, a => a.place ss saveCache checked n new_str 0 new_lcp
  | i + 1, new_lcp, a =>
    let cur_str := a.strings i
    let cur_lcp := a.lcp (i + 1)
    if cur_lcp < new_lcp then
      -- CASE 1: lcp goes down -> insert string
      a.place ss saveCache checked n new_str (i + 1) new_lcp
    else if cur_lcp = new_lcp then
      -- CASE 2: compare more characters
      let c := mismatch ss new_str cur_str new_lcp
      let next_lcp := new_lcp + (c.1 - ss.getChars new_str new_lcp)
      if !ss.isLess new_str c.1 cur_str c.2 then
        (a.setEntry saveCache (i + 1) next_lcp
          (if ss.isEnd new_str c.1 then 0 else ss.deref c.1)).place ss saveCache checked n
          new_str (i + 1) new_lcp
      else lcpInsertDown saveCache checked n new_str i next_lcp (a.shift saveCache checked n i)
    else
      -- CASE 3: nothing to do
      lcpInsertDown saveCache checked n new_str i new_lcp (a.shift saveCache checked n i)

/-- The first `j` rounds of `lcp_insertion_sort`, without checks. -/
def lcpInsertionRounds (saveCache : Bool) (n depth : ℕ) : ℕ → LcpArrays S → LcpArrays S
  | 0, a => a
  | j + 1, a =>
    let a := lcpInsertionRounds saveCache n depth j a
    lcpInsertDown ss saveCache false n (a.strings j) j depth a

/-- `lcp_insertion_sort<SaveCache>(str, lcp, cache, depth)` for `n` strings. -/
def lcpInsertionSort (saveCache : Bool) (a : LcpArrays S) (n depth : ℕ) : LcpArrays S :=
  if n ≤ 1 then a
  else
    let a := lcpInsertionRounds ss saveCache n depth (n - 1) a
    lcpInsertDown ss saveCache true n (a.strings (n - 1)) (n - 1) depth a

end Model

/-! ## Comparisons -/

section Compare

variable {S ι : Type} [LinearOrder ι] {ss : StringSet S} {f : S → ι}

/-- From a shared depth on, the scan ends behind the common prefix. -/
theorem StringSet.Lawful.mismatch_eq (h : ss.Lawful) {a b : S} {depth : ℕ}
    (hs : SharePrefix depth (ss.chars a) (ss.chars b)) :
    mismatch ss a b depth = (ss.getChars a (lcpLen (ss.chars a) (ss.chars b)),
      ss.getChars b (lcpLen (ss.chars a) (ss.chars b))) := by
  have hl := hs.left
  have hr := hs.right
  rw [ss.length_chars] at hl hr
  rw [mismatch, StringSet.scanEqual_eq h a b _ _ _ hl hr (Nat.sub_le _ _), hs.lcpLen_eq]

theorem StringSet.OrderedBy.decides (h : ss.OrderedBy f) (w : List CharType) (depth : ℕ) :
    Decides (leqAtMismatch ss depth) f fun s => SharePrefix depth w (ss.chars s) := by
  intro a b ha hb
  have hcmp := h.isLeq_iff a b _ rfl
  rw [leqAtMismatch, h.lawful.mismatch_eq (ha.symm.trans hb)]
  refine ⟨hcmp.mp, fun hfalse => ?_⟩
  rw [← Bool.not_eq_true, hcmp] at hfalse
  exact (not_le.mp hfalse).le

/-- Strings that agree up to the depth are sorted. -/
theorem inssortGeneric_spec (h : ss.OrderedBy f) {A : ℕ → S} {n depth : ℕ} {w : List CharType}
    (hn : 0 < n) (hw : ∀ p < n, SharePrefix depth w (ss.chars (A p))) :
    Slice.MonotoneIn (f ∘ inssortGeneric ss A n depth) 0 n ∧
      (contents (inssortGeneric ss A n depth) n).Perm (contents A n) := by
  obtain ⟨h₁, h₂, -⟩ := insertionSort_spec (h.decides w depth) hn hw
  exact ⟨h₁, h₂⟩

/-- The comparison from the first character on decides the order. -/
theorem StringSet.OrderedBy.stringLeq_iff (h : ss.OrderedBy f) (a b : S) :
    stringLeq ss a b = true ↔ f a ≤ f b := by
  rw [← h.isLeq_iff a b _ rfl]
  have hmis := h.lawful.mismatch_eq (SharePrefix.zero (ss.chars a) (ss.chars b))
  rw [mismatch] at hmis
  rw [stringLeq, hmis]

end Compare

/-! ## What a round writes -/

section Writes

variable {S : Type} (ss : StringSet S)

/-- Only strings up to `j`, and entries from 1 to `j + 1` that lie below `n`, are written. -/
structure LcpWrites (n j : ℕ) (a b : LcpArrays S) : Prop where
  strings : ∀ p, j < p → b.strings p = a.strings p
  lcp : ∀ k, k = 0 ∨ j + 1 < k ∨ n ≤ k → b.lcp k = a.lcp k
  cache : ∀ k, k = 0 ∨ j + 1 < k ∨ n ≤ k → b.cache k = a.cache k

variable {n j : ℕ} {a b c : LcpArrays S}

theorem LcpWrites.refl : LcpWrites n j a a := ⟨fun _ _ => rfl, fun _ _ => rfl, fun _ _ => rfl⟩

theorem LcpWrites.trans (h : LcpWrites n j a b) (h' : LcpWrites n j b c) : LcpWrites n j a c :=
  ⟨fun p hp => (h'.strings p hp).trans (h.strings p hp),
    fun k hk => (h'.lcp k hk).trans (h.lcp k hk),
    fun k hk => (h'.cache k hk).trans (h.cache k hk)⟩

theorem LcpWrites.mono {j' : ℕ} (h : LcpWrites n j a b) (hj : j ≤ j') : LcpWrites n j' a b :=
  ⟨fun p hp => h.strings p (by omega), fun k hk => h.lcp k (by omega),
    fun k hk => h.cache k (by omega)⟩

variable {checked : Bool}

/-- Without checks the entry behind the front exists. -/
theorem guard_eq (hck : checked = true ∨ j + 1 < n) {k : ℕ} (hk : k ≤ j + 1) :
    (!checked || decide (k < n)) = decide (k < n) := by
  rcases hck with rfl | hlt
  · rfl
  · rw [decide_eq_true (by omega), Bool.or_true]

theorem LcpArrays.place_writes (saveCache : Bool) (hck : checked = true ∨ j + 1 < n)
    (new_str : S) {i new_lcp : ℕ} (hi : i ≤ j) :
    LcpWrites n j a (a.place ss saveCache checked n new_str i new_lcp) := by
  have hstrings : ∀ p, j < p → Function.update a.strings i new_str p = a.strings p :=
    fun p hp => Function.update_of_ne (by omega) _ _
  rw [place, guard_eq hck (by omega)]
  by_cases hlt : i + 1 < n
  · rw [decide_eq_true hlt, if_pos rfl]
    refine ⟨hstrings, fun k hk => Function.update_of_ne (by omega) _ _, fun k hk => ?_⟩
    dsimp only
    split
    · exact Function.update_of_ne (by omega) _ _
    · rfl
  · rw [decide_eq_false hlt, if_neg (by simp)]
    exact ⟨hstrings, fun _ _ => rfl, fun _ _ => rfl⟩

theorem LcpArrays.shift_writes (saveCache : Bool) (hck : checked = true ∨ j + 1 < n) {i : ℕ}
    (hi : i + 1 ≤ j) (hj : j < n) : LcpWrites n j a (a.shift saveCache checked n i) := by
  refine ⟨fun p hp => Function.update_of_ne (by omega) _ _, fun k hk => ?_, fun k hk => ?_⟩
  · rw [shift, guard_eq hck (by omega)]
    by_cases hlt : i + 1 + 1 < n
    · rw [decide_eq_true hlt]
      exact Function.update_of_ne (by omega) _ _
    · rw [decide_eq_false hlt]
      rfl
  · dsimp only [shift]
    split
    · exact Function.update_of_ne (by omega) _ _
    · rfl

theorem LcpArrays.setEntry_writes (saveCache : Bool) (new_lcp : ℕ) (ch : CharType) {i : ℕ}
    (hi : i + 1 ≤ j) (hj : j < n) :
    LcpWrites n j a (a.setEntry saveCache (i + 1) new_lcp ch) := by
  refine ⟨fun _ _ => rfl, fun k hk => Function.update_of_ne (by omega) _ _, fun k hk => ?_⟩
  dsimp only [setEntry]
  split
  · exact Function.update_of_ne (by omega) _ _
  · rfl

theorem lcpInsertDown_writes (saveCache : Bool) (hck : checked = true ∨ j + 1 < n) (hj : j < n)
    (new_str : S) {i new_lcp : ℕ} (hi : i ≤ j) :
    LcpWrites n j a (lcpInsertDown ss saveCache checked n new_str i new_lcp a) := by
  induction i generalizing new_lcp a with
  | zero => exact LcpArrays.place_writes ss saveCache hck new_str hi
  | succ i ih =>
    have hshift := LcpArrays.shift_writes (a := a) saveCache hck hi hj
    rw [lcpInsertDown]
    dsimp only
    split
    · exact LcpArrays.place_writes ss saveCache hck new_str hi
    · split
      · split
        · exact (LcpArrays.setEntry_writes saveCache _ _ hi hj).trans
            (LcpArrays.place_writes ss saveCache hck new_str hi)
        · exact hshift.trans (ih (by omega))
      · exact hshift.trans (ih (by omega))

theorem LcpArrays.place_strings (saveCache : Bool) (new_str : S) (i new_lcp : ℕ) :
    (a.place ss saveCache checked n new_str i new_lcp).strings =
      Function.update a.strings i new_str := by
  rw [place]
  split <;> rfl

/-- A round rearranges the strings and the new one. -/
theorem lcpInsertDown_perm (saveCache : Bool) (new_str : S) {i new_lcp : ℕ} (hi : i < n) :
    (contents (lcpInsertDown ss saveCache checked n new_str i new_lcp a).strings n).Perm
      (contents (Function.update a.strings i new_str) n) := by
  induction i generalizing new_lcp a with
  | zero =>
    rw [lcpInsertDown, LcpArrays.place_strings]
  | succ i ih =>
    have hshift : (contents (Function.update (a.shift saveCache checked n i).strings i new_str)
        n).Perm (contents (Function.update a.strings (i + 1) new_str) n) := by
      rw [LcpArrays.shift, Function.update_comm (Nat.succ_ne_self i),
        update_swap a.strings new_str (Nat.succ_ne_self i)]
      exact perm_swap _ hi (by omega)
    rw [lcpInsertDown]
    dsimp only
    split
    · rw [LcpArrays.place_strings]
    · split
      · split
        · rw [LcpArrays.place_strings]
          rfl
        · exact (ih (by omega)).trans hshift
      · exact (ih (by omega)).trans hshift

end Writes

/-! ## What a round preserves -/

section Round

variable {S ι : Type} [LinearOrder ι] (ss : StringSet S) (f : S → ι)

/-- The common prefix of two strings of a set. -/
def lcpOf (a b : S) : ℕ := lcpLen (ss.chars a) (ss.chars b)

/-- The character of a string at a place, and zero behind its end. -/
def charOf (a : S) (k : ℕ) : CharType := (ss.chars a).getD k 0

/-- The set reads the terminator at the end of a string. -/
def StringSet.ReadsEnd : Prop :=
  ∀ s k, k ≤ ss.length s → ss.deref (ss.getChars s k) = charOf ss s k

/-- Distinguishing characters are kept, and the set can read them. -/
def KeepsCache (saveCache : Bool) : Prop := saveCache = true ∧ ss.ReadsEnd

/-- The first `j` strings are sorted, their entries are right, and the entry behind them is the
depth. -/
structure LcpFront (saveCache : Bool) (n depth j : ℕ) (a : LcpArrays S) : Prop where
  sorted : ∀ p q, p ≤ q → q < j → f (a.strings p) ≤ f (a.strings q)
  lcp : ∀ k, 0 < k → k < j → a.lcp k = lcpOf ss (a.strings (k - 1)) (a.strings k)
  sentinel : 0 < j → j < n → a.lcp j = depth
  cache : KeepsCache ss saveCache → ∀ k, 0 < k → k < j → a.cache k = charOf ss (a.strings k) (a.lcp k)

/-- Place `i` is free for `x` or a smaller string.  The entries before it are right, and so are
those from the second one behind it on; `new_lcp` belongs to the next one. -/
structure LcpFree (saveCache : Bool) (w : List CharType) (n depth j : ℕ) (x : S) (i new_lcp : ℕ)
    (a : LcpArrays S) : Prop where
  free : FreePlace f (fun s => SharePrefix depth w (ss.chars s)) x j i a.strings
  low : ∀ k, 0 < k → k < i → a.lcp k = lcpOf ss (a.strings (k - 1)) (a.strings k)
  high : ∀ k, i + 1 < k → k ≤ j → a.lcp k = lcpOf ss (a.strings (k - 1)) (a.strings k)
  newLcp : new_lcp = if i < j then lcpOf ss x (a.strings (i + 1)) else depth
  sentinel : i < j → j + 1 < n → a.lcp (j + 1) = depth
  cacheLow : KeepsCache ss saveCache → ∀ k, 0 < k → k < i → a.cache k = charOf ss (a.strings k) (a.lcp k)
  cacheHigh : KeepsCache ss saveCache → ∀ k, i + 1 < k → k ≤ j →
    a.cache k = charOf ss (a.strings k) (a.lcp k)

/-- The entry of the free place still belongs to the string that has moved up from there, and so
does its character, which has been copied. -/
structure LcpHere (saveCache : Bool) (depth j i : ℕ) (a : LcpArrays S) : Prop where
  lcp : 0 < i → a.lcp i = if i < j then lcpOf ss (a.strings (i - 1)) (a.strings (i + 1)) else depth
  cache : KeepsCache ss saveCache → 0 < i → i < j → a.cache i = charOf ss (a.strings (i + 1)) (a.lcp i)
  cacheNext : KeepsCache ss saveCache → 0 < i → i < j →
    a.cache (i + 1) = charOf ss (a.strings (i + 1)) (a.lcp i)

variable {ss} {f} {saveCache checked : Bool} {w : List CharType} {n depth j i new_lcp : ℕ} {x : S}
  {a : LcpArrays S}

theorem lcpOf_comm (a b : S) : lcpOf ss a b = lcpOf ss b a := lcpLen_comm _ _

theorem lcpOf_le_right (a b : S) : lcpOf ss a b ≤ ss.length b := by
  rw [← ss.length_chars b]
  exact lcpLen_le_right _ _

/-- Before the first comparison the last place of the front is free. -/
theorem LcpFront.free (h : LcpFront ss f saveCache n depth j a)
    (hw : ∀ p ≤ j, SharePrefix depth w (ss.chars (a.strings p))) (hj : j < n) :
    LcpFree ss f saveCache w n depth j (a.strings j) j depth a ∧ LcpHere ss saveCache depth j j a := by
  refine ⟨⟨⟨le_refl _, fun p hp _ => hw p hp, ?_, fun k h₁ h₂ => by omega⟩, h.lcp,
    fun k h₁ h₂ => by omega, ?_, fun h => absurd h (lt_irrefl _), h.cache,
    fun _ k h₁ h₂ => by omega⟩, ?_, fun _ _ h => absurd h (lt_irrefl _),
    fun _ _ h => absurd h (lt_irrefl _)⟩
  · exact fun p q hpq hq _ hqj => h.sorted p q hpq.le (by omega)
  · rw [if_neg (lt_irrefl _)]
  · intro hpos
    rw [if_neg (lt_irrefl _)]
    exact h.sentinel hpos hj

/-- A smaller string is placed behind a string that is not above it. -/
theorem LcpFree.place (h : LcpFree ss f saveCache w n depth j x i new_lcp a)
    (hck : checked = true ∨ j + 1 < n) (hj : j < n)
    (hlow : ∀ p < i, f (a.strings p) ≤ f x)
    (hlcp : 0 < i → a.lcp i = lcpOf ss (a.strings (i - 1)) x)
    (hcache : KeepsCache ss saveCache → 0 < i → a.cache i = charOf ss x (a.lcp i)) :
    LcpFront ss f saveCache n depth (j + 1) (a.place ss saveCache checked n x i new_lcp) := by
  have hij := h.free.le
  have hother : ∀ p, p ≠ i → Function.update a.strings i x p = a.strings p := fun p hp =>
    Function.update_of_ne hp _ _
  -- the entries apart from the one behind the place
  have hlcp' : ∀ b : ℕ → ℕ, (∀ k, k ≠ i + 1 → b k = a.lcp k) → (i < j → b (i + 1) = new_lcp) →
      ∀ k, 0 < k → k < j + 1 → b k = lcpOf ss (Function.update a.strings i x (k - 1))
        (Function.update a.strings i x k) := by
    intro b hb hnext k hk hkj
    rcases Nat.lt_trichotomy k i with hlt | heq | hgt
    · rw [hb k (by omega), hother _ (by omega), hother _ (by omega)]
      exact h.low k hk hlt
    · subst heq
      rw [hb k (by omega), hother _ (by omega), Function.update_self]
      exact hlcp hk
    · rcases Nat.eq_or_lt_of_le hgt with heq | hgt'
      · have hk' : k = i + 1 := heq.symm
        subst hk'
        rw [hnext (by omega), h.newLcp, if_pos (by omega), Nat.add_sub_cancel,
          Function.update_self, hother _ (by omega)]
      · rw [hb k (by omega), hother _ (by omega), hother _ (by omega)]
        exact h.high k hgt' (by omega)
  have hcache' : ∀ (b : ℕ → ℕ) (c : ℕ → CharType), (∀ k, k ≠ i + 1 → b k = a.lcp k) →
      (∀ k, k ≠ i + 1 → c k = a.cache k) →
      (i < j → KeepsCache ss saveCache → c (i + 1) = charOf ss (a.strings (i + 1)) (b (i + 1))) →
      KeepsCache ss saveCache → ∀ k, 0 < k → k < j + 1 →
        c k = charOf ss (Function.update a.strings i x k) (b k) := by
    intro b c hb hc hnext hsave k hk hkj
    rcases Nat.lt_trichotomy k i with hlt | heq | hgt
    · rw [hb k (by omega), hc k (by omega), hother _ (by omega)]
      exact h.cacheLow hsave k hk hlt
    · subst heq
      rw [hb k (by omega), hc k (by omega), Function.update_self]
      exact hcache hsave hk
    · rw [hother _ (by omega)]
      rcases Nat.eq_or_lt_of_le hgt with heq | hgt'
      · have hk' : k = i + 1 := heq.symm
        subst hk'
        exact hnext (by omega) hsave
      · rw [hb k (by omega), hc k (by omega)]
        exact h.cacheHigh hsave k hgt' (by omega)
  have hsorted : ∀ p q, p ≤ q → q < j + 1 →
      f (Function.update a.strings i x p) ≤ f (Function.update a.strings i x q) :=
    fun p q hpq hq => h.free.fill hlow hpq (by omega)
  have hguard := guard_eq (n := n) hck (show i + 1 ≤ j + 1 by omega)
  by_cases hlt : i + 1 < n
  · have hplace : a.place ss saveCache checked n x i new_lcp =
        { strings := Function.update a.strings i x
          lcp := Function.update a.lcp (i + 1) new_lcp
          cache := if saveCache then Function.update a.cache (i + 1)
            (ss.deref (ss.getChars (Function.update a.strings i x (i + 1)) new_lcp))
            else a.cache } := by
      rw [LcpArrays.place, hguard, decide_eq_true hlt]
      rfl
    rw [hplace]
    refine ⟨hsorted, hlcp' _ (fun k hk => Function.update_of_ne hk _ _)
      fun _ => Function.update_self .., fun _ hjn => ?_, ?_⟩
    · dsimp only
      rcases Nat.eq_or_lt_of_le hij with heq | hltj
      · subst heq
        rw [Function.update_self, h.newLcp, if_neg (lt_irrefl _)]
      · rw [Function.update_of_ne (by omega)]
        exact h.sentinel hltj hjn
    · refine hcache' _ _ (fun k hk => Function.update_of_ne hk _ _) (fun k hk => ?_) ?_
      · split
        · exact Function.update_of_ne hk _ _
        · rfl
      · intro hltj hsave
        dsimp only
        rw [if_pos hsave.1, Function.update_self, Function.update_self, hother _ (by omega)]
        refine hsave.2 _ _ ?_
        rw [h.newLcp, if_pos hltj]
        exact lcpOf_le_right _ _
  · have hplace : a.place ss saveCache checked n x i new_lcp =
        { a with strings := Function.update a.strings i x } := by
      rw [LcpArrays.place, hguard, decide_eq_false hlt]
      rfl
    rw [hplace]
    exact ⟨hsorted, hlcp' _ (fun _ _ => rfl) (by omega), fun _ hjn => by omega,
      hcache' _ _ (fun _ _ => rfl) (fun _ _ => rfl) (by omega)⟩

/-- A string that is not below `x` moves up. -/
theorem LcpFree.shift (h : LcpFree ss f saveCache w n depth j x (i + 1) new_lcp a)
    (hhere : LcpHere ss saveCache depth j (i + 1) a) (hck : checked = true ∨ j + 1 < n)
    (hj : j < n) (hgt : f x ≤ f (a.strings i)) :
    LcpFree ss f saveCache w n depth j x i (lcpOf ss x (a.strings i))
        (a.shift saveCache checked n i) ∧
      LcpHere ss saveCache depth j i (a.shift saveCache checked n i) := by
  have hij := h.free.le
  have hguard := guard_eq (n := n) hck (show i + 1 + 1 ≤ j + 1 by omega)
  have hstr : (a.shift saveCache checked n i).strings =
      Function.update a.strings (i + 1) (a.strings i) := rfl
  have hother : ∀ p, p ≠ i + 1 → (a.shift saveCache checked n i).strings p = a.strings p :=
    fun p hp => Function.update_of_ne hp _ _
  have hself : (a.shift saveCache checked n i).strings (i + 1) = a.strings i :=
    Function.update_self ..
  have hlcp : ∀ k, k ≠ i + 1 + 1 → (a.shift saveCache checked n i).lcp k = a.lcp k := by
    intro k hk
    dsimp only [LcpArrays.shift]
    split
    · exact Function.update_of_ne hk _ _
    · rfl
  have hlcpNext : i + 1 + 1 < n →
      (a.shift saveCache checked n i).lcp (i + 1 + 1) = a.lcp (i + 1) := by
    intro hlt
    rw [LcpArrays.shift, hguard, decide_eq_true hlt]
    exact Function.update_self ..
  have hcache : ∀ k, k ≠ i + 1 → (a.shift saveCache checked n i).cache k = a.cache k := by
    intro k hk
    dsimp only [LcpArrays.shift]
    split
    · exact Function.update_of_ne hk _ _
    · rfl
  have hcacheNext : KeepsCache ss saveCache →
      (a.shift saveCache checked n i).cache (i + 1) = a.cache i := by
    intro hsave
    dsimp only [LcpArrays.shift]
    rw [if_pos hsave.1]
    exact Function.update_self ..
  refine ⟨⟨h.free.shift hgt, fun k hk hki => ?_, fun k hk hkj => ?_, ?_, fun _ hjn => ?_,
    fun hsave k hk hki => ?_, fun hsave k hk hkj => ?_⟩, fun hi => ?_, fun hsave hi _ => ?_,
    fun hsave hi _ => ?_⟩
  · rw [hlcp k (by omega), hother _ (by omega), hother _ (by omega)]
    exact h.low k hk (by omega)
  · rcases Nat.eq_or_lt_of_le hk with heq | hlt
    · have hk' : k = i + 1 + 1 := heq.symm
      subst hk'
      rw [hlcpNext (by omega), hhere.lcp (Nat.succ_pos _), if_pos (by omega),
        Nat.add_sub_cancel, Nat.add_sub_cancel, hself, hother _ (by omega)]
    · rw [hlcp k (by omega), hother _ (by omega), hother _ (by omega)]
      exact h.high k hlt hkj
  · rw [if_pos (by omega), hself]
  · rcases Nat.eq_or_lt_of_le hij with heq | hlt
    · rw [← heq] at hjn ⊢
      rw [hlcpNext hjn, hhere.lcp (Nat.succ_pos _), if_neg (by omega)]
    · rw [hlcp _ (by omega)]
      exact h.sentinel hlt hjn
  · rw [hcache k (by omega), hlcp k (by omega), hother _ (by omega)]
    exact h.cacheLow hsave k hk (by omega)
  · rw [hcache k (by omega), hother _ (by omega)]
    rcases Nat.eq_or_lt_of_le hk with heq | hlt
    · have hk' : k = i + 1 + 1 := heq.symm
      subst hk'
      rw [hlcpNext (by omega)]
      exact hhere.cacheNext hsave (Nat.succ_pos _) (by omega)
    · rw [hlcp k (by omega)]
      exact h.cacheHigh hsave k hlt hkj
  · rw [if_pos (by omega), hlcp i (by omega), hself, hother _ (by omega)]
    exact h.low i hi (Nat.lt_succ_self i)
  · rw [hcache i (by omega), hself, hlcp i (by omega)]
    exact h.cacheLow hsave i hi (Nat.lt_succ_self i)
  · rw [hcacheNext hsave, hself, hlcp i (by omega)]
    exact h.cacheLow hsave i hi (Nat.lt_succ_self i)

theorem LcpArrays.setEntry_lcp (k v : ℕ) (c : CharType) :
    (a.setEntry saveCache k v c).lcp k = v := Function.update_self ..

theorem LcpArrays.setEntry_cache (hsave : saveCache = true) (k v : ℕ) (c : CharType) :
    (a.setEntry saveCache k v c).cache k = c := by
  dsimp only [setEntry]
  rw [if_pos hsave, Function.update_self]

/-- The entry of the free place may be set. -/
theorem LcpFree.setEntry (h : LcpFree ss f saveCache w n depth j x i new_lcp a) (v : ℕ)
    (c : CharType) :
    LcpFree ss f saveCache w n depth j x i new_lcp (a.setEntry saveCache i v c) := by
  have hij := h.free.le
  have hlcp : ∀ k, k ≠ i → (a.setEntry saveCache i v c).lcp k = a.lcp k := fun k hk =>
    Function.update_of_ne hk _ _
  have hcache : ∀ k, k ≠ i → (a.setEntry saveCache i v c).cache k = a.cache k := by
    intro k hk
    dsimp only [LcpArrays.setEntry]
    split
    · exact Function.update_of_ne hk _ _
    · rfl
  refine ⟨h.free, fun k hk hki => ?_, fun k hk hkj => ?_, h.newLcp, fun hlt hjn => ?_,
    fun hsave k hk hki => ?_, fun hsave k hk hkj => ?_⟩
  · rw [hlcp k (by omega)]
    exact h.low k hk hki
  · rw [hlcp k (by omega)]
    exact h.high k hk hkj
  · rw [hlcp _ (by omega)]
    exact h.sentinel hlt hjn
  · rw [hlcp k (by omega), hcache k (by omega)]
    exact h.cacheLow hsave k hk hki
  · rw [hlcp k (by omega), hcache k (by omega)]
    exact h.cacheHigh hsave k hk hkj

/-- What the comparisons of a round are about: before the free place stands a string that agrees
with `x` as far as the string behind the place does. -/
theorem LcpFree.sharePrefix (h : LcpFree ss f saveCache w n depth j x (i + 1) new_lcp a)
    (hhere : LcpHere ss saveCache depth j (i + 1) a) (hx : SharePrefix depth w (ss.chars x))
    (heq : a.lcp (i + 1) = new_lcp) : SharePrefix new_lcp (ss.chars x) (ss.chars (a.strings i)) := by
  have hij := h.free.le
  rw [h.newLcp] at heq ⊢
  rw [hhere.lcp (Nat.succ_pos _)] at heq
  split
  · next hlt =>
    rw [if_pos hlt, if_pos hlt, Nat.add_sub_cancel] at heq
    refine (SharePrefix.iff_le_lcpLen.mpr (le_refl _)).trans (SharePrefix.symm ?_)
    rw [SharePrefix.iff_le_lcpLen]
    exact heq.ge
  · exact hx.symm.trans (h.free.mem i (by omega) (by omega))

/-- One round of the LCP insertion sort. -/
theorem lcpInsertDown_spec (hss : ss.OrderedBy f)
    (hck : checked = true ∨ j + 1 < n) (hj : j < n) (hx : SharePrefix depth w (ss.chars x))
    (h : LcpFree ss f saveCache w n depth j x i new_lcp a)
    (hhere : LcpHere ss saveCache depth j i a) :
    LcpFront ss f saveCache n depth (j + 1)
      (lcpInsertDown ss saveCache checked n x i new_lcp a) := by
  induction i generalizing new_lcp a with
  | zero => exact h.place hck hj (by omega) (by omega) (by omega)
  | succ i ih =>
    have hij := h.free.le
    -- once a string that is not above `x` is met, nothing before it is above `x`
    have hlow : f (a.strings i) ≤ f x →
        ∀ p < i + 1, f (a.strings p) ≤ f x := by
      intro hle p hp
      rcases Nat.eq_or_lt_of_le (Nat.lt_succ_iff.mp hp) with rfl | hlt
      · exact hle
      · exact (h.free.sorted p i hlt (by omega) (by omega) (by omega)).trans hle
    have hcur := hhere.lcp (Nat.succ_pos _)
    rw [Nat.add_sub_cancel] at hcur
    rw [lcpInsertDown]
    dsimp only
    split
    · next hdown =>
      -- the string before is further from the one behind than `x` is
      have hlt : i + 1 < j := by
        by_contra hge
        rw [hcur, h.newLcp, if_neg hge, if_neg hge] at hdown
        exact lt_irrefl _ hdown
      rw [if_pos hlt] at hcur
      have hnew := h.newLcp
      rw [if_pos hlt] at hnew
      have hbehind := h.free.sorted i (i + 1 + 1) (by omega) hlt (by omega) (by omega)
      have hxbehind := h.free.high (i + 1 + 1) (by omega) hlt
      have hle : f (a.strings i) ≤ f x := by
        by_contra hgt
        have hmin := hss.lcpLen_between _ _ _ (not_le.mp hgt).le hbehind
        rw [hcur, hnew, lcpOf, lcpOf, hmin] at hdown
        exact absurd hdown (not_lt.mpr (min_le_right _ _))
      have hmin := hss.lcpLen_between _ _ _ hle hxbehind
      have hlcp : a.lcp (i + 1) = lcpOf ss (a.strings i) x := by
        rw [hcur, hnew, lcpOf, lcpOf, hmin] at hdown
        rw [hcur, lcpOf, lcpOf, hmin]
        exact min_eq_left (by omega)
      refine h.place hck hj (hlow hle) (fun _ => hlcp) fun hsave hpos => ?_
      rw [hhere.cache hsave hpos hlt, charOf, charOf]
      -- `x` agrees with the string behind beyond this place
      have htake := ((le_lcpLen_iff _ _ _).mp (le_of_eq hnew)).2.2
      rw [List.getD_eq_getElem?_getD, List.getD_eq_getElem?_getD,
        ← List.getElem?_take_of_lt hdown, ← htake, List.getElem?_take_of_lt hdown]
    · next hnotdown =>
      split
      · next heq =>
        have hshare := h.sharePrefix hhere hx heq
        have hnext : new_lcp + ((mismatch ss x (a.strings i) new_lcp).1 -
            ss.getChars x new_lcp) = lcpOf ss x (a.strings i) := by
          have hle : new_lcp ≤ lcpLen (ss.chars x) (ss.chars (a.strings i)) :=
            SharePrefix.iff_le_lcpLen.mp hshare
          rw [hss.lawful.mismatch_eq hshare, hss.lawful.getChars_add x new_lcp,
            hss.lawful.getChars_add x (lcpLen _ _), lcpOf]
          omega
        rw [hss.lawful.mismatch_eq hshare] at hnext ⊢
        dsimp only at hnext ⊢
        rw [hnext]
        split
        · next hstop =>
          rw [Bool.not_eq_true'] at hstop
          have hle := hss.ge_of_not_isLess x (a.strings i) _ rfl hstop
          refine (h.setEntry _ _).place hck hj (hlow hle)
            (fun _ => ?_) fun hsave _ => ?_
          · rw [LcpArrays.setEntry_lcp, lcpOf_comm]
            rfl
          · rw [LcpArrays.setEntry_lcp, LcpArrays.setEntry_cache hsave.1]
            have hlen : lcpLen (ss.chars x) (ss.chars (a.strings i)) ≤ ss.length x := by
              rw [← ss.length_chars x]
              exact lcpLen_le_left _ _
            have hend := hss.lawful.isEnd_iff x _ hlen
            split
            · next hisEnd =>
              rw [charOf, List.getD_eq_default]
              rw [ss.length_chars]
              exact (hend.mp hisEnd).ge
            · next hisEnd => exact hsave.2 x _ hlen
        · next hgo =>
          rw [Bool.not_eq_true', Bool.not_eq_false] at hgo
          obtain ⟨hfree, hhere'⟩ :=
            h.shift hhere hck hj (hss.le_of_isLess x (a.strings i) _ rfl hgo)
          exact ih hfree hhere'
      · next hne =>
        -- the string before is closer to the one behind than `x` is
        have hlt : i + 1 < j := by
          by_contra hge
          rw [hcur, h.newLcp, if_neg hge, if_neg hge] at hne
          exact hne rfl
        rw [if_pos hlt] at hcur
        have hnew := h.newLcp
        rw [if_pos hlt] at hnew
        have hbehind := h.free.sorted i (i + 1 + 1) (by omega) hlt (by omega) (by omega)
        have hxbehind := h.free.high (i + 1 + 1) (by omega) hlt
        have hgt : new_lcp < a.lcp (i + 1) := by omega
        have hle : f x ≤ f (a.strings i) := by
          by_contra hge
          have hmin := hss.lcpLen_between _ _ _ (not_le.mp hge).le hxbehind
          rw [hcur, hnew, lcpOf, lcpOf, hmin] at hgt
          exact absurd hgt (not_lt.mpr (min_le_right _ _))
        have hmin := hss.lcpLen_between _ _ _ hle hbehind
        have hsame : new_lcp = lcpOf ss x (a.strings i) := by
          rw [hcur, hnew, lcpOf, lcpOf, hmin] at hgt
          rw [hnew, lcpOf, lcpOf, hmin]
          exact min_eq_left (by omega)
        obtain ⟨hfree, hhere'⟩ := h.shift hhere hck hj hle
        rw [← hsame] at hfree
        exact ih hfree hhere'

/-- A round takes the front from `j` strings to `j + 1`. -/
theorem lcpInsertDown_round (hss : ss.OrderedBy f)
    (hck : checked = true ∨ j + 1 < n) (hj : j < n)
    (hw : ∀ p < n, SharePrefix depth w (ss.chars (a.strings p)))
    (h : LcpFront ss f saveCache n depth j a) :
    LcpFront ss f saveCache n depth (j + 1)
        (lcpInsertDown ss saveCache checked n (a.strings j) j depth a) ∧
      (contents (lcpInsertDown ss saveCache checked n (a.strings j) j depth a).strings n).Perm
        (contents a.strings n) ∧
      LcpWrites n j a (lcpInsertDown ss saveCache checked n (a.strings j) j depth a) := by
  obtain ⟨hfree, hhere⟩ := h.free (fun p hp => hw p (by omega)) hj
  refine ⟨lcpInsertDown_spec hss hck hj (hw j hj) hfree hhere, ?_,
    lcpInsertDown_writes ss saveCache hck hj _ (le_refl j)⟩
  refine (lcpInsertDown_perm ss saveCache (a.strings j) hj).trans ?_
  rw [Function.update_eq_self]

/-- The strings of a rearrangement still reach the depth. -/
theorem sharePrefix_of_perm {A B : ℕ → S} (hperm : (contents B n).Perm (contents A n))
    (hw : ∀ p < n, SharePrefix depth w (ss.chars (A p))) :
    ∀ p < n, SharePrefix depth w (ss.chars (B p)) := by
  intro p hp
  obtain ⟨q, hq, heq⟩ := mem_contents.mp (hperm.mem_iff.mp (mem_contents.mpr ⟨p, hp, rfl⟩))
  rw [← heq]
  exact hw q hq

theorem lcpInsertionRounds_spec (hss : ss.OrderedBy f)
    (hj : j < n) (hw : ∀ p < n, SharePrefix depth w (ss.chars (a.strings p))) :
    LcpFront ss f saveCache n depth j (lcpInsertionRounds ss saveCache n depth j a) ∧
      (contents (lcpInsertionRounds ss saveCache n depth j a).strings n).Perm
        (contents a.strings n) ∧
      LcpWrites n (n - 1) a (lcpInsertionRounds ss saveCache n depth j a) := by
  induction j with
  | zero =>
    exact ⟨⟨fun p q _ h => absurd h (Nat.not_lt_zero q), fun k _ h => absurd h (Nat.not_lt_zero k),
      fun h => absurd h (lt_irrefl 0), fun _ k _ h => absurd h (Nat.not_lt_zero k)⟩,
      List.Perm.refl _, LcpWrites.refl⟩
  | succ j ih =>
    obtain ⟨hfront, hperm, hwrites⟩ := ih (by omega)
    obtain ⟨h₁, h₂, h₃⟩ := lcpInsertDown_round hss (show false = true ∨ _ from Or.inr hj) (by omega)
      (sharePrefix_of_perm hperm hw) hfront
    exact ⟨h₁, h₂.trans hperm, hwrites.trans (h₃.mono (by omega))⟩

/-- The strings are sorted, and the entries behind the first one hold their common prefixes and
distinguishing characters.  The first entry and those behind the range are not written. -/
theorem lcpInsertionSort_spec (saveCache : Bool) (hss : ss.OrderedBy f)
    (hw : ∀ p < n, SharePrefix depth w (ss.chars (a.strings p))) :
    LcpFront ss f saveCache n depth n (lcpInsertionSort ss saveCache a n depth) ∧
      (contents (lcpInsertionSort ss saveCache a n depth).strings n).Perm (contents a.strings n) ∧
      LcpWrites n (n - 1) a (lcpInsertionSort ss saveCache a n depth) := by
  rw [lcpInsertionSort]
  split
  · next hle =>
    refine ⟨⟨fun p q hpq hq => ?_, fun k h₁ h₂ => by omega, fun _ h => absurd h (lt_irrefl n),
      fun _ k h₁ h₂ => by omega⟩, List.Perm.refl _, LcpWrites.refl⟩
    rw [show p = q by omega]
  · next hgt =>
    obtain ⟨hfront, hperm, hwrites⟩ := lcpInsertionRounds_spec (j := n - 1) hss (by omega) hw
    obtain ⟨h₁, h₂, h₃⟩ := lcpInsertDown_round hss (show true = true ∨ _ from Or.inl rfl)
      (by omega) (sharePrefix_of_perm hperm hw) hfront
    rw [show n - 1 + 1 = n by omega] at h₁
    exact ⟨h₁, h₂.trans hperm, hwrites.trans h₃⟩

end Round

/-! ## The sort -/

section LcpInsertion

variable {S : Type}

/-- What the sort leaves behind in arrays that held `a`: the strings in the order of their set,
and exact common prefixes.  Neither the first entry nor anything behind the range is written. -/
structure LcpSorted (ss : StringSet S) (n : ℕ) (a b : LcpArrays S) : Prop where
  perm : (contents b.strings n).Perm (contents a.strings n)
  sorted : ∀ p q, p ≤ q → q < n → stringLeq ss (b.strings p) (b.strings q) = true
  lcp : ∀ i, 1 ≤ i → i < n →
    b.lcp i = lcpLen (ss.chars (b.strings (i - 1))) (ss.chars (b.strings i))
  stringsBehind : ∀ i, n ≤ i → b.strings i = a.strings i
  lcpFixed : ∀ i, i = 0 ∨ n ≤ i → b.lcp i = a.lcp i
  cacheFixed : ∀ i, i = 0 ∨ n ≤ i → b.cache i = a.cache i

/-- Strings that agree up to the depth pairwise agree with the first one. -/
theorem sharePrefix_first {ss : StringSet S} {A : ℕ → S} {n depth : ℕ} (hn : 1 < n)
    (hagree : ∀ p q, p < q → q < n → SharePrefix depth (ss.chars (A p)) (ss.chars (A q))) :
    ∀ p < n, SharePrefix depth (ss.chars (A 0)) (ss.chars (A p)) := by
  intro p hp
  rcases Nat.eq_zero_or_pos p with rfl | hpos
  · have h := hagree 0 1 one_pos hn
    exact h.trans h.symm
  · exact hagree 0 p hpos hp

theorem lcpInsertionSort_lcpSorted {ss : StringSet S} (hset : StringSetOf ss) (saveCache : Bool)
    {a : LcpArrays S} {n depth : ℕ}
    (hagree : ∀ p q, p < q → q < n →
      SharePrefix depth (ss.chars (a.strings p)) (ss.chars (a.strings q))) :
    LcpSorted ss n a (lcpInsertionSort ss saveCache a n depth) := by
  obtain ⟨f, hf⟩ := hset.orderedBy
  rcases Nat.lt_or_ge 1 n with hn | hn
  · obtain ⟨hfront, hperm, hwrites⟩ := lcpInsertionSort_spec saveCache hf
      (sharePrefix_first hn hagree)
    refine ⟨hperm, fun p q hpq hq => ?_, hfront.lcp, fun i hi => hwrites.strings i (by omega),
      fun i hi => hwrites.lcp i (by omega), fun i hi => hwrites.cache i (by omega)⟩
    rw [hf.stringLeq_iff]
    exact hfront.sorted p q hpq hq
  · rw [lcpInsertionSort, if_pos hn]
    refine ⟨List.Perm.refl _, fun p q hpq hq => ?_, fun i h₁ h₂ => by omega, fun _ _ => rfl,
      fun _ _ => rfl, fun _ _ => rfl⟩
    rw [hf.stringLeq_iff, show p = q by omega]

theorem UCharStringSet.readsEnd (mem : ℕ → CharType) : (UCharStringSet mem).ReadsEnd :=
  fun _ _ hk => (GenericCharStringSet.deref_eq hk).trans (List.getD_eq_getElem?_getD ..).symm

theorem lcpInsertionSort_cache {mem : ℕ → CharType} {a : LcpArrays (CString mem)} {n depth : ℕ}
    (hagree : ∀ p q, p < q → q < n → SharePrefix depth
      ((UCharStringSet mem).chars (a.strings p)) ((UCharStringSet mem).chars (a.strings q))) {i : ℕ}
    (hpos : 1 ≤ i) (hi : i < n) :
    let b := lcpInsertionSort (UCharStringSet mem) true a n depth
    b.cache i = charOf (UCharStringSet mem) (b.strings i) (b.lcp i) := by
  obtain ⟨hfront, -, -⟩ := lcpInsertionSort_spec true
    (UCharStringSet.sortable mem).orderedBy (sharePrefix_first (by omega) hagree)
  exact hfront.cache ⟨rfl, UCharStringSet.readsEnd mem⟩ i hpos hi

/-- Whatever the arrays held, strings that agree up to the depth are sorted in the order of their
set, with their common prefixes and, where these are kept, distinguishing characters. -/
theorem lcpInsertionSort_exact (saveCache : Bool) (n depth : ℕ) :
    (∀ {S : Type} (ss : StringSet S), StringSetOf ss → ∀ a : LcpArrays S,
      (∀ p q, p < q → q < n →
        SharePrefix depth (ss.chars (a.strings p)) (ss.chars (a.strings q))) →
      LcpSorted ss n a (lcpInsertionSort ss saveCache a n depth)) ∧
    ∀ (mem : ℕ → CharType) (a : LcpArrays (CString mem)),
      (∀ p q, p < q → q < n → SharePrefix depth ((UCharStringSet mem).chars (a.strings p))
        ((UCharStringSet mem).chars (a.strings q))) →
      saveCache = true → ∀ i, 1 ≤ i → i < n →
        let b := lcpInsertionSort (UCharStringSet mem) saveCache a n depth
        b.cache i = charOf (UCharStringSet mem) (b.strings i) (b.lcp i) := by
  refine ⟨fun ss hset a hagree => lcpInsertionSort_lcpSorted hset saveCache hagree,
    fun mem a hagree hsave i hpos hi => ?_⟩
  subst hsave
  exact lcpInsertionSort_cache hagree hpos hi

/-- The strings `"ab"` and `"aa"` in memory. -/
private def memAB : ℕ → CharType := fun i => [97, 98, 0, 97, 97, 0].getD i 0

private def arraysAB : LcpArrays (CString memAB) where
  strings i := if i = 0 then ⟨0, 2, by decide, by decide⟩ else ⟨3, 2, by decide, by decide⟩
  lcp _ := 7
  cache _ := 7

private theorem arraysAB_agree (p q : ℕ) (hpq : p < q) (hq : q < 2) :
    SharePrefix 1 ((UCharStringSet memAB).chars (arraysAB.strings p))
      ((UCharStringSet memAB).chars (arraysAB.strings q)) := by
  rw [show p = 0 by omega, show q = 1 by omega]
  exact ⟨by decide, by decide, by decide⟩

/-- Two strings that share one character, sorted from there on. -/
theorem lcpInsertionSort_exact_two :
    LcpSorted (UCharStringSet memAB) 2 arraysAB
        (lcpInsertionSort (UCharStringSet memAB) true arraysAB 2 1) ∧
      (lcpInsertionSort (UCharStringSet memAB) true arraysAB 2 1).cache 1 = 98 := by
  have h := lcpInsertionSort_exact true 2 1
  refine ⟨h.1 _ (StringSetOf.ucharStringSet memAB) arraysAB arraysAB_agree, ?_⟩
  refine (h.2 memAB arraysAB arraysAB_agree rfl 1 (le_refl 1) one_lt_two).trans ?_
  decide

end LcpInsertion

end StringSampleSort
