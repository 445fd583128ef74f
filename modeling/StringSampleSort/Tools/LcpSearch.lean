import StringSampleSort.Tools.StringOrder

/-!
# Binary search with common prefixes

Model of `LcpCacheStringPtr::binarySearch` of `src/tools/stringptr.hpp` and of the comparison
`scmp` of `src/tools/stringtools.hpp` that it uses.  The search knows how long a prefix the searched
string has in common with the strings at both ends of its range, and starts each comparison behind
the shorter one.

An index is a `size_t`.  The array holds pointers, so the sum of two indices does not wrap.

## Main results

- `scmp_spec`: a comparison that starts within the common prefix is exact
- `lcpSearchLoop_spec`: one round keeps the two prefix lengths exact
- `binarySearch_exact`: the search finds the first string that is not below the searched one
-/

namespace StringSampleSort

open Library

/-! ## Model -/

section Model

variable (mem : ℕ → CharType)

/-- `while (*s1 != 0 && *s1 == *s2) s1++, s2++, lcp++;` and `*s1 - *s2`, for at most `fuel` rounds.
The result is the difference and the final `lcp`. -/
def scmpLoop : ℕ → ℕ → ℕ → ℕ → Option (ℤ × ℕ)
  | 0, _, _, _ => none
  | fuel + 1, s1, s2, lcp =>
    if mem s1 ≠ 0 ∧ mem s1 = mem s2 then scmpLoop fuel (s1 + 1) (s2 + 1) (lcp + 1)
    else some (charVal false (mem s1) - charVal false (mem s2), lcp)

variable {mem}

/-- `scmp(_s1, _s2, lcp)`. -/
def scmp (fuel : ℕ) (_s1 _s2 : CString mem) (lcp : ℕ) : Option (ℤ × ℕ) :=
  scmpLoop mem fuel (_s1.ptr + lcp) (_s2.ptr + lcp) lcp

/-- A call `scmp(searched, strings[index], h)`. -/
structure ScmpCall where
  index : ℕ
  h : ℕ
  deriving DecidableEq, Repr

/-- `while ((r - l) > 1)`, for at most `fuel` rounds, with the calls of `scmp` that it makes.  The
result is the index `r` in the end. -/
def lcpSearchLoop (scmpFuel : ℕ) (searched : CString mem) (strings : ℕ → CString mem) :
    ℕ → ℕ → ℕ → ℕ → ℕ → Option (ℕ × List ScmpCall)
  | 0, _, _, _, _ => none
  | fuel + 1, l, r, hl, hr =>
    if r - l > 1 then
      let m := (l + r) / 2
      let h := min hl hr
      (scmp scmpFuel searched (strings m) h).bind fun c =>
        (if c.1 ≤ 0 then lcpSearchLoop scmpFuel searched strings fuel l m hl c.2
          else lcpSearchLoop scmpFuel searched strings fuel m r c.2 hr).map fun res =>
            (res.1, ⟨m, h⟩ :: res.2)
    else some (r, [])

/-- `LcpCacheStringPtr::binarySearch(searched)` on `size` strings.  No loop makes more than `fuel`
rounds. -/
def LcpCacheStringPtr.binarySearch (fuel : ℕ) (searched : CString mem)
    (strings : ℕ → CString mem) (size : ℕ) :
    Option (ℕ × List ScmpCall) :=
  let r := size - 1
  (scmp fuel searched (strings 0) 0).bind fun c =>
    if c.1 ≤ 0 then some (0, [⟨0, 0⟩])
    else (scmp fuel searched (strings r) 0).bind fun c' =>
      if c'.1 > 0 then some (size, [⟨0, 0⟩, ⟨r, 0⟩])
      else (lcpSearchLoop fuel searched strings fuel 0 r c.2 c'.2).map fun res =>
        (res.1, ⟨0, 0⟩ :: ⟨r, 0⟩ :: res.2)

end Model

/-! ## Comparisons -/

section Compare

variable {mem : ℕ → CharType} (a b : CString mem)

/-- The characters of a string. -/
abbrev CString.text (s : CString mem) : List CharType := (UCharStringSet mem).chars s

/-- Within the common prefix, the test of the scan finds out whether it ends. -/
theorem scmp_test_iff {k : ℕ} (hk : k ≤ lcpLen a.text b.text) :
    mem (a.ptr + k) ≠ 0 ∧ mem (a.ptr + k) = mem (b.ptr + k) ↔ k < lcpLen a.text b.text := by
  obtain ⟨ha, hb, htake⟩ := (le_lcpLen_iff a.text b.text k).mp hk
  have hsplit := lcpLen_of_take_eq ha htake
  have hequal := (UCharStringSet.sortable mem).lawful.isEqual_iff a b k k
    (ha.trans_eq (StringSet.length_chars ..)) (hb.trans_eq (StringSet.length_chars ..))
  have htest : (UCharStringSet mem).isEqual a ((UCharStringSet mem).getChars a k) b
      ((UCharStringSet mem).getChars b k) = true ↔
        mem (a.ptr + k) ≠ 0 ∧ mem (a.ptr + k) = mem (b.ptr + k) := by
    simp [UCharStringSet, GenericCharStringSet, and_comm]
  rw [← htest, hequal]
  constructor
  · rintro ⟨hka, hkb, hchar⟩
    rw [StringSet.drop_chars_cons _ a hka, StringSet.drop_chars_cons _ b hkb, lcpLen_cons,
      if_pos hchar] at hsplit
    omega
  · intro hlt
    have hka := hlt.trans_le ((lcpLen_le_left a.text b.text).trans_eq (StringSet.length_chars ..))
    have hkb := hlt.trans_le ((lcpLen_le_right a.text b.text).trans_eq (StringSet.length_chars ..))
    refine ⟨hka, hkb, ?_⟩
    by_contra hchar
    rw [StringSet.drop_chars_cons _ a hka, StringSet.drop_chars_cons _ b hkb, lcpLen_cons,
      if_neg hchar] at hsplit
    exact hlt.ne hsplit.symm

/-- The scan stops at the end of the common prefix. -/
theorem scmpLoop_eq {k fuel : ℕ} (hk : k ≤ lcpLen a.text b.text)
    (hfuel : lcpLen a.text b.text - k < fuel) :
    scmpLoop mem fuel (a.ptr + k) (b.ptr + k) k =
      some (charVal false (mem (a.ptr + lcpLen a.text b.text)) -
        charVal false (mem (b.ptr + lcpLen a.text b.text)), lcpLen a.text b.text) := by
  induction fuel generalizing k with
  | zero => exact absurd hfuel (Nat.not_lt_zero _)
  | succ fuel ih =>
    rw [scmpLoop]
    rcases Nat.eq_or_lt_of_le hk with rfl | hlt
    · rw [if_neg fun h => lt_irrefl _ ((scmp_test_iff a b hk).mp h)]
    · rw [if_pos ((scmp_test_iff a b hk).mpr hlt)]
      exact ih hlt (by omega)

/-- A comparison that starts within the common prefix. -/
theorem scmp_spec {lcp fuel : ℕ} (hlcp : lcp ≤ lcpLen a.text b.text) (hfuel : a.len < fuel) :
    ∃ d, scmp fuel a b lcp = some (d, lcpLen a.text b.text) ∧ (d ≤ 0 ↔ a.text ≤ b.text) := by
  have hlen : lcpLen a.text b.text ≤ a.len :=
    (lcpLen_le_left a.text b.text).trans_eq (StringSet.length_chars ..)
  refine ⟨_, scmpLoop_eq a b hlcp (by omega), ?_⟩
  rw [sub_nonpos, ← (UCharStringSet.sortable mem).isLeq_iff a b _ rfl]
  exact decide_eq_true_iff.symm

end Compare

/-! ## The search -/

section Search

variable {mem : ℕ → CharType} {searched : CString mem} {strings : ℕ → CString mem} {size : ℕ}

/-- The strings are sorted. -/
def SortedArray (strings : ℕ → CString mem) (size : ℕ) : Prop :=
  ∀ i j, i ≤ j → j < size → (strings i).text ≤ (strings j).text

/-- The call starts within the common prefix of the two strings. -/
def ScmpCall.WithinPrefix (searched : CString mem) (strings : ℕ → CString mem) (size : ℕ)
    (c : ScmpCall) : Prop :=
  c.index < size ∧ c.h ≤ lcpLen searched.text (strings c.index).text

/-- What holds at the loop test: the searched string lies behind the string at `l` and not behind
the one at `r`, and the prefix lengths are exact. -/
structure SearchRange (searched : CString mem) (strings : ℕ → CString mem) (size l r hl hr : ℕ) :
    Prop where
  lt : l < r
  lt_size : r < size
  below : (strings l).text < searched.text
  above : searched.text ≤ (strings r).text
  left_lcp : hl = lcpLen searched.text (strings l).text
  right_lcp : hr = lcpLen searched.text (strings r).text

variable {l r hl hr : ℕ}

/-- All strings of the range share the shorter one of the two prefixes with the searched string. -/
theorem SearchRange.min_le (h : SearchRange searched strings size l r hl hr)
    (hsorted : SortedArray strings size) {m : ℕ} (hlm : l ≤ m) (hmr : m ≤ r) :
    min hl hr ≤ lcpLen searched.text (strings m).text := by
  rw [h.left_lcp, h.right_lcp]
  exact min_lcpLen_le (hsorted l m hlm (hmr.trans_lt h.lt_size)) (hsorted m r hmr h.lt_size)

/-- The loop finds the first string that is not below the searched one, and each comparison starts
within the common prefix. -/
theorem lcpSearchLoop_spec (hsorted : SortedArray strings size) {scmpFuel : ℕ}
    (hscmp : searched.len < scmpFuel) {fuel : ℕ} (hfuel : r - l < fuel)
    (h : SearchRange searched strings size l r hl hr) :
    ∃ idx calls, lcpSearchLoop scmpFuel searched strings fuel l r hl hr = some (idx, calls) ∧
      idx < size ∧ (∀ i < idx, (strings i).text < searched.text) ∧
      searched.text ≤ (strings idx).text ∧
      ∀ c ∈ calls, c.WithinPrefix searched strings size := by
  induction fuel generalizing l r hl hr with
  | zero => exact absurd hfuel (Nat.not_lt_zero _)
  | succ fuel ih =>
    rw [lcpSearchLoop]
    by_cases hgap : r - l > 1
    · have hlm : l < (l + r) / 2 := by omega
      have hmr : (l + r) / 2 < r := by omega
      have hwithin := h.min_le hsorted hlm.le hmr.le
      obtain ⟨d, hcall, hsign⟩ := scmp_spec searched (strings ((l + r) / 2)) hwithin hscmp
      rw [if_pos hgap]
      simp only [hcall, Option.bind_some]
      -- the half that is left has exact prefix lengths at both ends again
      have hhalf : ∃ idx calls, (if d ≤ 0 then
            lcpSearchLoop scmpFuel searched strings fuel l ((l + r) / 2) hl
              (lcpLen searched.text (strings ((l + r) / 2)).text)
          else lcpSearchLoop scmpFuel searched strings fuel ((l + r) / 2) r
              (lcpLen searched.text (strings ((l + r) / 2)).text) hr) = some (idx, calls) ∧
          idx < size ∧ (∀ i < idx, (strings i).text < searched.text) ∧
          searched.text ≤ (strings idx).text ∧
          ∀ c ∈ calls, c.WithinPrefix searched strings size := by
        by_cases hd : d ≤ 0
        · rw [if_pos hd]
          apply ih
          · omega
          · exact ⟨hlm, hmr.trans h.lt_size, h.below, hsign.mp hd, h.left_lcp, rfl⟩
        · rw [if_neg hd]
          apply ih
          · omega
          · exact ⟨hmr, h.lt_size, not_le.mp (hsign.not.mp hd), h.above, rfl, h.right_lcp⟩
      obtain ⟨idx, calls, heq, hlt, hbelow, habove, hcalls⟩ := hhalf
      refine ⟨idx, _, by rw [heq]; rfl, hlt, hbelow, habove, ?_⟩
      intro c hc
      rcases List.mem_cons.mp hc with rfl | hc
      · exact ⟨hmr.trans h.lt_size, hwithin⟩
      · exact hcalls c hc
    · -- nothing is left between the two ends
      have hr : r = l + 1 := by have := h.lt; omega
      rw [if_neg hgap]
      refine ⟨r, [], rfl, h.lt_size, fun i hi => ?_, h.above, by simp⟩
      exact (hsorted i l (by omega) (h.lt.trans h.lt_size)).trans_lt h.below

/-- The search ends with the first string that is not below the searched one, or with the number of
strings, and each comparison starts within the common prefix of the two strings that it compares. -/
theorem binarySearch_exact (searched : CString mem) (strings : ℕ → CString mem) (size : ℕ)
    (hsize : 0 < size) (hsorted : SortedArray strings size) :
    ∃ rounds, ∀ fuel ≥ rounds, ∃ idx calls,
      LcpCacheStringPtr.binarySearch fuel searched strings size = some (idx, calls) ∧ idx ≤ size ∧
      (∀ i < idx, (strings i).text < searched.text) ∧
      (idx < size → searched.text ≤ (strings idx).text) ∧
      ∀ c ∈ calls, c.WithinPrefix searched strings size := by
  refine ⟨searched.len + size + 1, fun fuel hfuel => ?_⟩
  have hscmp : searched.len < fuel := by omega
  obtain ⟨d, hcall, hsign⟩ := scmp_spec searched (strings 0) (Nat.zero_le _) hscmp
  obtain ⟨d', hcall', hsign'⟩ := scmp_spec searched (strings (size - 1)) (Nat.zero_le _) hscmp
  -- the first two comparisons start at the first character
  have hfirst : ScmpCall.WithinPrefix searched strings size ⟨0, 0⟩ := ⟨hsize, Nat.zero_le _⟩
  have hlast : ScmpCall.WithinPrefix searched strings size ⟨size - 1, 0⟩ :=
    ⟨Nat.sub_lt hsize Nat.one_pos, Nat.zero_le _⟩
  simp only [LcpCacheStringPtr.binarySearch, hcall, hcall', Option.bind_some]
  by_cases hd : d ≤ 0
  · rw [if_pos hd]
    refine ⟨0, _, rfl, Nat.zero_le _, by simp, fun _ => hsign.mp hd, ?_⟩
    simpa using hfirst
  · have hbelow : (strings 0).text < searched.text := not_le.mp (hsign.not.mp hd)
    rw [if_neg hd]
    by_cases hd' : d' > 0
    · have habove : (strings (size - 1)).text < searched.text :=
        not_le.mp (hsign'.not.mp (not_le.mpr hd'))
      rw [if_pos hd']
      refine ⟨size, _, rfl, le_refl _, fun i hi => ?_, fun hlt => absurd hlt (lt_irrefl _), ?_⟩
      · exact (hsorted i (size - 1) (by omega) (by omega)).trans_lt habove
      · simpa using ⟨hfirst, hlast⟩
    · have habove : searched.text ≤ (strings (size - 1)).text := hsign'.mp (not_lt.mp hd')
      have hgap : 0 < size - 1 := by
        rw [Nat.pos_iff_ne_zero]
        intro hzero
        rw [hzero] at habove
        exact absurd habove (not_le.mpr hbelow)
      have hrange : SearchRange searched strings size 0 (size - 1)
          (lcpLen searched.text (strings 0).text)
          (lcpLen searched.text (strings (size - 1)).text) :=
        ⟨hgap, Nat.sub_lt hsize Nat.one_pos, hbelow, habove, rfl, rfl⟩
      obtain ⟨idx, calls, heq, hlt, hres⟩ :=
        lcpSearchLoop_spec hsorted hscmp (show size - 1 - 0 < fuel by omega) hrange
      rw [if_neg hd', heq]
      refine ⟨idx, _, rfl, hlt.le, hres.1, fun _ => hres.2.1, ?_⟩
      simpa using ⟨hfirst, hlast, hres.2.2⟩

end Search

/-- A memory with the strings "ab" and "a" at the addresses 0 and 3. -/
private def memFour : ℕ → CharType := fun p => [97, 98, 0, 97, 0].getD p 0

/-- The empty string, "a", "ab" and "b". -/
private def fourStrings : ℕ → CString memFour
  | 0 => ⟨2, 0, by decide, rfl⟩
  | 1 => ⟨3, 1, by decide, rfl⟩
  | 2 => ⟨0, 2, by decide, rfl⟩
  | _ => ⟨1, 1, by decide, rfl⟩

/-- The string in the middle is neither below the first one nor above the last one. -/
theorem binarySearch_exact_four :
    SortedArray fourStrings 4 ∧ ∃ rounds, ∀ fuel ≥ rounds, ∃ idx calls,
      LcpCacheStringPtr.binarySearch fuel (fourStrings 2) fourStrings 4 = some (idx, calls) ∧
      idx ≤ 4 ∧ (∀ i < idx, (fourStrings i).text < (fourStrings 2).text) ∧
      (idx < 4 → (fourStrings 2).text ≤ (fourStrings idx).text) ∧
      ∀ c ∈ calls, c.WithinPrefix (fourStrings 2) fourStrings 4 := by
  have hsorted : SortedArray fourStrings 4 := by
    intro i j hij hj
    interval_cases j <;> interval_cases i <;> decide
  exact ⟨hsorted, binarySearch_exact (fourStrings 2) fourStrings 4 (by decide) hsorted⟩

end StringSampleSort
