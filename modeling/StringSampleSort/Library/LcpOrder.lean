import StringSampleSort.Library.BigEndian
import Mathlib.Data.List.Lex

/-!
# Common prefixes in lexicographic order

How the lexicographic order of lists and the lengths of their common prefixes depend on each
other.

## Main results

- `lt_iff_lcpLen`: lists are compared at the end of their common prefix
- `lcpLen_of_between`: among three sorted lists, the outer two have the smaller one of the
  common prefixes of the neighbours
- `min_lcpLen_le`: what the outer two share with a list, the inner one shares with it too
- `map_lt_map_iff`, `terminated_lt_iff`: images and terminated lists are ordered as the lists
-/

namespace StringSampleSort.Library

variable {α : Type*} [LinearOrder α]

/-- Lists are compared at the end of their common prefix. -/
theorem lt_iff_lcpLen (l m : List α) :
    l < m ↔ ∃ d, m[lcpLen l m]? = some d ∧ ∀ c, l[lcpLen l m]? = some c → c < d := by
  induction l generalizing m with
  | nil =>
    cases m with
    | nil => simp
    | cons b bs => simp
  | cons a as ih =>
    cases m with
    | nil => simp
    | cons b bs =>
      rw [List.cons_lt_cons_iff, lcpLen_cons]
      by_cases hab : a = b
      · simp [hab, ih]
      · simp [hab]

/-- Lists that agree up to a place are compared there. -/
theorem lt_of_getElem?_lt {l m : List α} {k : ℕ} {c d : α} (htake : l.take k = m.take k)
    (hc : l[k]? = some c) (hd : m[k]? = some d) (hlt : c < d) : l < m := by
  have hk : lcpLen l m = k := by
    refine (lcpLen_eq_iff l m k).mpr ⟨(List.getElem?_eq_some_iff.mp hc).1.le,
      (List.getElem?_eq_some_iff.mp hd).1.le, htake, Or.inr (Or.inr ?_)⟩
    rw [hc, hd, Ne, Option.some_inj]
    exact hlt.ne
  rw [lt_iff_lcpLen, hk]
  refine ⟨d, hd, fun e he => ?_⟩
  rw [hc, Option.some_inj] at he
  exact he ▸ hlt

/-- How two lists compare, by their elements behind the common prefix. -/
theorem compare_lcpLen {x y : List α} {k : ℕ} (hk : k = lcpLen x y) :
    (x[k]? = none ∧ y[k]? = none ∧ x = y) ∨ (x[k]? = none ∧ (∃ d, y[k]? = some d) ∧ x < y) ∨
      ((∃ c, x[k]? = some c) ∧ y[k]? = none ∧ y < x) ∨
      ∃ c d, x[k]? = some c ∧ y[k]? = some d ∧ c ≠ d ∧ (c < d ↔ x < y) := by
  have hxy := lt_iff_lcpLen x y
  have hyx := lt_iff_lcpLen y x
  rw [lcpLen_comm y x, ← hk] at hyx
  rw [← hk] at hxy
  cases hx : x[k]? with
  | none =>
    cases hy : y[k]? with
    | none =>
      refine Or.inl ⟨rfl, rfl, eq_of_lcpLen_eq ?_ ?_⟩
      · rw [← hk]
        exact List.getElem?_eq_none_iff.mp hx
      · rw [← hk]
        exact List.getElem?_eq_none_iff.mp hy
    | some d => exact Or.inr (Or.inl ⟨rfl, ⟨d, rfl⟩, hxy.mpr ⟨d, hy, by simp [hx]⟩⟩)
  | some c =>
    cases hy : y[k]? with
    | none => exact Or.inr (Or.inr (Or.inl ⟨⟨c, rfl⟩, rfl, hyx.mpr ⟨c, hx, by simp [hy]⟩⟩))
    | some d =>
      refine Or.inr (Or.inr (Or.inr ⟨c, d, rfl, rfl, ?_, ?_⟩))
      · -- the common prefix ends here
        have hend := ((lcpLen_eq_iff x y k).mp hk.symm).2.2.2
        rw [hx, hy, Ne, Option.some_inj] at hend
        rcases hend with h | h | h
        · rw [List.getElem?_eq_none h.ge] at hx
          exact absurd hx (by simp)
        · rw [List.getElem?_eq_none h.ge] at hy
          exact absurd hy (by simp)
        · exact h
      · rw [hxy, hx, hy]
        simp

/-- Cutting lists off keeps their order. -/
theorem take_le_take {l m : List α} (h : l ≤ m) (k : ℕ) : l.take k ≤ m.take k := by
  rw [← not_lt] at h ⊢
  induction l generalizing m k with
  | nil => simp
  | cons a as ih =>
    cases m with
    | nil => exact absurd (List.nil_lt_cons a as) h
    | cons b bs =>
      cases k with
      | zero => simp
      | succ k =>
        rw [List.cons_lt_cons_iff] at h
        rw [List.take_succ_cons, List.take_succ_cons, List.cons_lt_cons_iff]
        rintro (hlt | ⟨heq, hlt⟩)
        · exact h (Or.inl hlt)
        · exact ih (fun h' => h (Or.inr ⟨heq, h'⟩)) k hlt

/-- A list between two others has their common prefix. -/
theorem take_eq_of_le_of_le {a b c : List α} (hab : a ≤ b) (hbc : b ≤ c) {k : ℕ}
    (h : a.take k = c.take k) : b.take k = a.take k :=
  le_antisymm ((take_le_take hbc k).trans_eq h.symm) (take_le_take hab k)

/-- Among three sorted lists, the outer two have the smaller one of the common prefixes of the
neighbours. -/
theorem lcpLen_of_between {a b c : List α} (hab : a ≤ b) (hbc : b ≤ c) :
    lcpLen a c = min (lcpLen a b) (lcpLen b c) := by
  refine le_antisymm ?_ ?_
  · obtain ⟨ha, hc, heq⟩ := (le_lcpLen_iff a c _).mp (le_refl _)
    have hb := take_eq_of_le_of_le hab hbc heq
    have hlen : lcpLen a c ≤ b.length := by
      have hcard := congrArg List.length hb
      rw [List.length_take, List.length_take] at hcard
      omega
    refine le_min ?_ ?_
    · exact (le_lcpLen_iff a b _).mpr ⟨ha, hlen, hb.symm⟩
    · exact (le_lcpLen_iff b c _).mpr ⟨hlen, hc, hb.trans heq⟩
  · obtain ⟨ha, -, hab'⟩ := (le_lcpLen_iff a b _).mp (min_le_left (lcpLen a b) (lcpLen b c))
    obtain ⟨-, hc, hbc'⟩ := (le_lcpLen_iff b c _).mp (min_le_right (lcpLen a b) (lcpLen b c))
    exact (le_lcpLen_iff a c _).mpr ⟨ha, hc, hab'.trans hbc'⟩

/-- A list between two others shares with any list at least what both of them share with it. -/
theorem min_lcpLen_le {a b c x : List α} (hab : a ≤ b) (hbc : b ≤ c) :
    min (lcpLen x a) (lcpLen x c) ≤ lcpLen x b := by
  rcases le_total x b with hxb | hbx
  · refine (min_le_right _ _).trans ?_
    rw [lcpLen_of_between hxb hbc]
    exact min_le_left _ _
  · refine (min_le_left _ _).trans ?_
    rw [lcpLen_comm x a, lcpLen_of_between hab hbx, lcpLen_comm x b]
    exact min_le_right _ _

/-! ## Images and terminated lists -/

section Image

variable {β : Type*} [DecidableEq β]

theorem lcpLen_map {f : β → α} (hf : Function.Injective f) (l m : List β) :
    lcpLen (l.map f) (m.map f) = lcpLen l m := by
  induction l generalizing m with
  | nil => simp
  | cons a as ih =>
    cases m with
    | nil => simp
    | cons b bs => simp only [List.map_cons, lcpLen_cons, ih, hf.eq_iff]

/-- A terminator that no list contains ends the common prefix of different lists. -/
theorem lcpLen_terminated {l m : List β} {z : β} (hl : z ∉ l) (hm : z ∉ m) :
    lcpLen l m = min (lcpLen (l ++ [z]) (m ++ [z])) l.length := by
  induction l generalizing m with
  | nil => simp
  | cons a as ih =>
    rw [List.mem_cons, not_or] at hl
    cases m with
    | nil => simp [lcpLen_cons, Ne.symm hl.1]
    | cons b bs =>
      rw [List.mem_cons, not_or] at hm
      simp only [List.cons_append, lcpLen_cons, List.length_cons]
      split
      · rw [ih hl.2 hm.2]
        omega
      · rfl

end Image

theorem map_lt_map_iff {β : Type*} [LinearOrder β] {f : β → α} (hf : StrictMono f)
    (l m : List β) : l.map f < m.map f ↔ l < m := by
  induction l generalizing m with
  | nil => cases m <;> simp
  | cons a as ih =>
    cases m with
    | nil => simp
    | cons b bs =>
      rw [List.map_cons, List.map_cons, List.cons_lt_cons_iff, List.cons_lt_cons_iff, ih,
        hf.lt_iff_lt, hf.injective.eq_iff]

/-- A terminator below all elements keeps the order. -/
theorem terminated_lt_iff {l m : List α} {z : α} (hl : ∀ c ∈ l, z < c) (hm : ∀ c ∈ m, z < c) :
    l ++ [z] < m ++ [z] ↔ l < m := by
  induction l generalizing m with
  | nil =>
    cases m with
    | nil => simp
    | cons b bs => simp [List.cons_lt_cons_iff, hm b (List.mem_cons_self ..)]
  | cons a as ih =>
    have ha := hl a (List.mem_cons_self ..)
    cases m with
    | nil => simp [List.cons_lt_cons_iff, ha.not_gt, ha.ne']
    | cons b bs =>
      rw [List.cons_append, List.cons_append, List.cons_lt_cons_iff, List.cons_lt_cons_iff,
        ih (fun c hc => hl c (List.mem_cons_of_mem _ hc))
          fun c hc => hm c (List.mem_cons_of_mem _ hc)]

end StringSampleSort.Library
