import Mathlib.Data.List.Basic
import Mathlib.Order.Lattice

/-!
# Ranks in sorted lists

In a sorted list the elements below a key come first, so their number is the place where the
key stands or would have to be inserted.

## Main results

- `lt_rank_iff`: an element is below the key when it stands before the key's rank
- `getElem?_rank_of_mem`: a key of the list stands at its rank
-/

namespace StringSampleSort.Library

variable {α : Type*} [LinearOrder α]

/-- Number of elements below a key. -/
def rank (l : List α) (key : α) : ℕ := l.countP fun s => decide (s < key)

theorem rank_le_length (l : List α) (key : α) : rank l key ≤ l.length := List.countP_le_length

/-- In a sorted list an element is below the key when it stands before the key's rank. -/
theorem lt_rank_iff {l : List α} (hl : l.Pairwise (· ≤ ·)) {key s : α} {i : ℕ}
    (hi : l[i]? = some s) : i < rank l key ↔ s < key := by
  induction l generalizing i with
  | nil => simp at hi
  | cons a l ih =>
    rw [List.pairwise_cons] at hl
    rw [rank, List.countP_cons]
    change i < rank l key + _ ↔ _
    by_cases ha : a < key
    · rw [if_pos (by simpa using ha)]
      cases i with
      | zero =>
        have has : a = s := by simpa using hi
        rw [← has]
        exact iff_of_true (Nat.succ_pos _) ha
      | succ i => rw [Nat.succ_lt_succ_iff, ih hl.2 (by simpa using hi)]
    · -- no element is below the key
      have hzero : rank l key = 0 := by
        rw [rank, List.countP_eq_zero]
        intro b hb hlt
        exact ha ((hl.1 b hb).trans_lt (of_decide_eq_true hlt))
      rw [if_neg (by simpa using ha), hzero]
      refine iff_of_false (Nat.not_lt_zero i) fun hs => ?_
      rcases List.mem_cons.mp (List.mem_of_getElem? hi) with rfl | hmem
      · exact ha hs
      · exact ha ((hl.1 s hmem).trans_lt hs)

/-- A key of a sorted list stands at its rank. -/
theorem getElem?_rank_of_mem {l : List α} (hl : l.Pairwise (· ≤ ·)) {key : α}
    (hk : key ∈ l) : l[rank l key]? = some key := by
  obtain ⟨j, hj⟩ := List.mem_iff_getElem?.mp hk
  have hjl : j < l.length := (List.getElem?_eq_some_iff.mp hj).1
  have hle : rank l key ≤ j := by
    by_contra hlt
    exact lt_irrefl key ((lt_rank_iff hl hj).mp (by omega))
  have hrl : rank l key < l.length := by omega
  have hget := List.getElem?_eq_getElem hrl
  have hge : key ≤ l[rank l key] :=
    not_lt.mp fun hlt => Nat.lt_irrefl _ ((lt_rank_iff hl hget).mpr hlt)
  have hkj : l[j] = key := Option.some_inj.mp ((List.getElem?_eq_getElem hjl).symm.trans hj)
  have hle' : l[rank l key] ≤ key := by
    rcases Nat.eq_or_lt_of_le hle with heq | hlt
    · simp only [heq, hkj, le_refl]
    · exact hkj ▸ List.pairwise_iff_getElem.mp hl _ _ hrl hjl hlt
  rw [hget, le_antisymm hle' hge]

end StringSampleSort.Library
