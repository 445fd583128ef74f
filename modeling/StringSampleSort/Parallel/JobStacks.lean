import StringSampleSort.Parallel.SmallsortJob

/-!
# The stacks of a small sort

The steps on the two stacks of a `SmallsortJob` are those that have not been freed, the one whose
buckets are just being freed, and those that have been freed.  Which of them there can be depends on
where the job stands.

## Main results

- `JobStacks.At`: the stacks and the counter of substeps, where the job stands
- `JobStacks.At.pred`, `JobStacks.At.last`: a substep has finished
-/

namespace StringSampleSort

/-! ## Stacks -/

/-- The step after the next of its buckets has been dealt with. -/
def SeqSampleSortStep.next (s : SeqSampleSortStep) : SeqSampleSortStep :=
  { s with idx := s.idx + 1 }

/-- The steps on the stacks of a job, last ones first: the steps `sl` and `ml` have not been freed,
the buckets of `cur` are being freed, and `sf` and `mf` have been freed.  Place `base` of the memory
belongs to the first place of the buffer of keys. -/
structure JobStacks where
  base : ℕ
  sl : List SeqSampleSortStep
  cur : List SeqSampleSortStep
  sf : List SeqSampleSortStep
  ml : List MKQSStep
  mf : List MKQSStep

namespace JobStacks

/-- In the loop of `sort_sample_sort` there are no steps of multikey quicksort to go on with, and in
that of `run` no steps of sample sort. -/
def InLoop (k : JobStacks) : JobLoop → Prop
  | .sampleSort => k.ml = []
  | .mkqs nested => nested = false → k.sl = [] ∧ k.cur = []

/-- The stacks and the counter of substeps, where the job stands. -/
def At (k : JobStacks) (subs working : ℕ) : JobPhase → Prop
  | .loop l => k.cur = [] ∧ k.InLoop l ∧ working = subs + 1
  | .poll l => k.cur = [] ∧ k.InLoop l ∧ working = subs + 1
  | .freeSample l => (∃ s, k.cur = [s]) ∧ k.InLoop l ∧ working = subs + 1
  | .freeMkqs l _ => k.cur = [] ∧ k.sl = [] ∧ k.InLoop l ∧ working = subs + 1
  | .release => k.cur = [] ∧ k.sl = [] ∧ k.ml = [] ∧ working = subs + 1
  | .waiting => k.cur = [] ∧ k.sl = [] ∧ k.ml = [] ∧ working = subs ∧ subs ≠ 0
  | _ => False

end JobStacks

/-! ## Parts of a stack -/

section Stacks

variable {α : Type}

theorem take_stack (above below : List α) :
    (above ++ below).take ((above ++ below).length - below.length) = above := by
  rw [List.length_append, Nat.add_sub_cancel, List.take_left]

theorem drop_stack (above below : List α) :
    (above ++ below).drop ((above ++ below).length - below.length) = below := by
  rw [List.length_append, Nat.add_sub_cancel, List.drop_left]

/-- The lowest element that has not been freed. -/
theorem split_stack (above : List α) (x : α) (below : List α) :
    (above ++ x :: below).take ((above ++ x :: below).length - below.length - 1) = above ∧
      (above ++ x :: below).drop ((above ++ x :: below).length - below.length - 1) =
        x :: below := by
  have hlen : (above ++ x :: below).length - below.length - 1 = above.length := by
    rw [List.length_append, List.length_cons]
    omega
  rw [hlen]
  exact ⟨List.take_left .., List.drop_left ..⟩

end Stacks

/-! ## Substeps -/

namespace JobStacks.At

variable {k : JobStacks}

/-- All substeps are counted. -/
theorem working_ge {n working : ℕ} {phase : JobPhase} (h : k.At n working phase) :
    n ≤ working := by
  cases phase with
  | loop l => exact h.2.2 ▸ Nat.le_succ n
  | poll l => exact h.2.2 ▸ Nat.le_succ n
  | freeSample l => exact h.2.2 ▸ Nat.le_succ n
  | freeMkqs l fl => exact h.2.2.2 ▸ Nat.le_succ n
  | release => exact h.2.2.2 ▸ Nat.le_succ n
  | waiting => exact h.2.2.2.1.ge
  | _ => exact h.elim

/-- A substep of a job has finished, and others have not, or the job still runs. -/
theorem pred {n working : ℕ} {phase : JobPhase} (h : k.At (n + 1) working phase)
    (hzero : working - 1 ≠ 0) : k.At n (working - 1) phase := by
  cases phase with
  | loop l => exact ⟨h.1, h.2.1, Nat.sub_eq_of_eq_add h.2.2⟩
  | poll l => exact ⟨h.1, h.2.1, Nat.sub_eq_of_eq_add h.2.2⟩
  | freeSample l => exact ⟨h.1, h.2.1, Nat.sub_eq_of_eq_add h.2.2⟩
  | freeMkqs l fl => exact ⟨h.1, h.2.1, h.2.2.1, Nat.sub_eq_of_eq_add h.2.2.2⟩
  | release => exact ⟨h.1, h.2.1, h.2.2.1, Nat.sub_eq_of_eq_add h.2.2.2⟩
  | waiting =>
    obtain ⟨hcur, hsl, hml, hworking, -⟩ := h
    exact ⟨hcur, hsl, hml, Nat.sub_eq_of_eq_add hworking, by omega⟩
  | _ => exact h.elim

/-- The last substep of a job that waits has finished. -/
theorem last {n working : ℕ} {phase : JobPhase} (h : k.At (n + 1) working phase)
    (hzero : working - 1 = 0) : phase = .waiting ∧ n = 0 := by
  have hle : working ≤ 1 := Nat.sub_eq_zero_iff_le.mp hzero
  cases phase with
  | loop l => exact absurd (h.2.2 ▸ hle) (by omega)
  | poll l => exact absurd (h.2.2 ▸ hle) (by omega)
  | freeSample l => exact absurd (h.2.2 ▸ hle) (by omega)
  | freeMkqs l fl => exact absurd (h.2.2.2 ▸ hle) (by omega)
  | release => exact absurd (h.2.2.2 ▸ hle) (by omega)
  | waiting => exact ⟨rfl, by have hworking := h.2.2.2.1; omega⟩
  | _ => exact h.elim

end JobStacks.At

namespace SmallsortJob

variable {j : SmallsortJob}

theorem notifyDone_last (hzero : j.working - 1 = 0) :
    j.notifyDone = { j with working := j.working - 1, phase := .allDone } := by
  rw [notifyDone, if_pos hzero]

theorem notifyDone_more (hzero : j.working - 1 ≠ 0) :
    j.notifyDone = { j with working := j.working - 1 } := by
  rw [notifyDone, if_neg hzero]

theorem joined_of_last (part : ℕ × ℕ) (hzero : j.working - 1 = 0) : j.joined part =
    { j with
      history := .notify part.1 part.2 :: j.history
      working := j.working - 1
      phase := .allDone } :=
  notifyDone_last (j := j.note (.notify part.1 part.2)) hzero

theorem joined_of_more (part : ℕ × ℕ) (hzero : j.working - 1 ≠ 0) : j.joined part =
    { j with
      history := .notify part.1 part.2 :: j.history
      working := j.working - 1
      phase := j.phase } :=
  notifyDone_more (j := j.note (.notify part.1 part.2)) hzero

end SmallsortJob

end StringSampleSort
