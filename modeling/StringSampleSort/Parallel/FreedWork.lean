import StringSampleSort.Parallel.JobPlan

/-!
# Work that is freed

What `sample_sort_free_work`, `mkqs_free_work` and `distribute_finished` of
`src/parallel/bingmann-parallel_sample_sort.hpp` do with the parts of a level: a part is finished at
once, or `substep_add` registers a substep and `Enqueue` hands the part over to it.

Whatever is enqueued has been set aside in the rank of the level, and more.

## Main results

- `Freeing.skip`, `Freeing.finish`, `Freeing.enqueue`: what is done for a part
-/

namespace StringSampleSort

open Library SortTask

/-! ## Model -/

/-- A call that has been enqueued, and the part of a level that it sorts. -/
structure EnqueuedWork where
  part : ℕ × ℕ
  call : RangeCall

/-- The places of the strings of a call. -/
def RangeCall.window (c : RangeCall) : Window := ⟨c.1.active.begin, c.1.size⟩

/-- The share of an enqueued call. -/
def EnqueuedWork.share (e : EnqueuedWork) : WorkShare := ⟨e.part, e.call.window⟩

/-- The memory, the counter of substeps and the history of a sort step, and what it has enqueued. -/
structure FreeState (S : Type) where
  mem : Memory S
  working : ℕ
  history : List (Event RangeCall)
  enqueued : List EnqueuedWork

namespace FreeState

variable {S : Type}

/-- `this->substep_add(); Enqueue<Classify>(ctx, this, strptr, depth);` for part `i` of a level. -/
def enqueue (level i : ℕ) (strptr : StringPtr) (depth : ℕ) (s : FreeState S) : FreeState S where
  mem := s.mem
  working := s.working + 1
  history := .deal level i (.enqueued (strptr, depth)) :: s.history
  enqueued := s.enqueued ++ [⟨(level, i), (strptr, depth)⟩]

/-- Part `i` of a level has been finished, which has left the memory `m`. -/
def finish (level i : ℕ) (m : Memory S) (s : FreeState S) : FreeState S :=
  { s with mem := m, history := .deal level i .filled :: s.history }

end FreeState

/-! ## Calls -/

section Calls

variable {S : Type} {T : SortTask S} {g g' : Ghost S} {c : RangeCall} {e : EnqueuedWork}

/-- A call for a piece, from its depth on. -/
def SortTask.CallOk (T : SortTask S) (g : Ghost S) (c : RangeCall) : Prop :=
  ∃ P, T.PieceOk g P ∧ c = (T.pointer P, P.depth)

/-- What a unit of the ranks of levels counts among the steps of a job. -/
def rankScale : ℕ := 64

/-- A bound for all that is done for a call. -/
def SortTask.callRank (T : SortTask S) (c : RangeCall) : ℕ :=
  rankScale * (T.windowRank c.window c.2 + 7)

/-- What has been enqueued: a step to register each substep, and what the substeps do. -/
def SortTask.enqueuedRank (T : SortTask S) (es : List EnqueuedWork) : ℕ :=
  (es.map fun e => 1 + T.callRank e.call).sum

@[simp] theorem enqueuedRank_nil (T : SortTask S) : T.enqueuedRank [] = 0 := rfl

@[simp] theorem enqueuedRank_append (T : SortTask S) (es fs : List EnqueuedWork) :
    T.enqueuedRank (es ++ fs) = T.enqueuedRank es + T.enqueuedRank fs := by
  simp [enqueuedRank]

@[simp] theorem enqueuedRank_singleton (T : SortTask S) (e : EnqueuedWork) :
    T.enqueuedRank [e] = 1 + T.callRank e.call := by
  simp [enqueuedRank]

theorem SortTask.CallOk.agree (h : T.CallOk g c) (ha : Agree c.window g g') : T.CallOk g' c := by
  obtain ⟨P, hP, rfl⟩ := h
  exact ⟨P, hP.agree ha, rfl⟩

/-- The strings of a call share its depth. -/
theorem SortTask.CallOk.sharesDepth (h : T.CallOk g c) :
    SharesDepth T.ss.chars (c.1.active.get g.mem) c.1.size c.2 := by
  obtain ⟨P, hP, rfl⟩ := h
  exact hP.sharesDepth

end Calls

/-! ## Parts of a freed level -/

/-- From `g₀` and the level `l₀` on, parts of a freed level have been dealt with: `s` is what this
has left, and `l` the level.  The levels `live` are above it and `freed` below, and `subs` had been
handed over before. -/
structure Freeing {S : Type} (T : SortTask S) (w : Window) (live freed : List StepLevel)
    (subs : List WorkShare) (created working : ℕ) (l₀ : StepLevel) (g₀ : Ghost S) (l : StepLevel)
    (g : Ghost S) (s : FreeState S) : Prop where
  mem : g.mem = s.mem
  touches : Touches w subs g₀ g
  agree : ∀ a ∈ live, ∀ u ∈ a.remaining, Agree u g₀ g
  plan : JobPlan T g w live (l :: freed) (subs ++ s.enqueued.map EnqueuedWork.share) created
    s.history
  calls : ∀ e ∈ s.enqueued, T.CallOk g e.call
  working_eq : s.working = working + s.enqueued.length
  rank : rankScale * l.rank T + T.enqueuedRank s.enqueued + l.frame.idx ≤
    rankScale * l₀.rank T + l₀.frame.idx

namespace Freeing

variable {S : Type} {T : SortTask S} {w : Window} {live freed : List StepLevel}
  {subs : List WorkShare} {created working : ℕ} {l₀ l : StepLevel} {g₀ g g' : Ghost S}
  {s : FreeState S}

/-- Nothing has been done. -/
theorem start {history : List (Event RangeCall)} (working : ℕ)
    (h : JobPlan T g w live (l :: freed) subs created history) :
    Freeing T w live freed subs created working l g l g ⟨g.mem, working, history, []⟩ := by
  refine ⟨rfl, Touches.refl w subs g, fun _ _ u _ => Agree.refl u g, ?_, by simp, rfl, le_rfl⟩
  rwa [List.map_nil, List.append_nil]

/-- The rank pays for a round. -/
private theorem rank_next (h : Freeing T w live freed subs created working l₀ g₀ l g s)
    (hidx : l.frame.idx < l.frame.shape.parts) :
    rankScale * l.next.rank T + rankScale * l.partRank T l.frame.idx + rankScale +
        T.enqueuedRank s.enqueued + l.frame.idx ≤ rankScale * l₀.rank T + l₀.frame.idx := by
  have hrank := h.rank
  rw [StepLevel.rank_next hidx, Nat.mul_add, Nat.mul_add, Nat.mul_one] at hrank
  omega

/-- The next part is empty. -/
theorem skip (h : Freeing T w live freed subs created working l₀ g₀ l g s)
    (hidx : l.frame.idx < l.frame.shape.parts) (hsize : (l.area l.frame.idx).size = 0) :
    Freeing T w live freed subs created working l₀ g₀ l.next g s where
  mem := h.mem
  touches := h.touches
  agree := h.agree
  plan := h.plan.skipFreed hidx hsize
  calls := h.calls
  working_eq := h.working_eq
  rank := by
    have hrank := h.rank_next hidx
    simp only [rankScale, StepLevel.next] at hrank ⊢
    omega

/-- The next part is finished at once. -/
theorem finish (h : Freeing T w live freed subs created working l₀ g₀ l g s)
    (hidx : l.frame.idx < l.frame.shape.parts) (hpos : 0 < (l.area l.frame.idx).size)
    (hcall : l.frame.shape.call l.frame.idx = none) (he : Effect (l.area l.frame.idx) g g')
    (hc : T.Covers g' (l.area l.frame.idx) [] fun _ => False) :
    Freeing T w live freed subs created working l₀ g₀ l.next g'
      (s.finish l.frame.level l.frame.idx g'.mem) where
  mem := rfl
  touches := by
    have htouch := (h.plan.plan.takeFreed hidx).hand_touches he
    exact h.touches.trans (htouch.mono fun c => List.mem_append_left _)
  agree a ha u hu := by
    have hapart := (h.plan.plan.takeFreed hidx).hand_apart.1 a (List.mem_append_left _ ha) u hu
    exact (h.agree a ha u hu).trans (he.agree hapart)
  plan := h.plan.dealFreed hidx hpos he hc (d := .filled) hcall.symm trivial
  calls e hin := by
    have hapart := (h.plan.plan.takeFreed hidx).hand_apart.2 e.share
      (List.mem_append_right _ (List.mem_map_of_mem hin))
    exact (h.calls e hin).agree (he.agree hapart)
  working_eq := h.working_eq
  rank := by
    have hrank := h.rank_next hidx
    simp only [rankScale, StepLevel.next, FreeState.finish] at hrank ⊢
    omega

/-- The next part is handed over. -/
theorem enqueue (h : Freeing T w live freed subs created working l₀ g₀ l g s)
    (hidx : l.frame.idx < l.frame.shape.parts) (hpos : 0 < (l.area l.frame.idx).size)
    (hcall : l.frame.shape.call l.frame.idx =
      some (T.pointer (l.piece l.frame.idx), (l.piece l.frame.idx).depth)) :
    Freeing T w live freed subs created working l₀ g₀ l.next g
      (s.enqueue l.frame.level l.frame.idx (T.pointer (l.piece l.frame.idx))
        (l.piece l.frame.idx).depth) where
  mem := h.mem
  touches := h.touches
  agree := h.agree
  plan := by
    have hplan := h.plan.enqueue hidx hpos hcall
    rw [List.append_assoc] at hplan
    rw [FreeState.enqueue, List.map_append]
    exact hplan
  calls := List.forall_mem_append.mpr
    ⟨h.calls, List.forall_mem_singleton.mpr ⟨_, h.plan.pieceFreed hidx hpos, rfl⟩⟩
  working_eq := by
    simp only [FreeState.enqueue, h.working_eq, List.length_append, List.length_singleton,
      Nat.add_assoc]
  rank := by
    have hrank := h.rank_next hidx
    have hpart : l.partRank T l.frame.idx = jobOverhead +
        T.windowRank (l.area l.frame.idx) (l.piece l.frame.idx).depth := by
      rw [StepLevel.partRank, if_neg]
      rintro (hzero | hnone)
      · exact hpos.ne' hzero
      · exact absurd (hcall.symm.trans hnone) (by simp)
    have hrest : T.callRank (T.pointer (l.piece l.frame.idx), (l.piece l.frame.idx).depth) =
        rankScale * (T.windowRank (l.area l.frame.idx) (l.piece l.frame.idx).depth + 7) := rfl
    rw [hpart] at hrank
    simp only [FreeState.enqueue, enqueuedRank_append, enqueuedRank_singleton, hrest, rankScale,
      jobOverhead, StepLevel.next] at hrank ⊢
    omega

end Freeing

end StringSampleSort
