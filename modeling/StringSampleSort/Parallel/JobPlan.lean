import StringSampleSort.Parallel.SortPlan

/-!
# The plan of a job and its history

What happens to the levels of a `SmallsortJob`, with the history in which every part that is dealt
with, every notification and every calculation of LCPs has been noted.  Each theorem is about one
thing that the job does, and says both what is left to do in its window and what has been noted.

## Main results

- `JobPlan.skip`, `JobPlan.deal`, `JobPlan.push`, `JobPlan.close`: the uppermost level
- `JobPlan.free`, `JobPlan.skipFreed`, `JobPlan.dealFreed`, `JobPlan.enqueue`: freed work
- `JobPlan.join`, `JobPlan.closeFreed`: after the job itself has come to its end
-/

namespace StringSampleSort

open Library SortTask

/-- What is left to do, and what has been noted. -/
structure JobPlan {S : Type} (T : SortTask S) (g : Ghost S) (w : Window)
    (live freed : List StepLevel) (subs : List WorkShare) (created : ℕ)
    (history : List (Event RangeCall)) : Prop where
  plan : SortPlan T g w [] live freed subs
  accounts : Accounts (live.map StepLevel.frame) (freed.map StepLevel.frame)
    (subs.map WorkShare.part) created history

namespace JobPlan

variable {S : Type} {T : SortTask S} {g g' : Ghost S} {w : Window} {l k : StepLevel}
  {live freed : List StepLevel} {subs pre post : List WorkShare} {created : ℕ}
  {history : List (Event RangeCall)} {c : WorkShare} {call : RangeCall} {d : Deal RangeCall}

theorem agree (h : JobPlan T g w live freed subs created history) (ha : Agree w g g') :
    JobPlan T g' w live freed subs created history :=
  ⟨h.plan.agree ha, h.accounts⟩

/-- Nothing has been done, and the sort of the window starts with a level. -/
theorem first (he : Effect k.window g g') (hk : k.frame = ⟨0, k.frame.shape, 0⟩)
    (hc : T.Covers g' k.window k.remaining k.Promises) (hp : k.PiecesOk T g') :
    JobPlan T g' k.window [k] [] [] 1 [.create 0 k.frame.shape] where
  plan := (SortPlan.whole T g k.window).push he hc hp
  accounts := by
    rw [List.map_singleton, hk]
    exact Accounts.empty.first k.frame.shape

/-- The whole window has been sorted at once. -/
theorem sorted (he : Effect w g g') (hc : T.Covers g' w [] fun _ => False) :
    JobPlan T g' w [] [] [] 0 [] :=
  ⟨(SortPlan.whole T g w).finish he hc, Accounts.empty⟩

/-! ### The uppermost level -/

/-- The next part of the uppermost level lies apart from the parts that are left otherwise. -/
theorem area_apart (h : JobPlan T g w (l :: live) freed subs created history)
    (hidx : l.frame.idx < l.frame.shape.parts) :
    ∀ m ∈ l.next :: live ++ freed, ∀ v ∈ m.remaining, (l.area l.frame.idx).Apart v :=
  (h.plan.take hidx).hand_apart.1

theorem piece (h : JobPlan T g w (l :: live) freed subs created history)
    (hidx : l.frame.idx < l.frame.shape.parts) (hpos : 0 < (l.area l.frame.idx).size) :
    T.PieceOk g (l.piece l.frame.idx) :=
  h.plan.pieces l (List.mem_cons_self ..) _ (le_refl _) hidx hpos

/-- The next part of the uppermost level is empty. -/
theorem skip (h : JobPlan T g w (l :: live) freed subs created history)
    (hidx : l.frame.idx < l.frame.shape.parts) (hsize : (l.area l.frame.idx).size = 0) :
    JobPlan T g w (l.next :: live) freed subs created history :=
  ⟨(h.plan.take hidx).drop hsize, h.accounts.skip ((l.size_eq _).trans hsize)⟩

/-- The next part of the uppermost level is finished. -/
theorem deal (h : JobPlan T g w (l :: live) freed subs created history)
    (hidx : l.frame.idx < l.frame.shape.parts) (hpos : 0 < (l.area l.frame.idx).size)
    (he : Effect (l.area l.frame.idx) g g')
    (hc : T.Covers g' (l.area l.frame.idx) [] fun _ => False)
    (hd : d.call = l.frame.shape.call l.frame.idx)
    (hdone : d.DoneIn history l.frame.level l.frame.idx) :
    JobPlan T g' w (l.next :: live) freed subs created
      (.deal l.frame.level l.frame.idx d :: history) :=
  ⟨(h.plan.take hidx).finish he hc,
    h.accounts.deal hidx ((l.size_eq _).symm ▸ hpos.ne') hd hdone⟩

/-- The next part of the uppermost level becomes a level. -/
theorem push (h : JobPlan T g w (l :: live) freed subs created history)
    (hidx : l.frame.idx < l.frame.shape.parts) (hpos : 0 < (l.area l.frame.idx).size)
    (hcall : l.frame.shape.call l.frame.idx = some call) (hwindow : k.window = l.area l.frame.idx)
    (hk : k.frame = ⟨created, k.frame.shape, 0⟩) (he : Effect k.window g g')
    (hc : T.Covers g' k.window k.remaining k.Promises) (hp : k.PiecesOk T g') :
    JobPlan T g' w (k :: l.next :: live) freed subs (created + 1)
      (.create created k.frame.shape :: .deal l.frame.level l.frame.idx (.pushed created call) ::
        history) where
  plan := by
    have hhand := h.plan.take hidx
    rw [← hwindow] at hhand
    exact hhand.push he hc hp
  accounts := by
    rw [List.map_cons, hk]
    exact h.accounts.push hidx ((l.size_eq _).symm ▸ hpos.ne') hcall k.frame.shape

/-- The uppermost level writes its entries, and leaves its stack. -/
theorem close (h : JobPlan T g w (l :: live) freed subs created history)
    (hidx : l.frame.shape.parts ≤ l.frame.idx) (hg : l.Calculated T g g') :
    JobPlan T g' w live freed subs created (.calculate l.frame.level :: history) :=
  ⟨h.plan.close hidx hg, h.accounts.close hidx⟩

/-! ### Freed work -/

/-- The lowest level is freed. -/
theorem free (h : JobPlan T g w (live ++ [l]) freed subs created history) :
    JobPlan T g w live (l :: freed) subs created history where
  plan := h.plan.free
  accounts := by
    have haccounts := h.accounts
    rw [List.map_append] at haccounts
    exact haccounts.free

theorem pieceFreed (h : JobPlan T g w live (l :: freed) subs created history)
    (hidx : l.frame.idx < l.frame.shape.parts) (hpos : 0 < (l.area l.frame.idx).size) :
    T.PieceOk g (l.piece l.frame.idx) :=
  h.plan.pieces l (by simp) _ (le_refl _) hidx hpos

/-- The next part of the level that is freed is empty. -/
theorem skipFreed (h : JobPlan T g w live (l :: freed) subs created history)
    (hidx : l.frame.idx < l.frame.shape.parts) (hsize : (l.area l.frame.idx).size = 0) :
    JobPlan T g w live (l.next :: freed) subs created history :=
  ⟨(h.plan.takeFreed hidx).drop hsize, h.accounts.skipFreed ((l.size_eq _).trans hsize)⟩

/-- The next part of the level that is freed is finished. -/
theorem dealFreed (h : JobPlan T g w live (l :: freed) subs created history)
    (hidx : l.frame.idx < l.frame.shape.parts) (hpos : 0 < (l.area l.frame.idx).size)
    (he : Effect (l.area l.frame.idx) g g')
    (hc : T.Covers g' (l.area l.frame.idx) [] fun _ => False)
    (hd : d.call = l.frame.shape.call l.frame.idx)
    (hdone : d.DoneIn history l.frame.level l.frame.idx) :
    JobPlan T g' w live (l.next :: freed) subs created
      (.deal l.frame.level l.frame.idx d :: history) :=
  ⟨(h.plan.takeFreed hidx).finish he hc,
    h.accounts.dealFreed hidx ((l.size_eq _).symm ▸ hpos.ne') hd hdone⟩

/-- The next part of the level that is freed is handed over. -/
theorem enqueue (h : JobPlan T g w live (l :: freed) subs created history)
    (hidx : l.frame.idx < l.frame.shape.parts) (hpos : 0 < (l.area l.frame.idx).size)
    (hcall : l.frame.shape.call l.frame.idx = some call) :
    JobPlan T g w live (l.next :: freed)
      (subs ++ [⟨(l.frame.level, l.frame.idx), l.area l.frame.idx⟩]) created
      (.deal l.frame.level l.frame.idx (.enqueued call) :: history) where
  plan := by
    refine (h.plan.takeFreed hidx).handOver (h.plan.live_apart ?_)
    rw [StepLevel.remaining_eq hidx]
    exact List.mem_cons_self ..
  accounts := by
    rw [List.map_append]
    exact h.accounts.enqueue hidx ((l.size_eq _).symm ▸ hpos.ne') hcall

/-- Work that has been handed over goes on. -/
theorem subEffect (h : JobPlan T g w live freed (pre ++ c :: post) created history)
    (he : Effect c.window g g') :
    JobPlan T g' w live freed (pre ++ c :: post) created history :=
  ⟨h.plan.subEffect he, h.accounts⟩

/-- Work that has been handed over is reported as finished. -/
theorem join (h : JobPlan T g w live freed (pre ++ c :: post) created history)
    (hc : T.Covers g c.window [] fun _ => False) :
    JobPlan T g w live freed (pre ++ post) created (.notify c.part.1 c.part.2 :: history) where
  plan := h.plan.join hc
  accounts := by
    have haccounts := h.accounts
    rw [List.map_append, List.map_cons] at haccounts
    rw [List.map_append]
    exact haccounts.notify

/-- When nothing is outstanding, the uppermost freed level writes its entries. -/
theorem closeFreed (h : JobPlan T g w [] (l :: freed) [] created history)
    (hidx : l.frame.shape.parts ≤ l.frame.idx) (hg : l.Calculated T g g') :
    JobPlan T g' w [] freed [] created (.calculate l.frame.level :: history) :=
  ⟨h.plan.closeFreed hidx hg, h.accounts.closeFreed hidx⟩

/-- In the end the window is finished, and everything has been dealt with exactly once. -/
theorem done (h : JobPlan T g w [] [] [] created history) :
    (T.Covers g w [] fun _ => False) ∧ ExactlyOnce history :=
  ⟨h.plan.done, h.accounts.exactlyOnce⟩

end JobPlan

end StringSampleSort
