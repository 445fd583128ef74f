import StringSampleSort.Parallel.JobInvariant

/-!
# A small sort frees work

What `sample_sort_free_work` and `mkqs_free_work` of
`src/parallel/bingmann-parallel_sample_sort.hpp` do to the condition of a job: the parts of a step
that have not been dealt with are handed over or finished, one after the other.

## Main results

- `freeBucket_spec`, `freeAreas_spec`: the parts of a step
- `JobInv.sampleFreeWork_ok`, `JobInv.mkqsFreeWork_ok`: the loops
-/

namespace StringSampleSort

open Library SortTask

/-! ## Freed work -/

section Freed

variable {S : Type} {T : SortTask S} {cl : ClassifierClass} {w : Window} {k : JobStacks}
  {live freed : List StepLevel} {subs : List WorkShare} {created working : ℕ} {l₀ : StepLevel}
  {g₀ g : Ghost S} {j : SmallsortJob} {l : JobLoop} {f : FreeState S}

/-- A bucket of a step that is freed. -/
theorem freeBucket_spec {s : SeqSampleSortStep} (hok : s.Ok T cl)
    (h : Freeing T w live freed subs created working l₀ g₀ s.stepLevel g f)
    (hidx : s.idx < sampleBktnum) :
    ∃ f' g', freeBucket T.cls cl s s.idx f = some f' ∧
      Freeing T w live freed subs created working l₀ g₀ s.next.stepLevel g' f' := by
  have hbucket : s.classifier.bucketDepth s.depth s.idx = if s.idx % 2 = 0 then
      s.depth + (s.classifier.lcp (s.idx / 2) &&& 0x7F).toNat else s.depth + 8 := rfl
  have henqueue : 0 < s.bktsize s.idx → s.classifier.done s.idx = false →
      Freeing T w live freed subs created working l₀ g₀ s.next.stepLevel g
        (f.enqueue s.level s.idx (s.bucketPtr s.idx) (s.classifier.bucketDepth s.depth s.idx)) := by
    intro hpos hdone
    have hcall : (s.shape false).call s.idx = _ := hok.call_eq hdone (by simp)
    have hdepth : (s.piece s.idx).depth = s.classifier.bucketDepth s.depth s.idx :=
      if_neg (by simp [hdone])
    have henqueue := h.enqueue hidx hpos hcall
    rw [show (s.stepLevel.piece s.stepLevel.frame.idx).depth = _ from hdepth] at henqueue
    rw [hok.bucketPtr_eq]
    exact henqueue
  rw [freeBucket]
  by_cases hsize : s.bktsize s.idx = 0
  · rw [if_pos hsize, if_pos hsize, ite_self]
    exact ⟨f, g, rfl, h.skip hidx hsize⟩
  · have hpos := Nat.pos_of_ne_zero hsize
    rw [if_neg hsize, if_neg hsize]
    split
    · next heven =>
      rw [if_pos heven] at hbucket
      rw [← hbucket]
      exact ⟨_, g, rfl, henqueue hpos (decide_eq_false fun hodd => by omega)⟩
    · next hodd =>
      rw [if_neg hodd] at hbucket
      split
      · next hset =>
        have hdone : s.classifier.done s.idx = true := decide_eq_true ⟨by omega, hset⟩
        obtain ⟨g', heq, he, hc⟩ :=
          hok.fillDone_spec id hidx (h.plan.pieceFreed (l := s.stepLevel) hidx hpos) hdone
        rw [h.mem] at heq
        rw [heq]
        exact ⟨_, g', rfl, h.finish hidx hpos (if_pos (by simp [SeqSampleSortStep.stepLevel,
          SampleBuckets.toLevel, hdone])) he hc⟩
      · next hset =>
        rw [← hbucket]
        exact ⟨_, g, rfl, henqueue hpos (decide_eq_false fun hc => hset hc.2)⟩

/-- A step of multikey quicksort, of which so many parts have been dealt with. -/
def MKQSStep.from (ms : MKQSStep) (i : ℕ) : MKQSStep := { ms with idx := i }

/-- An area of a step that is freed, when it is not finished at once. -/
theorem freeArea_enqueue {ms : MKQSStep} {base i : ℕ} (hok : ms.Ok T base) (hi : i < 3)
    (hrec : ¬ (i = 1 ∧ ms.eq_recurse = false))
    (h : Freeing T w live freed subs created working l₀ g₀ (ms.from i).toLevel g f) :
    Freeing T w live freed subs created working l₀ g₀ (ms.from (i + 1)).toLevel g
      (if (ms.area i).size ≠ 0 then f.enqueue ms.level i (T.pointer (ms.piece i)) (ms.areaDepth i)
      else f) := by
  split
  · next hsize =>
    exact h.enqueue hi (Nat.pos_of_ne_zero hsize) ((hok.call_eq hi).trans (if_neg hrec))
  · next hsize => exact h.skip hi (not_not.mp hsize)

/-- The area of the strings that are equal to a pivot with the terminator in it is finished. -/
theorem freeArea_finish {ms : MKQSStep} {base : ℕ} (hok : ms.Ok T base)
    (hend : ms.eq_recurse = false)
    (h : Freeing T w live freed subs created working l₀ g₀ (ms.from 1).toLevel g f) :
    let spb := T.cls.copyBack (ms.strptr.sub ms.num_lt ms.num_eq) f.mem
    ∃ g', Freeing T w live freed subs created working l₀ g₀ (ms.from 2).toLevel g'
      (f.finish ms.level 1 (T.cls.fillLcp spb.1 (ms.depth + ms.lcp_eq) spb.2)) := by
  intro spb
  have hlt : (ms.from 1).toLevel.frame.idx < (ms.from 1).toLevel.frame.shape.parts :=
    Nat.lt_of_sub_eq_succ rfl
  have hP : T.PieceOk g (ms.piece 1) := h.plan.pieceFreed hlt hok.eq_pos
  have hconst := hok.const hend
  obtain ⟨g', hmem, he, hc⟩ := fillLcp_finishes hP hconst.1 hconst.2
  have hptr : ms.strptr.sub ms.num_lt ms.num_eq = T.pointer (ms.piece 1) := hok.sub_pointer rfl
  have hcall : ms.shape.call 1 = none := (hok.call_eq (by decide)).trans (if_pos ⟨rfl, hend⟩)
  rw [h.mem, ← hptr] at hmem
  rw [← hmem]
  exact ⟨g', h.finish hlt hok.eq_pos hcall he hc⟩

/-- The areas of a step that is freed. -/
theorem freeAreas_spec {ms : MKQSStep} {base : ℕ} (hok : ms.Ok T base) (hidx : ms.idx ≤ 3)
    (h : Freeing T w live freed subs created working l₀ g₀ ms.toLevel g f) :
    ∃ f' g', freeAreas T.cls ms f = some f' ∧
      Freeing T w live freed subs created working l₀ g₀ ms.freed.toLevel g' f' := by
  have hlt : ms.strptr.sub 0 ms.num_lt = T.pointer (ms.piece 0) := hok.sub_pointer rfl
  have heq : ms.strptr.sub ms.num_lt ms.num_eq = T.pointer (ms.piece 1) := hok.sub_pointer rfl
  have hgt : ms.strptr.sub (ms.num_lt + ms.num_eq) ms.num_gt = T.pointer (ms.piece 2) :=
    hok.sub_pointer rfl
  -- the areas that have been dealt with before are left out
  obtain ⟨f₁, hf₁, h₁⟩ : ∃ f₁, f₁ = (if ms.idx = 0 ∧ ms.num_lt ≠ 0 then
      f.enqueue ms.level 0 (ms.strptr.sub 0 ms.num_lt) ms.depth else f) ∧
      Freeing T w live freed subs created working l₀ g₀ (ms.from (max ms.idx 1)).toLevel g f₁ := by
    refine ⟨_, rfl, ?_⟩
    by_cases h0 : ms.idx = 0
    · have hfrom : ms = ms.from 0 := by rw [MKQSStep.from, ← h0]
      simp only [h0, true_and, hlt]
      exact freeArea_enqueue (i := 0) hok (by decide) (by simp) (hfrom ▸ h)
    · rw [if_neg fun hc => h0 hc.1, Nat.max_eq_left (Nat.one_le_iff_ne_zero.mpr h0)]
      exact h
  obtain ⟨f₂, g₂, hf₂, h₂⟩ : ∃ f₂ g₂, (if ms.idx ≤ 1 then
      if ms.num_eq > 0 then
        let sp := ms.strptr.sub ms.num_lt ms.num_eq
        if ms.eq_recurse then some (f₁.enqueue ms.level 1 sp (ms.depth + 8))
        else
          let spb := T.cls.copyBack sp f₁.mem
          some (f₁.finish ms.level 1 (T.cls.fillLcp spb.1 (ms.depth + ms.lcp_eq) spb.2))
      else none
      else some f₁) = some f₂ ∧
      Freeing T w live freed subs created working l₀ g₀ (ms.from (max ms.idx 2)).toLevel g₂ f₂ := by
    by_cases h1 : ms.idx ≤ 1
    · rw [Nat.max_eq_right h1] at h₁
      rw [if_pos h1, if_pos hok.eq_pos, Nat.max_eq_right (by omega)]
      dsimp only
      split
      · next hrec =>
        have harea := freeArea_enqueue (i := 1) hok (by decide) (by simp [hrec]) h₁
        rw [if_pos (show (ms.area 1).size ≠ 0 from hok.eq_pos.ne'), MKQSStep.areaDepth,
          if_pos ⟨rfl, hrec⟩, ← heq] at harea
        exact ⟨_, g, rfl, harea⟩
      · next hrec =>
        obtain ⟨g', harea⟩ := freeArea_finish hok (by simpa using hrec) h₁
        exact ⟨_, g', rfl, harea⟩
    · rw [if_neg h1, Nat.max_eq_left (by omega)]
      rw [Nat.max_eq_left (by omega)] at h₁
      exact ⟨f₁, g, rfl, h₁⟩
  have h₃ : Freeing T w live freed subs created working l₀ g₀ ms.freed.toLevel g₂
      (if ms.idx ≤ 2 ∧ ms.num_gt ≠ 0 then
        f₂.enqueue ms.level 2 (ms.strptr.sub (ms.num_lt + ms.num_eq) ms.num_gt) ms.depth
      else f₂) := by
    by_cases h2 : ms.idx ≤ 2
    · rw [Nat.max_eq_right h2] at h₂
      simp only [h2, true_and, hgt]
      exact freeArea_enqueue (i := 2) hok (by decide) (by simp) h₂
    · rw [if_neg fun hc => h2 hc.1]
      rwa [Nat.max_eq_left (by omega), show ms.idx = 3 by omega] at h₂
  refine ⟨_, g₂, ?_, h₃⟩
  rw [freeAreas, ← hf₁]
  exact congrArg (Option.map _) hf₂

/-- The keys of the areas that are left stay right when the strings there do. -/
theorem MKQSStep.KeysOk.agree {ms : MKQSStep} {keys : ℕ → KeyType} {base : ℕ} {g' : Ghost S}
    (h : ms.KeysOk T g keys base) (hu : ∀ u ∈ ms.toLevel.remaining, Agree u g g') :
    ms.KeysOk T g' keys base := fun i hi hi3 hi1 p hp => by
  have hagree := hu _ (StepLevel.mem_remaining.mpr ⟨i, hi, hi3, rfl⟩)
  rw [h i hi hi3 hi1 p hp, valueKey, valueKey, hagree.value _ hp]

namespace JobInv

/-- A bucket of the lowest step of sample sort is freed, or the step is left behind. -/
theorem sampleFreeWork_ok (h : JobInv T cl j.window k subs g j)
    (hat : k.At subs.length j.working j.phase) (hphase : j.phase = .freeSample l) :
    ∃ o g', SmallsortJob.sampleFreeWork T.cls cl g.mem j l = some o ∧
      o.Ok T (SmallsortJob.Holds T cl) SmallsortJob.share (SmallsortJob.rank T) g j subs g' := by
  have hat₀ := hat
  rw [hphase] at hat
  obtain ⟨⟨s, hcur⟩, hloop, hworking⟩ := hat
  obtain ⟨base, sl, cur, sf, ml, mf⟩ := k
  simp only at hcur
  subst hcur
  obtain rfl : mf = [] := by
    by_contra hmf
    exact absurd (h.exclusive hmf).2 (by simp)
  have hss : j.ss_stack = sl ++ s :: sf := h.ss_stack
  obtain ⟨htake, hdrop⟩ := split_stack sl s sf
  rw [← hss, ← show j.ss_pop_front = sf.length from h.ss_pop_front] at htake hdrop
  have hok := h.ssOk s (by simp)
  rw [SmallsortJob.sampleFreeWork]
  dsimp only
  rw [htake, hdrop]
  dsimp only
  split
  · next hidx =>
    have hstart := Freeing.start j.working h.plan
    obtain ⟨f, g', heq, hfree⟩ := freeBucket_spec hok hstart hidx
    rw [heq]
    have hplan : JobPlan T g' j.window (mkqsLevels ml (sl.map SeqSampleSortStep.stepLevel))
        (mkqsLevels [] (([s.next] ++ sf).map SeqSampleSortStep.stepLevel))
        (subs ++ f.enqueued.map EnqueuedWork.share) j.created f.history := hfree.plan
    have hinv : JobInv T cl j.window ⟨base, sl, [s.next], sf, ml, []⟩
        (subs ++ f.enqueued.map EnqueuedWork.share) g'
        { j with ss_stack := sl ++ s.next :: sf, working := f.working, history := f.history } := by
      refine ⟨⟨rfl, h.mkqs.stack, h.mkqs.pop_front, h.mkqs.steps, h.mkqs.idx, ?_, hplan,
        by simp [SmallsortJob.mkqsState]⟩, rfl, h.ss_pop_front, ?_, h.ssDone, by simp⟩
      · intro ms hms
        apply (h.mkqs.keys ms hms).agree
        exact hfree.agree _ (List.mem_append_left _ (List.mem_map_of_mem hms))
      · have hall := h.ssOk
        simp only [List.mem_append, List.mem_singleton] at hall ⊢
        rintro a (ha | rfl | ha)
        · exact hall a (Or.inl ha)
        · exact ⟨hok.strptr, hok.buckets⟩
        · exact hall a (Or.inr (Or.inr ha))
    have hrank := hfree.rank
    refine ⟨_, g', rfl, .of_at ((SmallsortJob.rank_of_at hat₀).trans (by rw [h.work_eq]))
      hfree.mem hfree.touches rfl hinv ?_ hfree.calls (by simp [SmallsortJob.freed]) ?_⟩
    · have hat' : JobStacks.At ⟨base, sl, [s.next], sf, ml, []⟩
          (subs.length + f.enqueued.length) f.working (.freeSample l) := by
        refine ⟨⟨_, rfl⟩, ?_, by rw [hfree.working_eq, hworking]; omega⟩
        cases l with
        | sampleSort => exact hloop
        | mkqs nested => exact fun hnested => absurd (hloop hnested).2 (by simp)
      rwa [← hphase] at hat'
    · have hwork (t : SeqSampleSortStep) : JobStacks.work T ⟨base, sl, [t], sf, ml, []⟩ =
          JobStacks.work T ⟨base, sl, [], sf, ml, []⟩ + rankScale * t.stepLevel.rank T := by
        simp only [JobStacks.work, List.map_append, levelsRank_append, List.map_cons, List.map_nil,
          levelsRank_cons, levelsRank_nil]
        ring
      rw [enqueuedRank_eq] at hrank
      have hidx' : s.next.stepLevel.frame.idx = s.stepLevel.frame.idx + 1 := rfl
      change _ + f.working + j.phase.rank + _ < _
      have hworking' := hfree.working_eq
      rw [hwork, hwork s]
      simp only [SmallsortJob.freed] at hrank ⊢
      omega
  · next hidx =>
    have hinv : JobInv T cl j.window ⟨base, sl, [], s :: sf, ml, []⟩ subs g
        { j with ss_pop_front := j.ss_pop_front + 1, phase := .loop l } := by
      refine ⟨h.mkqs, h.ss_stack, congrArg (· + 1) h.ss_pop_front, h.ssOk, ?_, by simp⟩
      exact List.forall_mem_cons.mpr ⟨not_lt.mp hidx, h.ssDone⟩
    refine ⟨_, g, rfl, .of_at (k := ⟨base, sl, [], s :: sf, ml, []⟩)
      ((SmallsortJob.rank_of_at hat₀).trans (by rw [h.work_eq])) rfl (Touches.refl _ _ _) rfl
      (by simpa [SmallsortJob.outcome] using hinv) ⟨rfl, ?_, hworking⟩
      (by simp [SmallsortJob.outcome]) (by simp [SmallsortJob.outcome]) ?_⟩
    · cases l with
      | sampleSort => exact hloop
      | mkqs nested => exact fun hnested => absurd (hloop hnested).2 (by simp)
    · have hpos : 1 ≤ s.stepLevel.rank T := Nat.le_add_right ..
      simp only [SmallsortJob.outcome, JobStacks.work, List.map_append, levelsRank_append,
        List.map_cons, List.map_nil, levelsRank_cons, levelsRank_nil, hphase, JobPhase.rank,
        List.length_cons, List.length_nil, List.sum_nil, rankScale]
      omega

/-- The areas of the lowest step of multikey quicksort are freed, or the job goes on sorting. -/
theorem mkqsFreeWork_ok {fl : ℕ} (h : JobInv T cl j.window k subs g j)
    (hat : k.At subs.length j.working j.phase) (hphase : j.phase = .freeMkqs l fl) :
    ∃ o g', SmallsortJob.mkqsFreeWork T.cls g.mem j l fl = some o ∧
      o.Ok T (SmallsortJob.Holds T cl) SmallsortJob.share (SmallsortJob.rank T) g j subs g' := by
  have hat₀ := hat
  have hlen := h.ms_length
  rw [hphase] at hat
  obtain ⟨hcur, hsl, hloop, hworking⟩ := hat
  obtain ⟨base, sl, cur, sf, ml, mf⟩ := k
  simp only at hcur hsl hlen
  subst hcur hsl
  rw [SmallsortJob.mkqsFreeWork]
  split
  · next hmore =>
    have hne : ml ≠ [] := by
      rintro rfl
      simp at hlen
      omega
    obtain ⟨rest, ms, rfl⟩ := (List.eq_nil_or_concat' ml).resolve_left hne
    have hms : j.ms_stack = rest ++ ms :: mf := by
      rw [show j.ms_stack = rest ++ [ms] ++ mf from h.mkqs.stack, List.append_assoc,
        List.singleton_append]
    obtain ⟨-, hdrop⟩ := split_stack rest ms mf
    rw [← hms, ← show j.ms_pop_front = mf.length from h.mkqs.pop_front] at hdrop
    rw [hdrop]
    dsimp only
    have hok := h.mkqs.steps ms (by simp)
    have hidx := h.mkqs.idx ms (by simp)
    have hplan := h.plan
    rw [mkqsLevels, List.map_append, List.map_nil, List.append_nil, List.map_singleton] at hplan
    obtain ⟨f, g', heq, hfree⟩ := freeAreas_spec hok hidx (Freeing.start j.working hplan.free)
    rw [heq]
    have hinv : JobInv T cl j.window ⟨base, [], [], sf, rest, ms :: mf⟩
        (subs ++ f.enqueued.map EnqueuedWork.share) g'
        { j with
          ms_pop_front := j.ms_pop_front + 1
          phase := .freeMkqs l (fl + 1)
          working := f.working
          history := f.history } := by
      refine ⟨⟨rfl, ?_, congrArg (· + 1) h.mkqs.pop_front, ?_, ?_, ?_, ?_, ?_⟩, h.ss_stack,
        h.ss_pop_front, h.ssOk, h.ssDone, fun _ => ⟨rfl, rfl⟩⟩
      · exact hms
      · simpa using h.mkqs.steps
      · exact fun a ha => h.mkqs.idx a (List.mem_append_left _ ha)
      · intro a ha
        apply (h.mkqs.keys a (List.mem_append_left _ ha)).agree
        exact hfree.agree _ (List.mem_map_of_mem ha)
      · have hlive : mkqsLevels rest [] = rest.map MKQSStep.toLevel := List.append_nil _
        have hfreed := hfree.plan
        rw [← hlive] at hfreed
        exact hfreed
      · simp [SmallsortJob.mkqsState]
    have hat' : JobStacks.At ⟨base, [], [], sf, rest, ms :: mf⟩
        (subs.length + f.enqueued.length) f.working (.freeMkqs l (fl + 1)) := by
      refine ⟨rfl, rfl, ?_, by rw [hfree.working_eq, hworking]; omega⟩
      cases l with
      | sampleSort => exact absurd (hloop : rest ++ [ms] = []) hne
      | mkqs nested => exact fun _ => ⟨rfl, rfl⟩
    refine ⟨_, g', rfl, .of_at ((SmallsortJob.rank_of_at hat₀).trans (by rw [h.work_eq]))
      hfree.mem hfree.touches rfl hinv hat' hfree.calls (by simp [SmallsortJob.freed]) ?_⟩
    have hrank := hfree.rank
    have hpos : 1 ≤ ms.freed.toLevel.rank T := Nat.le_add_right ..
    have hidx₀ : ms.toLevel.frame.idx ≤ 3 := hidx
    have hworking' := hfree.working_eq
    rw [enqueuedRank_eq] at hrank
    simp only [SmallsortJob.freed, JobStacks.work, List.map_append, levelsRank_append,
      List.map_cons, List.map_nil, levelsRank_cons, levelsRank_nil, hphase, JobPhase.rank,
      List.length_cons, rankScale] at hrank ⊢
    omega
  · exact ⟨_, g, rfl, h.goto_ok (.loop l) hat₀ h rfl ⟨rfl, hloop, hworking⟩
      (by simp only [hphase, JobPhase.rank]; omega)⟩

end JobInv

end Freed

end StringSampleSort
