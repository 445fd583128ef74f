import StringSampleSort.Parallel.SortMethods

/-!
# The buffer of a small sort

A `SmallsortJob` has one buffer, `bktcache`.  The steps of the sample sort write the bucket ids of
their strings to it, two bytes each, and the steps of multikey quicksort keep the keys of theirs
there, eight bytes each.  `run` allocates it for the ids of all strings of the job, and
`sort_mkqs_cache` allocates a larger one when it is too small for the keys.

The code does not check anywhere else that the buffer is large enough.  It is for every step at all
times, since it never shrinks, a bucket is no larger than the range that it is cut out of, and the
parts of a step of multikey quicksort share its keys.

## Main results

- `mkqsRound_fits`: a round of `sort_mkqs_cache` stays within the buffer
- `SmallsortJob.step_bufferOk`: so does every action of a job
- `smallsort_buffer`: the buffers of all jobs are large enough at all times
-/

namespace StringSampleSort

open Library SortTask

/-! ## Multikey quicksort -/

/-- The keys of a step lie in a buffer of so many bytes, and its parts share them. -/
structure MKQSStep.InBuffer (ms : MKQSStep) (bytes : ℕ) : Prop where
  keys : (ms.cache + ms.strptr.size) * 8 ≤ bytes
  parts : ms.num_lt + ms.num_eq + ms.num_gt = ms.strptr.size

/-- The steps on the stack, and all steps and insertion sorts that have been entered, use keys that
lie in the buffer. -/
structure MkqsState.Fits {S : Type} (s : MkqsState S) : Prop where
  stack : ∀ ms ∈ s.ms_stack, ms.InBuffer s.bktcache_size
  entries : ∀ e ∈ s.entries, (e.cache + e.strptr.size) * 8 ≤ s.bktcache_size

section Mkqs

variable {S : Type} {cls : StringPtrClass} {ss : StringSet S} {s s' : MkqsState S}

/-- The fields of a new step that say where its keys are. -/
theorem mkqsStep_inBuffer {level cache depth bytes : ℕ} {strptr : StringPtr} {CacheDirty : Bool}
    {m : KeyMemory S} {r : MKQSStep × KeyMemory S}
    (h : mkqsStep ss level strptr cache depth CacheDirty m = some r)
    (hfits : (cache + strptr.size) * 8 ≤ bytes) : r.1.InBuffer bytes := by
  simp only [mkqsStep, Option.ite_none_right_eq_some, Option.some_inj] at h
  obtain ⟨hasserts, rfl⟩ := h
  exact ⟨hfits, hasserts.2.1⟩

theorem MkqsState.Fits.enter (h : s.Fits) {strptr : StringPtr} {cache : ℕ} (depth : ℕ)
    (CacheDirty : Bool) (hfits : (cache + strptr.size) * 8 ≤ s.bktcache_size) :
    (s.enter strptr cache depth CacheDirty).Fits where
  stack := h.stack
  entries e he := by
    rcases List.mem_append.mp he with he | he
    · exact h.entries e he
    · rw [List.mem_singleton.mp he]
      exact hfits

theorem MkqsState.Fits.emplaceBack (h : s.Fits) {strptr : StringPtr} {cache depth : ℕ}
    {CacheDirty : Bool} (hfits : (cache + strptr.size) * 8 ≤ s.bktcache_size)
    (hs : s.emplaceBack ss strptr cache depth CacheDirty = some s') :
    s'.Fits ∧ s'.bktcache_size = s.bktcache_size := by
  obtain ⟨r, hr, rfl⟩ := Option.map_eq_some_iff.mp hs
  refine ⟨⟨fun ms hms => ?_, (h.enter depth CacheDirty hfits).entries⟩, rfl⟩
  rcases List.mem_cons.mp hms with rfl | hms
  · exact mkqsStep_inBuffer hr hfits
  · exact h.stack ms hms

theorem MkqsState.Fits.sortPart (h : s.Fits) {level i : ℕ} {strptr : StringPtr} {cache depth : ℕ}
    {CacheDirty : Bool} (hfits : (cache + strptr.size) * 8 ≤ s.bktcache_size)
    (hs : s.sortPart cls ss level i strptr cache depth CacheDirty = some s') :
    s'.Fits ∧ s'.bktcache_size = s.bktcache_size := by
  unfold MkqsState.sortPart at hs
  split at hs
  · obtain rfl := Option.some_inj.mp hs
    exact ⟨⟨h.stack, (h.enter depth CacheDirty hfits).entries⟩, rfl⟩
  · have hnoted : (s.note (.deal level i (.pushed s.created (strptr, depth)))).Fits :=
      ⟨h.stack, h.entries⟩
    exact hnoted.emplaceBack hfits hs

/-- A round uses no keys outside of the buffer: the parts of a step lie where its keys are. -/
theorem mkqsRound_fits (h : s.Fits) (hs : mkqsRound cls ss s = some s') :
    s'.Fits ∧ s'.bktcache_size = s.bktcache_size := by
  unfold mkqsRound at hs
  cases hstack : s.ms_stack with
  | nil =>
    rw [hstack] at hs
    cases hs
  | cons top rest =>
    rw [hstack] at hs
    have htop := h.stack top (hstack ▸ List.mem_cons_self)
    have hrest : ∀ ms ∈ rest, ms.InBuffer s.bktcache_size := fun ms hms =>
      h.stack ms (hstack ▸ List.mem_cons_of_mem top hms)
    have hkeys := htop.keys
    have hparts := htop.parts
    have hnext : MkqsState.Fits { s with ms_stack := { top with idx := top.idx + 1 } :: rest } := by
      refine ⟨fun ms hms => ?_, h.entries⟩
      rcases List.mem_cons.mp hms with rfl | hms
      · exact ⟨htop.keys, htop.parts⟩
      · exact hrest ms hms
    -- a part of so many strings, from an offset on
    have hpart : ∀ offset size, offset + size ≤ top.strptr.size →
        (top.cache + offset + (top.strptr.sub offset size).size) * 8 ≤ s.bktcache_size := by
      intro offset size hle
      have hsize : (top.strptr.sub offset size).size = size := Nat.add_sub_cancel_left ..
      rw [hsize]
      omega
    dsimp only at hs
    split at hs
    · split at hs
      · obtain rfl := Option.some_inj.mp hs
        exact ⟨hnext, rfl⟩
      · exact hnext.sortPart (hpart 0 top.num_lt (by omega)) hs
    · split at hs
      · split at hs
        · split at hs
          · obtain rfl := Option.some_inj.mp hs
            exact ⟨⟨hnext.stack, hnext.entries⟩, rfl⟩
          · exact hnext.sortPart (hpart top.num_lt top.num_eq (by omega)) hs
        · cases hs
      · split at hs
        · split at hs
          · obtain rfl := Option.some_inj.mp hs
            exact ⟨hnext, rfl⟩
          · exact hnext.sortPart (hpart (top.num_lt + top.num_eq) top.num_gt (by omega)) hs
        · obtain rfl := Option.some_inj.mp hs
          exact ⟨⟨hrest, h.entries⟩, rfl⟩

/-- A call of `sort_mkqs_cache` has a buffer for the keys of all of its strings. -/
theorem callMkqsCache_fits (h : s.Fits) {fresh : ℕ → KeyType} {bucket : Option (ℕ × ℕ)}
    {strptr : StringPtr} {depth : ℕ} {r : Bool × MkqsState S}
    (hr : callMkqsCache cls ss fresh bucket strptr depth s = some r) :
    r.2.Fits ∧ s.bktcache_size ≤ r.2.bktcache_size := by
  have hdealt : ∀ (s : MkqsState S) d, s.Fits → (s.dealt bucket d).Fits ∧
      (s.dealt bucket d).bktcache_size = s.bktcache_size := by
    intro s d hs
    unfold MkqsState.dealt
    split
    · exact ⟨hs, rfl⟩
    · exact ⟨⟨hs.stack, hs.entries⟩, rfl⟩
  unfold callMkqsCache at hr
  split at hr
  · -- a small range is sorted at once, without the buffer
    obtain rfl := Option.some_inj.mp hr
    have hsorted := hdealt { s with
      mem := cls.insertionSort ss (cls.copyBack strptr s.mem).1 depth
        (cls.copyBack strptr s.mem).2 } (.sorted (strptr, depth)) ⟨h.stack, h.entries⟩
    exact ⟨hsorted.1, hsorted.2.ge⟩
  · -- a larger buffer holds what the smaller one has held
    set s₁ := if s.bktcache_size < strptr.size * 8 then
      { s with keys := fresh, bktcache_size := strptr.size * 8 } else s with hs₁
    have hgrown : s₁.Fits ∧ s.bktcache_size ≤ s₁.bktcache_size ∧
        strptr.size * 8 ≤ s₁.bktcache_size := by
      rw [hs₁]
      split
      · next hlt =>
        refine ⟨⟨fun ms hms => ⟨(h.stack ms hms).keys.trans hlt.le, (h.stack ms hms).parts⟩,
          fun e he => (h.entries e he).trans hlt.le⟩, hlt.le, le_refl _⟩
      · next hge => exact ⟨h, le_refl _, Nat.not_lt.mp hge⟩
    obtain ⟨hfits, hle, hcapacity⟩ := hgrown
    dsimp only at hr
    split at hr
    · obtain ⟨hd, hsize⟩ := hdealt s₁ (.pushed s₁.created (strptr, depth)) hfits
      obtain ⟨s₂, hs₂, rfl⟩ := Option.map_eq_some_iff.mp hr
      obtain ⟨hfits₂, hsize₂⟩ := hd.emplaceBack (by rw [hsize]; omega) hs₂
      exact ⟨hfits₂, by rw [hsize₂, hsize]; exact hle⟩
    · cases hr

end Mkqs

/-! ## The job -/

/-- The buffer holds the ids of every step of the sample sort on the stack, and the keys of every
step of multikey quicksort. -/
structure SmallsortJob.BufferOk (j : SmallsortJob) : Prop where
  ids : ∀ s ∈ j.ss_stack, s.strptr.size * 2 ≤ j.bktcache_size
  keys : ∀ ms ∈ j.ms_stack, ms.InBuffer j.bktcache_size

namespace SmallsortJob

variable {S : Type} {cls : StringPtrClass} {ss : StringSet S} {cl : ClassifierClass}
  {T : SortTask S} {g : Ghost S} {subs : List WorkShare} {inp : JobInput} {m : Memory S}
  {j : SmallsortJob} {o : SortOutcome S SmallsortJob}

theorem BufferOk.mkqsFits (h : j.BufferOk) (m : Memory S) : (j.mkqsState m).Fits :=
  ⟨h.keys, by simp [mkqsState]⟩

/-- A new step of the sample sort writes its ids to the buffer. -/
theorem BufferOk.emplaceSample (h : j.BufferOk) {phase : JobPhase} {strptr : StringPtr} {depth : ℕ}
    (hfits : strptr.size * 2 ≤ j.bktcache_size)
    (hs : SmallsortJob.emplaceSample ss cl inp phase strptr depth m j = some o) :
    o.proc.BufferOk := by
  obtain ⟨r, hr, rfl⟩ := Option.map_eq_some_iff.mp hs
  refine ⟨fun s hs => ?_, h.keys⟩
  -- the new step lies on the others
  rcases List.mem_cons.mp hs with rfl | hs
  · obtain ⟨q, -, rfl⟩ := Option.map_eq_some_iff.mp hr
    exact hfits
  · exact h.ids s hs

/-- A call of `sort_mkqs_cache` may get a larger buffer, which the ids fit in as well. -/
theorem BufferOk.callMkqs (h : j.BufferOk) {bucket : Option (ℕ × ℕ)} {strptr : StringPtr}
    {depth : ℕ} (hs : SmallsortJob.callMkqs cls ss inp bucket strptr depth m j = some o) :
    o.proc.BufferOk := by
  obtain ⟨r, hr, rfl⟩ := Option.map_eq_some_iff.mp hs
  obtain ⟨hfits, hle⟩ := callMkqsCache_fits (h.mkqsFits m) hr
  exact ⟨fun s hs => (h.ids s hs).trans hle, hfits.stack⟩

theorem BufferOk.sortBucket (h : j.BufferOk) {s : SeqSampleSortStep} {i depth : ℕ}
    (hfits : (s.bucketPtr i).size * 2 ≤ j.bktcache_size)
    (hs : SmallsortJob.sortBucket cls ss cl inp s i depth m j = some o) : o.proc.BufferOk := by
  unfold SmallsortJob.sortBucket at hs
  dsimp only at hs
  split at hs
  · exact h.callMkqs hs
  · exact BufferOk.emplaceSample (j := j.note _) ⟨h.ids, h.keys⟩ hfits hs

/-- A job that starts allocates a buffer for its strings. -/
theorem run_bufferOk {part : ℕ × ℕ} {strptr : StringPtr} {depth : ℕ}
    (hs : run cls ss cl inp m (.new part strptr depth) = some o) : o.proc.BufferOk := by
  -- at its start a job has nothing on its stacks
  have hnone : ∀ j : SmallsortJob, j.ss_stack = [] → j.ms_stack = [] → j.BufferOk := by
    intro j hss hms
    exact ⟨by simp [hss], by simp [hms]⟩
  unfold run at hs
  dsimp only at hs
  split at hs
  · split at hs
    · exact (hnone _ rfl rfl).emplaceSample (le_refl _) hs
    · cases hs
  · exact (hnone _ rfl rfl).callMkqs hs

/-- A round of the loop of `sort_sample_sort`: buckets are no larger than the step that they belong
to. -/
theorem BufferOk.sampleRound (h : j.BufferOk)
    (hbuckets : ∀ s ∈ j.ss_stack, ∀ i < sampleBktnum, s.bktsize i ≤ s.strptr.size)
    (hs : SmallsortJob.sampleRound cls ss cl inp m j = some o) : o.proc.BufferOk := by
  unfold SmallsortJob.sampleRound at hs
  cases hstack : j.ss_stack with
  | nil =>
    rw [hstack] at hs
    cases hs
  | cons top rest =>
    rw [hstack] at hs
    have htop := h.ids top (hstack ▸ List.mem_cons_self)
    have hrest : ∀ s ∈ rest, s.strptr.size * 2 ≤ j.bktcache_size := fun s hs =>
      h.ids s (hstack ▸ List.mem_cons_of_mem top hs)
    -- the step on top goes on to its next bucket
    have hnext : BufferOk { j with
        ss_stack := { top with idx := top.idx + 1 } :: rest, phase := .poll .sampleSort } := by
      refine ⟨fun s hs => ?_, h.keys⟩
      rcases List.mem_cons.mp hs with rfl | hs
      · exact htop
      · exact hrest s hs
    dsimp only at hs
    split at hs
    · next hidx =>
      have hsize : top.bktsize top.idx ≤ top.strptr.size :=
        hbuckets top (hstack ▸ List.mem_cons_self) _ hidx
      -- a bucket is no larger than the step, whose ids fit
      have hfits : (top.bucketPtr top.idx).size * 2 ≤ j.bktcache_size := by
        have hptr : (top.bucketPtr top.idx).size = top.bktsize top.idx := Nat.add_sub_cancel_left ..
        omega
      split at hs
      · split at hs
        · obtain rfl := Option.some_inj.mp hs
          exact hnext
        · split at hs
          · cases hs
          · exact hnext.sortBucket hfits hs
      · split at hs
        · obtain rfl := Option.some_inj.mp hs
          exact hnext
        · split at hs
          · obtain ⟨m', -, rfl⟩ := Option.map_eq_some_iff.mp hs
            exact ⟨hnext.ids, hnext.keys⟩
          · exact hnext.sortBucket hfits hs
    · -- behind the last bucket the step leaves the stack
      obtain ⟨m', -, rfl⟩ := Option.map_eq_some_iff.mp hs
      exact ⟨hrest, h.keys⟩

theorem BufferOk.loopRound (h : j.BufferOk)
    (hbuckets : ∀ s ∈ j.ss_stack, ∀ i < sampleBktnum, s.bktsize i ≤ s.strptr.size) {l : JobLoop}
    (hs : SmallsortJob.loopRound cls ss cl inp m j l = some o) : o.proc.BufferOk := by
  unfold SmallsortJob.loopRound at hs
  cases l with
  | sampleSort =>
    dsimp only at hs
    split at hs
    · exact h.sampleRound hbuckets hs
    · obtain rfl := Option.some_inj.mp hs
      exact ⟨h.ids, h.keys⟩
  | mkqs nested =>
    dsimp only at hs
    split at hs
    · obtain ⟨s', hround, rfl⟩ := Option.map_eq_some_iff.mp hs
      obtain ⟨hfits, hsize⟩ := mkqsRound_fits (h.mkqsFits m) hround
      -- multikey quicksort does not change the size of the buffer in its rounds
      exact ⟨fun s hs => (h.ids s hs).trans hsize.ge, hfits.stack⟩
    · obtain rfl := Option.some_inj.mp hs
      exact ⟨h.ids, h.keys⟩

/-- Polling only decides what comes next. -/
theorem BufferOk.pollIdle (h : j.BufferOk) {l : JobLoop}
    (hs : SmallsortJob.pollIdle inp m j l = some o) : o.proc.BufferOk := by
  have hphase : ∀ phase, BufferOk { j with phase := phase } := fun _ => ⟨h.ids, h.keys⟩
  unfold SmallsortJob.pollIdle at hs
  split at hs
  · simp only [Option.ite_none_right_eq_some] at hs
    obtain ⟨-, hs⟩ := hs
    split at hs
    · simp only [Option.ite_none_right_eq_some, Option.some_inj] at hs
      obtain ⟨-, rfl⟩ := hs
      exact hphase _
    · obtain rfl := Option.some_inj.mp hs
      exact hphase _
  · obtain rfl := Option.some_inj.mp hs
    exact hphase _

/-- The steps whose work is freed stay on the stacks. -/
theorem BufferOk.sampleFreeWork (h : j.BufferOk) {l : JobLoop}
    (hs : SmallsortJob.sampleFreeWork cls cl m j l = some o) : o.proc.BufferOk := by
  unfold SmallsortJob.sampleFreeWork at hs
  dsimp only at hs
  cases hdrop : j.ss_stack.drop (j.ss_stack.length - j.ss_pop_front - 1) with
  | nil =>
    rw [hdrop] at hs
    cases hs
  | cons s below =>
    rw [hdrop] at hs
    -- the step that is freed is the lowest that is not, and stays where it is
    have hmem : ∀ s' ∈ s :: below, s'.strptr.size * 2 ≤ j.bktcache_size := fun s' hs' =>
      h.ids s' (List.mem_of_mem_drop (hdrop ▸ hs'))
    dsimp only at hs
    split at hs
    · obtain ⟨f, -, rfl⟩ := Option.map_eq_some_iff.mp hs
      refine ⟨fun s' hs' => ?_, h.keys⟩
      rcases List.mem_append.mp hs' with hs' | hs'
      · exact h.ids s' (List.mem_of_mem_take hs')
      · rcases List.mem_cons.mp hs' with rfl | hs'
        · exact hmem s List.mem_cons_self
        · exact hmem s' (List.mem_cons_of_mem s hs')
    · obtain rfl := Option.some_inj.mp hs
      exact ⟨h.ids, h.keys⟩

theorem BufferOk.mkqsFreeWork (h : j.BufferOk) {l : JobLoop} {fl : ℕ}
    (hs : SmallsortJob.mkqsFreeWork cls m j l fl = some o) : o.proc.BufferOk := by
  unfold SmallsortJob.mkqsFreeWork at hs
  split at hs
  · split at hs
    · cases hs
    · obtain ⟨f, -, rfl⟩ := Option.map_eq_some_iff.mp hs
      exact ⟨h.ids, h.keys⟩
  · obtain rfl := Option.some_inj.mp hs
    exact ⟨h.ids, h.keys⟩

theorem BufferOk.substepAllDone (h : j.BufferOk)
    (hs : SmallsortJob.substepAllDone cls ss cl m j = some o) : o.proc.BufferOk := by
  unfold SmallsortJob.substepAllDone at hs
  split at hs
  · split at hs
    · cases hs
    · obtain rfl := Option.some_inj.mp hs
      exact ⟨h.ids, h.keys⟩
  · split at hs
    · split at hs
      · cases hs
      · obtain ⟨m', -, rfl⟩ := Option.map_eq_some_iff.mp hs
        exact ⟨h.ids, h.keys⟩
    · obtain rfl := Option.some_inj.mp hs
      exact ⟨h.ids, h.keys⟩

/-- The buckets of the steps on the stack are no larger than the steps, while the job runs. -/
private theorem Holds.bktsize_le (h : j.Holds T cl g subs) {l : JobLoop}
    (hphase : j.phase = .loop l) {s : SeqSampleSortStep} (hs : s ∈ j.ss_stack) {i : ℕ}
    (hi : i < sampleBktnum) : s.bktsize i ≤ s.strptr.size := by
  rw [Holds, hphase] at h
  obtain ⟨k, hinv, -⟩ := h
  -- the invariant of the job knows the boundaries of every step on the stack
  rw [hinv.ss_stack] at hs
  have hend : s.bkt (i + 1) ≤ s.strptr.size := (hinv.ssOk s hs).buckets.boundaries.le_size hi
  exact (Nat.sub_le _ _).trans hend

/-- No action of a job leaves a step on a stack that the buffer is too small for. -/
theorem step_bufferOk (h : j.Holds T cl g subs) (hb : j.BufferOk)
    (hs : j.step T.cls T.ss cl inp m = some o) : o.proc.BufferOk := by
  unfold step at hs
  -- only the loops and `run` push steps
  cases hphase : j.phase with
  | queued =>
    rw [hphase] at hs
    rw [Holds, hphase] at h
    obtain ⟨-, hnew, -⟩ := h
    rw [hnew] at hs
    exact run_bufferOk hs
  | loop l =>
    rw [hphase] at hs
    exact hb.loopRound (fun s hs i hi => h.bktsize_le hphase hs hi) hs
  | poll l =>
    rw [hphase] at hs
    exact hb.pollIdle hs
  | freeSample l =>
    rw [hphase] at hs
    exact hb.sampleFreeWork hs
  | freeMkqs l fl =>
    rw [hphase] at hs
    exact hb.mkqsFreeWork hs
  | release =>
    rw [hphase] at hs
    simp only [Option.ite_none_right_eq_some, Option.some_inj] at hs
    obtain ⟨-, rfl⟩ := hs
    exact ⟨hb.ids, hb.keys⟩
  | waiting =>
    rw [hphase] at hs
    cases hs
  | allDone =>
    rw [hphase] at hs
    exact hb.substepAllDone hs
  | finished =>
    rw [hphase] at hs
    cases hs

end SmallsortJob

/-! ## All jobs of a sort -/

/-- The accesses of a sort step to the buffer stay within it: ids and keys of the steps on its
stacks lie in the buffer, and so do the keys of all steps and insertion sorts that a round of
`sort_mkqs_cache` enters. -/
def SortProcess.InBuffer {S : Type} (cls : StringPtrClass) (ss : StringSet S) : SortProcess → Prop
  | .smallsort j => j.BufferOk ∧ ∀ (m : Memory S) s', mkqsRound cls ss (j.mkqsState m) = some s' →
      ∀ e ∈ s'.entries, (e.cache + e.strptr.size) * 8 ≤ j.bktcache_size
  | .sampleSort _ => True

section Sorts

variable {S : Type} {T : SortTask S} {cl : ClassifierClass} {g : Ghost S} {l : SortProcess}
  {subs : List WorkShare}

namespace SortProcess

theorem inBuffer_smallsort {j : SmallsortJob} (h : j.BufferOk) (cls : StringPtrClass)
    (ss : StringSet S) : (smallsort j).InBuffer cls ss := by
  refine ⟨h, fun m s' hround e he => ?_⟩
  obtain ⟨hfits, hsize⟩ := mkqsRound_fits (h.mkqsFits m) hround
  exact (hfits.entries e he).trans hsize.le

/-- A new sort step has nothing on its stacks. -/
theorem inBuffer_enqueue (ctx : SortContext S) (part : ℕ × ℕ) (call : RangeCall)
    (cls : StringPtrClass) (ss : StringSet S) : (ctx.enqueue part call).InBuffer cls ss := by
  unfold SortContext.enqueue
  split
  · trivial
  · exact inBuffer_smallsort ⟨fun s hs => absurd hs List.not_mem_nil,
      fun ms hms => absurd hms List.not_mem_nil⟩ cls ss

/-- A notification by a substep does not touch the stacks. -/
theorem InBuffer.notify {cls : StringPtrClass} {ss : StringSet S} {l' : SortProcess}
    (h : l.InBuffer cls ss) {part : ℕ × ℕ} (hnotify : l.notify part = some l') :
    l'.InBuffer cls ss := by
  simp only [SortProcess.notify, Option.ite_none_right_eq_some, Option.some_inj] at hnotify
  obtain ⟨-, rfl⟩ := hnotify
  cases l with
  | sampleSort s => trivial
  | smallsort j =>
    apply inBuffer_smallsort
    exact ⟨h.1.ids, h.1.keys⟩

/-- An action of a sort step stays within the buffer, and so will the steps that it enqueues. -/
theorem InBuffer.acts {totalsize threadnum : ℕ} {a : SortLabel S} {m' : Memory S} {l' : SortProcess}
    {new : List SortProcess} (hholds : l.Holds T cl g subs) (h : l.InBuffer T.cls T.ss)
    (hact : (T.context cl totalsize threadnum).Acts g.mem l a m' l' new) :
    l'.InBuffer T.cls T.ss ∧ ∀ o ∈ new, o.InBuffer T.cls T.ss := by
  cases hact with
  | fails inp p henabled hstep => exact ⟨h, fun o ho => absurd ho List.not_mem_nil⟩
  | action inp p henabled hstep =>
    constructor
    · -- the process itself
      cases l with
      | smallsort j =>
        obtain ⟨o, ho, rfl⟩ := Option.map_eq_some_iff.mp hstep
        exact inBuffer_smallsort (SmallsortJob.step_bufferOk hholds h.1 ho) _ _
      | sampleSort s =>
        obtain ⟨o, -, rfl⟩ := Option.map_eq_some_iff.mp hstep
        trivial
    · -- the processes that it enqueues
      intro o ho
      obtain ⟨e, -, rfl⟩ := List.mem_map.mp ho
      exact inBuffer_enqueue _ e.part e.call _ _

end SortProcess

end Sorts

section Main

variable {S : Type} {ss : StringSet S} {cl : ClassifierClass} {lo n depth : ℕ}

/-- In a parallel sort the buffer of every small sort is large enough at all times, however the jobs
are interleaved and whenever threads are idle. -/
theorem smallsort_buffer (hset : PointerOrIndexSet ss) (cls : StringPtrClass)
    (hread : cls.hasCache = true → ss.ReadsEnd) (hcl : cl.IsInterleaveX) (threadnum : ℕ)
    (hn : 1 ≤ n) (m : Memory S)
    (hdepth : SharesDepth ss.chars (fun i => m.strings .original (lo + i)) n depth)
    (s : Memory S × ProcessTree SortProcess)
    (hs : (parallelSampleSort cls ss cl threadnum (cls.pointer false lo n) depth m).Reachable s) :
    s.2.Everywhere (SortProcess.InBuffer cls ss) := by
  obtain ⟨T, g, rfl, rfl, rfl, hP⟩ :=
    exists_task_of_sharesDepth hset.sortable cls hread hn hdepth
  have hroot : (sortLogic T hcl.usable n threadnum).holds g
      ((T.context cl n threadnum).enqueue (0, 0) (T.cls.pointer false lo n, depth)) [] :=
    SortContext.enqueue_holds _ _ ⟨_, hP, rfl⟩
  -- the property is kept by the actions at every node, on top of the invariant of the sort
  refine (sortLogic T hcl.usable n threadnum).everywhere hroot
    (SortProcess.inBuffer_enqueue _ _ _ _ _) ?_ ?_ hs
  · intro g l ls a m' l' new hholds hI hact
    exact hI.acts hholds hact
  · rintro m l c m' l' hI - ⟨-, hnotify⟩
    exact hI.notify hnotify

/-- The suffixes of a text of forty equal characters, sorted with LCPs by sixteen threads. -/
theorem smallsort_buffer_suffixes :
    let ss := StringSuffixSet (fun _ => 97) ⟨5, 40⟩
    let m : Memory (SuffixIndex 40) := ⟨fun _ i => Fin.ofNat 41 i, fun _ => 7, fun _ => 0⟩
    let cl := ClassifierClass.treeUnrollInterleave 4
    ∀ s, (parallelSampleSort .StringShadowLcpPtr ss cl 16
      (StringPtrClass.StringShadowLcpPtr.pointer false 0 40) 0 m).Reachable s →
        s.2.Everywhere (SortProcess.InBuffer .StringShadowLcpPtr ss) :=
  smallsort_buffer (.stringSuffixSet _ _ fun _ _ => ⟨by decide, by decide⟩) .StringShadowLcpPtr
    (fun h => absurd h Bool.false_ne_true) (Or.inl rfl) 16 (by norm_num) _
    fun _ _ _ _ => SharePrefix.zero _ _

end Main

end StringSampleSort
