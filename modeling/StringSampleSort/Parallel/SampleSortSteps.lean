import StringSampleSort.Parallel.SampleSortInvariant

/-!
# The actions of a large sort

Every action of the jobs of a `SampleSortStep` keeps its condition and leaves less to do, from the
sample up to `substep_all_done`; so does the notification that a substep has finished.

## Main results

- `dealBucket_spec`, `DealInv.deal_ok`: what `distribute_finished` does with a bucket
- `SampleSortJobs.step_ok`: the actions of a step
- `SampleSortJobs.join_ok`: a substep has finished
- `SampleSortJobs.Holds.agree`, `SampleSortJobs.Holds.subEffect`: what other jobs do
-/

namespace StringSampleSort

open Library Slice SortTask

variable {S : Type} {T : SortTask S} {cl : ClassifierClass} {P : Piece} {st : SampleSortStep S}
  {splitters : List KeyType} {bucketOf : KeyType → ℕ} {g g' : Ghost S} {s : SampleSortJobs}
  {subs : List WorkShare}

/-! ## Buckets -/

section Deal

variable {w : Window} {live freed : List StepLevel} {created working i : ℕ} {l₀ : StepLevel}
  {g₀ : Ghost S} {f : FreeState S} {b : SampleBuckets}

/-- A bucket is finished, or handed over. -/
theorem dealBucket_spec (hok : b.Ok T cl)
    (hlast : (b.classifier.lcp (numsplitters defaultTreebits) &&& 0x7F).toNat = 0)
    (h : Freeing T w live freed subs created working l₀ g₀ (b.toLevel true 0 i) g f)
    (hi : i < sampleBktnum) :
    ∃ f' g', dealBucket T.cls cl b i f = some f' ∧
      Freeing T w live freed subs created working l₀ g₀ (b.toLevel true 0 (i + 1)) g' f' := by
  have hptr := hok.bucketPtr_eq i
  rw [dealBucket]
  by_cases hzero : b.bktsize i = 0
  · rw [if_pos hzero]
    exact ⟨f, g, rfl, h.skip hi hzero⟩
  have hpos : 0 < b.bktsize i := Nat.pos_of_ne_zero hzero
  have hP : T.PieceOk g (b.piece i) := h.plan.pieceFreed (l := b.toLevel true 0 i) hi hpos
  rw [if_neg hzero]
  by_cases hone : b.bktsize i = 1
  · rw [if_pos hone]
    obtain ⟨g', hmem, he, hc⟩ := copyBack_finishes hP hone
    rw [h.mem, ← hptr] at hmem
    rw [← hmem]
    exact ⟨_, g', rfl, h.finish hi hpos (if_pos (by simp [SampleBuckets.toLevel, hone])) he hc⟩
  rw [if_neg hone]
  have henqueue : b.classifier.done i = false →
      Freeing T w live freed subs created working l₀ g₀ (b.toLevel true 0 (i + 1)) g
        (f.enqueue 0 i (b.bucketPtr i) (b.classifier.bucketDepth b.depth i)) := by
    intro hdone
    have hdepth : (b.piece i).depth = b.classifier.bucketDepth b.depth i :=
      if_neg (by simp [hdone])
    rw [hptr, ← hdepth]
    exact h.enqueue hi hpos (hok.call_eq hdone (fun hc => hone hc.2))
  have hbucket : b.classifier.bucketDepth b.depth i = if i % 2 = 0 then
      b.depth + (b.classifier.lcp (i / 2) &&& 0x7F).toNat else b.depth + 8 := rfl
  split
  · split
    · next heven =>
      rw [if_pos heven] at hbucket
      rw [← hbucket]
      exact ⟨_, g, rfl, henqueue (decide_eq_false fun hodd => by omega)⟩
    · next hodd =>
      rw [if_neg hodd] at hbucket
      split
      · next hset =>
        have hdone : b.classifier.done i = true := decide_eq_true ⟨by omega, hset⟩
        -- the bucket of a splitter that ends with its key
        obtain ⟨g', heq, he, hc⟩ := hok.fillDone_spec (fun _ => rfl) hi hP hdone
        rw [h.mem] at heq
        rw [heq]
        exact ⟨_, g', rfl, h.finish hi hpos
          (if_pos (by simp [SampleBuckets.toLevel, hdone])) he hc⟩
      · next hset =>
        rw [← hbucket]
        exact ⟨_, g, rfl, henqueue (decide_eq_false fun hc => hset hc.2)⟩
  · next hlt =>
    -- the last bucket has no splitter above it, and `splitter_lcp` a sentinel
    have hi' : i = 2 * numsplitters defaultTreebits := by
      rw [sampleBktnum] at hi hlt
      omega
    have hhalf : i / 2 = numsplitters defaultTreebits := by omega
    have heven : i % 2 = 0 := by omega
    rw [if_pos heven, hhalf, hlast, Nat.add_zero] at hbucket
    rw [← hbucket]
    exact ⟨_, g, rfl, henqueue (decide_eq_false fun hodd => by omega)⟩

/-- A round of the loops of `distribute_finished`, or their end. -/
theorem DealInv.deal_ok (h : DealInv T cl i subs g s) (hstage : s.stage = .deal i)
    (hworking : s.working = subs.length + 1) :
    ∃ o g', s.deal T.cls cl i g.mem = some o ∧
      SortOutcome.Ok T (SampleSortJobs.Holds T cl) SampleSortJobs.share (SampleSortJobs.rank T) g s
        subs g' o := by
  rw [SampleSortJobs.deal]
  split
  · next hi =>
    have hstart := Freeing.start s.working h.plan
    obtain ⟨f, g', heq, hfree⟩ := dealBucket_spec h.ok h.last hstart hi
    rw [heq]
    have hworking' := hfree.working_eq
    refine ⟨_, g', rfl, hfree.mem, hfree.touches, rfl,
      DealInv.holds (i := i + 1) ⟨h.ok, h.last, hi, hfree.plan⟩ rfl ?_, hfree.calls, by simp, ?_⟩
    · rw [List.length_append, List.length_map]
      show f.working = subs.length + f.enqueued.length + 1
      omega
    · -- each enqueued bucket adds one to the counter and takes its rank along
      have hrank : rankScale * (s.level (i + 1)).rank T + T.enqueuedRank f.enqueued + (i + 1) ≤
          rankScale * (s.level i).rank T + i := hfree.rank
      rw [enqueuedRank_eq] at hrank
      rw [SampleSortJobs.rank_deal hstage]
      dsimp only
      rw [SampleSortJobs.rank_deal rfl]
      show rankScale * (s.level (i + 1)).rank T + f.working + 4 + _ < _
      omega
  · next hi =>
    have hi' : i = sampleBktnum := Nat.le_antisymm h.le (not_lt.mp hi)
    subst hi'
    refine ⟨_, g, rfl, rfl, Touches.refl _ _ _, rfl, ?_, by simp [SampleSortJobs.outcome],
      by simp [SampleSortJobs.outcome], ?_⟩
    · show DealInv T cl sampleBktnum (subs ++ []) g _ ∧ s.working = (subs ++ []).length + 1
      rw [List.append_nil]
      exact ⟨⟨h.ok, h.last, h.le, h.plan⟩, hworking⟩
    · rw [SampleSortJobs.rank_deal hstage]
      show s.working + 3 + 0 < _
      omega

end Deal

/-! ## The end of a step -/

/-- How many buckets have been dealt with, and the counter of substeps, where the step stands. -/
def StepStage.At (i subs working : ℕ) : StepStage → Prop
  | .deal k => k = i ∧ working = subs + 1
  | .release => i = sampleBktnum ∧ working = subs + 1
  | .waiting => i = sampleBktnum ∧ working = subs ∧ subs ≠ 0
  | _ => False

namespace StepStage.At

variable {i n working : ℕ} {stage : StepStage}

/-- All substeps are counted. -/
theorem working_ge (h : stage.At i n working) : n ≤ working := by
  cases stage with
  | deal k => exact h.2 ▸ Nat.le_succ n
  | release => exact h.2 ▸ Nat.le_succ n
  | waiting => exact h.2.1.ge
  | _ => exact h.elim

/-- A substep of a step has finished, and others have not, or buckets are still dealt with. -/
theorem pred (h : stage.At i (n + 1) working) (hzero : working - 1 ≠ 0) :
    stage.At i n (working - 1) := by
  cases stage with
  | deal k => exact ⟨h.1, Nat.sub_eq_of_eq_add h.2⟩
  | release => exact ⟨h.1, Nat.sub_eq_of_eq_add h.2⟩
  | waiting =>
    obtain ⟨hi, hworking, -⟩ := h
    exact ⟨hi, Nat.sub_eq_of_eq_add hworking, by omega⟩
  | _ => exact h.elim

/-- The last substep of a step that waits has finished. -/
theorem last (h : stage.At i (n + 1) working) (hzero : working - 1 = 0) :
    stage = .waiting ∧ i = sampleBktnum ∧ n = 0 := by
  have hle : working ≤ 1 := Nat.sub_eq_zero_iff_le.mp hzero
  cases stage with
  | deal k => exact absurd (h.2 ▸ hle) (by omega)
  | release => exact absurd (h.2 ▸ hle) (by omega)
  | waiting => exact ⟨rfl, h.1, by have hworking := h.2.1; omega⟩
  | _ => exact h.elim

end StepStage.At

section Finish

variable {i : ℕ}

theorem SampleSortJobs.holds_of_at (h : DealInv T cl i subs g s)
    (hat : s.stage.At i subs.length s.working) : s.Holds T cl g subs := by
  rw [SampleSortJobs.Holds]
  cases hstage : s.stage with
  | deal k =>
    rw [hstage] at hat
    obtain ⟨rfl, hworking⟩ := hat
    exact ⟨h, hworking⟩
  | release =>
    rw [hstage] at hat
    obtain ⟨rfl, hworking⟩ := hat
    exact ⟨h, hworking⟩
  | waiting =>
    rw [hstage] at hat
    obtain ⟨rfl, hworking, hne⟩ := hat
    exact ⟨h, hworking, fun hnil => hne (by rw [hnil]; rfl)⟩
  | _ =>
    rw [hstage] at hat
    exact hat.elim

/-- A step with substeps deals with its buckets, or waits. -/
theorem SampleSortJobs.Holds.dealInv (h : s.Holds T cl g subs) (hne : subs ≠ []) :
    ∃ i, DealInv T cl i subs g s ∧ s.stage.At i subs.length s.working := by
  rw [SampleSortJobs.Holds] at h
  cases hstage : s.stage with
  | deal k =>
    rw [hstage] at h
    exact ⟨k, h.1, rfl, h.2⟩
  | release =>
    rw [hstage] at h
    exact ⟨_, h.1, rfl, h.2⟩
  | waiting =>
    rw [hstage] at h
    exact ⟨_, h.1, rfl, h.2.1, fun hnil => hne (List.eq_nil_of_length_eq_zero hnil)⟩
  | allDone =>
    rw [hstage] at h
    exact absurd h.2 hne
  | _ =>
    rw [hstage] at h
    exact absurd h.1 hne

theorem DealInv.allDone (h : DealInv T cl sampleBktnum [] g s) (hstage : s.stage = .allDone) :
    s.Holds T cl g [] := by
  rw [SampleSortJobs.Holds, hstage]
  exact ⟨h, rfl⟩

namespace SampleSortJobs

theorem notifyDone_last (hzero : s.working - 1 = 0) :
    s.notifyDone = { s with working := s.working - 1, stage := .allDone } := by
  rw [notifyDone, if_pos hzero]

theorem notifyDone_more (hzero : s.working - 1 ≠ 0) :
    s.notifyDone = { s with working := s.working - 1 } := by
  rw [notifyDone, if_neg hzero]

end SampleSortJobs

/-- The handle of the step is released. -/
theorem DealInv.release_ok (h : DealInv T cl sampleBktnum subs g s) (hstage : s.stage = .release)
    (hworking : s.working = subs.length + 1) :
    SortOutcome.Ok T (SampleSortJobs.Holds T cl) SampleSortJobs.share (SampleSortJobs.rank T) g s
      subs g ({ s with stage := .waiting }.notifyDone.outcome g.mem) := by
  have hrank : s.rank T = s.working + 3 := by rw [SampleSortJobs.rank, hstage]
  cases subs with
  | nil =>
    -- the handle was the last one: nothing has been enqueued
    have hzero : s.working - 1 = 0 := by simp [hworking]
    rw [SampleSortJobs.notifyDone_last (s := { s with stage := .waiting }) hzero]
    refine ⟨rfl, Touches.refl _ _ _, rfl, DealInv.allDone ⟨h.ok, h.last, h.le, h.plan⟩ rfl,
      by simp [SampleSortJobs.outcome], by simp [SampleSortJobs.outcome], ?_⟩
    rw [hrank]
    show 1 + 0 < _
    omega
  | cons c subs =>
    -- the step waits for its substeps
    have hmore : s.working - 1 ≠ 0 := by simp [hworking]
    rw [SampleSortJobs.notifyDone_more (s := { s with stage := .waiting }) hmore]
    refine ⟨rfl, Touches.refl _ _ _, rfl, ?_, by simp [SampleSortJobs.outcome],
      by simp [SampleSortJobs.outcome], ?_⟩
    · show SampleSortJobs.Holds T cl g _ (c :: subs ++ [])
      rw [List.append_nil]
      exact SampleSortJobs.holds_of_at (i := sampleBktnum) ⟨h.ok, h.last, h.le, h.plan⟩
        ⟨rfl, Nat.sub_eq_of_eq_add hworking, by simp⟩
    · rw [hrank]
      show s.working - 1 + 2 + 0 < _
      omega

/-- `substep_all_done()`. -/
theorem DealInv.allDone_ok (h : DealInv T cl sampleBktnum [] g s) (hstage : s.stage = .allDone) :
    ∃ m, s.buckets.calculateLcp T.cls T.ss cl g.mem = some m ∧
      SortOutcome.Ok T (SampleSortJobs.Holds T cl) SampleSortJobs.share (SampleSortJobs.rank T) g s
        [] ⟨m, g.value⟩
        ({ s with history := .calculate 0 :: s.history, stage := .finished }.outcome m) := by
  have hrank : s.rank T = 1 := by rw [SampleSortJobs.rank, hstage]
  -- all buckets are sorted, so the entries between them are the last ones missing
  obtain ⟨m, heq, hcalc⟩ := h.ok.calculateLcp_spec true 0 sampleBktnum
    fun p hp => h.plan.plan.finishedFreed (l := s.level sampleBktnum) le_rfl hp
  have hplan := h.plan.closeFreed (l := s.level sampleBktnum) le_rfl hcalc
  refine ⟨m, heq, rfl, ⟨hcalc.effect, by simp⟩, rfl,
    ⟨rfl, hplan.done.1, hplan.accounts.ledger.valid, hplan.done.2⟩,
    by simp [SampleSortJobs.outcome], by simp [SampleSortJobs.outcome], ?_⟩
  rw [hrank]
  exact Nat.one_pos

end Finish

/-! ## All actions -/

section Actions

/-- Where the jobs of a step have something to do themselves. -/
def SampleSortJobs.Enabled (s : SampleSortJobs) (p : ℕ) : Prop :=
  match s.stage with
  | .count todo | .distribute todo => p ∈ todo
  | .waiting | .finished => False
  | _ => True

/-- While the jobs of a step have something to do themselves, they do not fail. -/
theorem SampleSortJobs.step_ok (hcl : cl.Usable) (h : s.Holds T cl g subs) {p : ℕ}
    (henabled : s.Enabled p) (inp : JobInput) :
    ∃ o g', SampleSortJobs.step T.cls T.ss cl inp p g.mem s = some o ∧
      SortOutcome.Ok T (SampleSortJobs.Holds T cl) SampleSortJobs.share (SampleSortJobs.rank T) g s
        subs g' o := by
  have h₀ := h
  rw [SampleSortJobs.step]
  rw [SampleSortJobs.Holds] at h
  rw [SampleSortJobs.Enabled] at henabled
  cases hstage : s.stage with
  | sample => exact ⟨_, g, rfl, sample_ok hcl hstage h₀ inp.rng⟩
  | count todo =>
    rw [hstage] at h henabled
    obtain ⟨rfl, hworking, P, st, splitters, bucketOf, hinv⟩ := h
    dsimp only
    -- the job of part `p` has not run
    rw [if_pos (List.contains_iff_mem.mpr henabled)]
    obtain ⟨s', heq, hok⟩ := hinv.count_ok hstage hworking henabled
    rw [heq]
    exact ⟨_, g, rfl, hok⟩
  | distribute todo =>
    rw [hstage] at h henabled
    obtain ⟨rfl, hworking, P, st, splitters, bucketOf, d, hinv⟩ := h
    dsimp only
    rw [if_pos (List.contains_iff_mem.mpr henabled)]
    exact hinv.distribute_ok hstage hworking henabled
  | deal i =>
    rw [hstage] at h
    exact h.1.deal_ok hstage h.2
  | release =>
    rw [hstage] at h
    dsimp only
    rw [if_pos (by omega)]
    exact ⟨_, g, rfl, h.1.release_ok hstage h.2⟩
  | allDone =>
    rw [hstage] at h
    obtain ⟨hinv, rfl⟩ := h
    obtain ⟨m, heq, hok⟩ := hinv.allDone_ok hstage
    dsimp only
    rw [heq]
    exact ⟨_, _, rfl, hok⟩
  | waiting =>
    rw [hstage] at henabled
    exact henabled.elim
  | finished =>
    rw [hstage] at henabled
    exact henabled.elim

/-- Before all substeps are awaited or the step is finished, some part has an action. -/
theorem SampleSortJobs.Holds.exists_enabled (h : s.Holds T cl g subs)
    (hwaiting : s.stage ≠ .waiting) (hfinished : s.stage ≠ .finished) : ∃ p, s.Enabled p := by
  rw [SampleSortJobs.Holds] at h
  cases hstage : s.stage with
  | count todo =>
    rw [hstage] at h
    obtain ⟨-, -, P, st, splitters, bucketOf, hinv⟩ := h
    obtain ⟨p, hp⟩ := hinv.parts.exists_mem
    exact ⟨p, by rwa [SampleSortJobs.Enabled, hstage]⟩
  | distribute todo =>
    rw [hstage] at h
    obtain ⟨-, -, P, st, splitters, bucketOf, d, hinv⟩ := h
    obtain ⟨p, hp⟩ := hinv.parts.exists_mem
    exact ⟨p, by rwa [SampleSortJobs.Enabled, hstage]⟩
  | waiting => exact absurd hstage hwaiting
  | finished => exact absurd hstage hfinished
  | _ => exact ⟨0, by rw [SampleSortJobs.Enabled, hstage]; trivial⟩

end Actions

/-! ## What other jobs do -/

section Others

variable {pre post : List WorkShare} {c : WorkShare} {d : DistributeState S} {todo : List ℕ}

theorem Classified.agree (h : Classified T cl P st splitters bucketOf g s)
    (ha : Agree s.window g g') : Classified T cl P st splitters bucketOf g' s := by
  rw [h.window_eq] at ha
  -- both the strings of the piece and those of `active` lie in the window
  refine { h with piece := h.piece.agree ha, active := fun i hi => ?_ }
  rw [h.active i hi]
  exact (ha.strings _ _ ⟨Nat.le_add_right .., Nat.add_lt_add_left (h.size ▸ hi) _⟩).symm

theorem CountInv.agree (h : CountInv T cl P st splitters bucketOf todo g s)
    (ha : Agree s.window g g') : CountInv T cl P st splitters bucketOf todo g' s :=
  { h with classified := h.classified.agree ha }

theorem DistributeInv.agree (h : DistributeInv T cl P st splitters bucketOf d todo g s)
    (ha : Agree s.window g g') : DistributeInv T cl P st splitters bucketOf d todo g' s := by
  refine { h with classified := h.classified.agree ha, shadow := fun i hi => ?_ }
  rw [h.classified.window_eq] at ha
  rw [← h.shadow i hi]
  -- the places that have been written lie in the window too
  exact ha.strings _ _ ⟨Nat.le_add_right .., Nat.add_lt_add_left (h.classified.size ▸ hi) _⟩

theorem DealInv.agree {i : ℕ} (h : DealInv T cl i subs g s) (ha : Agree s.window g g') :
    DealInv T cl i subs g' s :=
  ⟨h.ok, h.last, h.le, h.plan.agree ha⟩

namespace SampleSortJobs

/-- What happens elsewhere does not touch a step. -/
theorem Holds.agree (h : s.Holds T cl g subs) (ha : Agree s.window g g') :
    s.Holds T cl g' subs := by
  rw [SampleSortJobs.Holds] at h ⊢
  cases hstage : s.stage with
  | sample =>
    rw [hstage] at h
    exact ⟨h.1, h.2.1, h.2.2.agree ha⟩
  | count todo =>
    rw [hstage] at h
    obtain ⟨hsubs, hworking, P, st, splitters, bucketOf, hinv⟩ := h
    exact ⟨hsubs, hworking, P, st, splitters, bucketOf, hinv.agree ha⟩
  | distribute todo =>
    rw [hstage] at h
    obtain ⟨hsubs, hworking, P, st, splitters, bucketOf, d, hinv⟩ := h
    exact ⟨hsubs, hworking, P, st, splitters, bucketOf, d, hinv.agree ha⟩
  | finished =>
    rw [hstage] at h
    exact ⟨h.1, h.2.1.agree ha, h.2.2⟩
  | _ =>
    rw [hstage] at h
    exact ⟨h.1.agree ha, h.2⟩

/-- The windows of the substeps lie within that of the step, apart from each other. -/
theorem Holds.share_inside (h : s.Holds T cl g subs) (hc : c ∈ subs) :
    c.window.Inside s.window := by
  obtain ⟨i, hinv, -⟩ := h.dealInv (List.ne_nil_of_mem hc)
  exact hinv.plan.plan.share_inside hc

theorem Holds.share_apart (h : s.Holds T cl g (pre ++ c :: post)) :
    ∀ d ∈ pre ++ post, c.window.Apart d.window := by
  obtain ⟨i, hinv, -⟩ := h.dealInv (by simp)
  exact hinv.plan.plan.share_apart.2

/-- A substep goes on. -/
theorem Holds.subEffect (h : s.Holds T cl g (pre ++ c :: post)) (he : Effect c.window g g') :
    s.Holds T cl g' (pre ++ c :: post) := by
  obtain ⟨i, hinv, hat⟩ := h.dealInv (by simp)
  exact holds_of_at ⟨hinv.ok, hinv.last, hinv.le, hinv.plan.subEffect he⟩ hat

/-- A step that counts down has less to do. -/
theorem rank_pred {i n : ℕ} (hat : s.stage.At i n s.working) (hzero : s.working - 1 ≠ 0)
    (history : List (Event RangeCall)) :
    SampleSortJobs.rank T { s with history, working := s.working - 1 } < s.rank T := by
  rw [rank, rank]
  dsimp only
  cases hstage : s.stage with
  | deal k =>
    show rankScale * (s.level k).rank T + (s.working - 1) + 4 <
      rankScale * (s.level k).rank T + s.working + 4
    omega
  | release =>
    dsimp only
    omega
  | waiting =>
    dsimp only
    omega
  | _ =>
    rw [hstage] at hat
    exact hat.elim

/-- A substep has finished. -/
theorem join_ok (h : s.Holds T cl g (pre ++ c :: post))
    (hc : T.Covers g c.window [] fun _ => False) :
    (s.joined c.part).Holds T cl g (pre ++ post) ∧ (s.joined c.part).share = s.share ∧
      (s.joined c.part).rank T < s.rank T := by
  obtain ⟨i, hinv, hat⟩ := h.dealInv (by simp)
  have hlength : (pre ++ c :: post).length = (pre ++ post).length + 1 := by
    rw [List.length_append, List.length_append, List.length_cons, Nat.add_assoc]
  rw [hlength] at hat
  have hplan := hinv.plan.join hc
  by_cases hzero : s.working - 1 = 0
  · -- the step has waited for this substep only
    obtain ⟨hstage, rfl, hnone⟩ := hat.last hzero
    rw [joined, notifyDone_last (s := { s with history := .notify c.part.1 c.part.2 :: s.history })
      hzero]
    rw [List.eq_nil_of_length_eq_zero hnone] at hplan ⊢
    refine ⟨DealInv.allDone ⟨hinv.ok, hinv.last, hinv.le, hplan⟩ rfl, rfl, ?_⟩
    rw [rank, rank, hstage]
    dsimp only
    omega
  · rw [joined, notifyDone_more (s := { s with history := .notify c.part.1 c.part.2 :: s.history })
      hzero]
    have hat' := hat.pred hzero
    refine ⟨holds_of_at (i := i) ⟨hinv.ok, hinv.last, hinv.le, hplan⟩ hat', rfl, ?_⟩
    exact rank_pred hat hzero _

end SampleSortJobs

end Others

end StringSampleSort
