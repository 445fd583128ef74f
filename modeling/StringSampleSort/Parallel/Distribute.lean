import StringSampleSort.Library.Distribute
import StringSampleSort.Library.Transition

/-!
# Counting and distributing in parallel

Model of the constructor of `SampleSortStep` of `src/parallel/bingmann-parallel_sample_sort.hpp`,
which cuts the strings into parts, and of `count`, `count_finished` and `distribute`, which move
the strings of all parts into their buckets.

Each part has a counter array and a bucket cache of its own; all write to the shadow array.  A
step of the system is one round of the loop of one `DistributeJob`.

## Main results

- `SampleSortStep.partsCover`: the parts make up the strings
- `SampleSortStep.reachable_invariant`: what the jobs have done after any number of rounds
- `parallelDistribute`: the jobs together do one permutation, whatever the order of their rounds
-/

namespace StringSampleSort

open Library Slice

/-! ## Model -/

/-- `MAXPROCS`: "+1 due to round up of processor number". -/
def maxProcs : ℕ := 2 * 64 + 1

/-- A `SampleSortStep` whose classifier has been built: `strptr.size()` strings of the active
array, and the bucket that `classify` finds for the string at each place. -/
structure SampleSortStep (α : Type) where
  size : ℕ
  sequentialThreshold : ℕ
  bktnum : ℕ
  active : ℕ → α
  bucketId : ℕ → ℕ
  size_pos : 1 ≤ size
  threshold_pos : 1 ≤ sequentialThreshold
  bucketId_lt : ∀ i < size, bucketId i < bktnum

/-- What the jobs of a step share: the counters of the parts, how many strings each of them has
moved, the shadow array, and the places written so far, latest first. -/
@[ext] structure DistributeState (α : Type) where
  bkt : ℕ → ℕ → ℕ
  moved : ℕ → ℕ
  shadow : ℕ → α
  written : List ℕ

namespace SampleSortStep

variable {α : Type} (st : SampleSortStep α)

/-- The number of parts, as the constructor computes it. -/
def parts : ℕ :=
  let parts := st.size / st.sequentialThreshold * 2
  let parts := if parts = 0 then 1 else parts
  if parts > maxProcs then maxProcs else parts

/-- The size of all parts except the last. -/
def psize : ℕ := (st.size + st.parts - 1) / st.parts

/-- `strB` of part `p`. -/
def strB (p : ℕ) : ℕ := p * st.psize

/-- `strE` of part `p`, which is not before `strB`. -/
def strE (p : ℕ) : ℕ :=
  let strE := min ((p + 1) * st.psize) st.size
  if strE < st.strB p then st.strB p else strE

/-- `bktcache[p]`, as `classify` fills it. -/
def bktcache (p j : ℕ) : ℕ := st.bucketId (st.strB p + j)

/-- `bkt[p]` after `count(p)`. -/
def count (p : ℕ) : ℕ → ℕ :=
  (List.range (st.strE p - st.strB p)).foldl
    (fun mybkt j => Function.update mybkt (st.bktcache p j) (mybkt (st.bktcache p j) + 1)) fun _ => 0

/-- `sum` and `bkt` after the loops of `count_finished`. -/
def countFinished : ℕ × (ℕ → ℕ → ℕ) := prefixSums st.bktnum st.parts st.count

/-- The next round of `distribute(p)`: `*(sbegin + --mybkt[*mybktcache]) = std::move(*str);` -/
def distributeRound (p : ℕ) (s : DistributeState α) : Option (DistributeState α) :=
  if p < st.parts ∧ s.moved p < st.strE p - st.strB p then
    let b := st.bktcache p (s.moved p)
    let place := s.bkt p b - 1
    some {
      bkt := Function.update s.bkt p (Function.update (s.bkt p) b place)
      moved := Function.update s.moved p (s.moved p + 1)
      shadow := Function.update s.shadow place (st.active (st.strB p + s.moved p))
      written := place :: s.written }
  else none

/-- The state after `count_finished`; the shadow array holds anything. -/
def distributeStart (shadow : ℕ → α) : DistributeState α where
  bkt := st.countFinished.2
  moved _ := 0
  shadow := shadow
  written := []

/-- All orders of rounds of the `DistributeJob`s of a step. -/
def distributeJobs (shadow : ℕ → α) : Transition (DistributeState α) ℕ where
  init s := s = st.distributeStart shadow
  step s p s' := st.distributeRound p s = some s'

/-- All parts have been distributed. -/
def Finished (s : DistributeState α) : Prop :=
  ∀ p < st.parts, s.moved p = st.strE p - st.strB p

instance (s : DistributeState α) : Decidable (st.Finished s) :=
  inferInstanceAs (Decidable (∀ p < st.parts, _))

/-- The array `bkt` of `distribute_finished`: that of part 0 with `bkt[bktnum] = strptr.size()`. -/
def boundaries (s : DistributeState α) : ℕ → ℕ :=
  Function.update (s.bkt 0) st.bktnum st.size

/-! ## The parts -/

theorem parts_bounds : 1 ≤ st.parts ∧ st.parts ≤ maxProcs := by
  dsimp only [parts, maxProcs]
  generalize st.size / st.sequentialThreshold * 2 = parts
  split_ifs <;> omega

/-- Rounding `psize` up leaves no string out. -/
theorem size_le : st.size ≤ st.parts * st.psize := by
  have hpos := st.parts_bounds.1
  have hdiv := Nat.div_add_mod (st.size + st.parts - 1) st.parts
  have hmod := Nat.mod_lt (st.size + st.parts - 1) hpos
  rw [psize]
  omega

/-- The size of part `p`. -/
def partSize (p : ℕ) : ℕ := st.strE p - st.strB p

theorem partSize_eq (p : ℕ) : st.partSize p = min ((p + 1) * st.psize) st.size - p * st.psize := by
  dsimp only [partSize, strE]
  split
  · next hlt =>
    rw [strB] at hlt ⊢
    omega
  · rfl

theorem partsCover : PartsCover st.strB st.partSize st.parts st.size := by
  rw [show st.partSize = _ from funext st.partSize_eq]
  exact partsCover_of_le st.size_le

/-- A string of a part is one of the strings. -/
theorem place_lt {p j : ℕ} (hp : p < st.parts) (hj : j < st.partSize p) :
    st.strB p + j < st.size := by
  refine List.mem_range.mp ?_
  rw [← st.partsCover]
  exact List.mem_map.mpr ⟨(p, j), mem_moves.mpr ⟨hp, hj⟩, rfl⟩

/-! ## The counters -/

/-- How many strings of part `p` belong into bucket `b`. -/
def bucketCount : ℕ → ℕ → ℕ := partCount st.bucketId st.strB st.partSize

theorem count_eq (p : ℕ) : st.count p = st.bucketCount p := by
  have hrounds : ∀ k, (List.range k).foldl (fun mybkt j =>
      Function.update mybkt (st.bktcache p j) (mybkt (st.bktcache p j) + 1)) (fun _ => 0) =
        fun b => (slice st.bucketId (st.strB p) k).count b := by
    intro k
    -- the loop of `count(p)`, one string at a time
    induction k with
    | zero => rfl
    | succ k ih =>
      rw [List.range_succ, List.foldl_append, ih, List.foldl_cons, List.foldl_nil]
      funext b
      rw [count_slice_succ]
      change Function.update _ (st.bktcache p k) _ b = _ + if st.bktcache p k = b then 1 else 0
      by_cases hb : b = st.bktcache p k
      · rw [hb, Function.update_self, if_pos rfl]
      · rw [Function.update_of_ne hb, if_neg (Ne.symm hb), Nat.add_zero]
  exact hrounds _

/-- The assertion `sum == strptr.size()`, and where the counters stand before the first move. -/
theorem countFinished_eq : st.countFinished.1 = st.size ∧ ∀ p < st.parts, ∀ b < st.bktnum,
    st.countFinished.2 p b = regionStart st.bucketCount st.parts p b + st.bucketCount p b := by
  have hcount : st.count = st.bucketCount := funext st.count_eq
  rw [countFinished, hcount, prefixSums_eq]
  refine ⟨st.partsCover.total_eq st.bucketId_lt, fun p hp b hb => ?_⟩
  exact if_pos ⟨hb, hp⟩

/-! ## The rounds -/

/-- Where string `j` of part `p` goes. -/
def place (p j : ℕ) : ℕ := dest st.bucketId st.strB st.partSize st.parts p j

/-- What the jobs have done: each part has moved its first strings to their places, and its
counters stand at the last places it has written. -/
structure Invariant (shadow : ℕ → α) (s : DistributeState α) : Prop where
  moved_le : ∀ p < st.parts, s.moved p ≤ st.partSize p
  bkt_eq : ∀ p < st.parts, ∀ b < st.bktnum, s.bkt p b = regionStart st.bucketCount st.parts p b +
    (st.bucketCount p b - (slice st.bucketId (st.strB p) (s.moved p)).count b)
  nodup : s.written.Nodup
  mem_written : ∀ x, x ∈ s.written ↔ ∃ p < st.parts, ∃ j < s.moved p, st.place p j = x
  filled : ∀ p < st.parts, ∀ j < s.moved p, s.shadow (st.place p j) = st.active (st.strB p + j)
  rest : ∀ x, x ∉ s.written → s.shadow x = shadow x

variable {st} {shadow : ℕ → α} {s s' : DistributeState α}

theorem distributeStart_invariant : st.Invariant shadow (st.distributeStart shadow) where
  moved_le _ _ := Nat.zero_le _
  bkt_eq p hp b hb := st.countFinished_eq.2 p hp b hb
  nodup := List.nodup_nil
  mem_written x := by simp [distributeStart]
  filled _ _ j hj := absurd hj (Nat.not_lt_zero j)
  rest _ _ := rfl

/-- A string that is still to be moved has not been counted. -/
theorem count_lt {p j : ℕ} (hj : j < st.partSize p) :
    (slice st.bucketId (st.strB p) j).count (st.bktcache p j) <
      st.bucketCount p (st.bktcache p j) :=
  count_slice_lt st.bucketId (st.strB p) hj

/-- The counter stands one behind the place of the next string. -/
theorem Invariant.counter (h : st.Invariant shadow s) {p : ℕ} (hp : p < st.parts)
    (hj : s.moved p < st.partSize p) :
    s.bkt p (st.bktcache p (s.moved p)) = st.place p (s.moved p) + 1 := by
  have hb : st.bktcache p (s.moved p) < st.bktnum := st.bucketId_lt _ (st.place_lt hp hj)
  have hplace : st.place p (s.moved p) =
      regionStart st.bucketCount st.parts p (st.bktcache p (s.moved p)) +
        (st.bucketCount p (st.bktcache p (s.moved p)) -
          ((slice st.bucketId (st.strB p) (s.moved p)).count (st.bktcache p (s.moved p)) + 1)) :=
    rfl
  have hlt := count_lt hj
  rw [h.bkt_eq p hp _ hb, hplace]
  omega

/-- One round of one job. -/
theorem Invariant.round (h : st.Invariant shadow s) {p : ℕ}
    (hs : st.distributeRound p s = some s') : st.Invariant shadow s' := by
  rw [distributeRound] at hs
  split at hs
  · next hguard =>
    obtain ⟨hp, hj⟩ := hguard
    change s.moved p < st.partSize p at hj
    dsimp only at hs
    rw [h.counter hp hj, Nat.add_sub_cancel, Option.some_inj] at hs
    subst hs
    have hle := h.moved_le
    -- only job `p` has moved a string, the next one of its part
    have hmoved : ∀ q < st.parts, ∀ j, j < Function.update s.moved p (s.moved p + 1) q ↔
        j < s.moved q ∨ (q = p ∧ j = s.moved p) := by
      intro q hq j
      by_cases hqp : q = p
      · subst hqp
        rw [Function.update_self]
        omega
      · rw [Function.update_of_ne hqp]
        exact ⟨Or.inl, fun hor => hor.resolve_right fun hc => hqp hc.1⟩
    -- no string that has been moved has this place
    have hnew : ∀ q < st.parts, ∀ j < s.moved q, st.place q j ≠ st.place p (s.moved p) := by
      intro q hq j hjq heq
      obtain ⟨rfl, rfl⟩ := dest_inj hq (hjq.trans_le (hle q hq)) hp hj heq
      exact lt_irrefl _ hjq
    refine ⟨fun q hq => ?_, fun q hq b hb => ?_, ?_, fun x => ?_, fun q hq j hjq => ?_,
      fun x hx => ?_⟩
    · dsimp only
      by_cases hqp : q = p
      · subst hqp
        rw [Function.update_self]
        exact hj
      · rw [Function.update_of_ne hqp]
        exact hle q hq
    · dsimp only
      by_cases hqp : q = p
      · subst hqp
        -- of the counters of the part only that of the bucket goes down
        rw [Function.update_self, Function.update_self, count_slice_succ]
        change _ = _ + (_ - (_ + if st.bktcache q (s.moved q) = b then 1 else 0))
        by_cases hbb : b = st.bktcache q (s.moved q)
        · have hcounter := h.counter hq hj
          rw [h.bkt_eq q hq _ (hbb ▸ hb)] at hcounter
          have hlt : (slice st.bucketId (st.strB q) (s.moved q)).count b < st.bucketCount q b := by
            rw [hbb]
            exact count_slice_lt st.bucketId (st.strB q) hj
          rw [hbb, Function.update_self, if_pos rfl]
          rw [hbb] at hlt
          omega
        · rw [Function.update_of_ne hbb, if_neg (Ne.symm hbb), Nat.add_zero]
          exact h.bkt_eq q hq b hb
      · rw [Function.update_of_ne hqp, Function.update_of_ne hqp]
        exact h.bkt_eq q hq b hb
    · refine List.nodup_cons.mpr ⟨fun hmem => ?_, h.nodup⟩
      -- a place written twice would be that of two strings
      obtain ⟨q, hq, j, hjq, heq⟩ := (h.mem_written _).mp hmem
      exact hnew q hq j hjq heq
    · rw [List.mem_cons, h.mem_written]
      constructor
      · rintro (rfl | ⟨q, hq, j, hjq, rfl⟩)
        · exact ⟨p, hp, s.moved p, (hmoved p hp _).mpr (Or.inr ⟨rfl, rfl⟩), rfl⟩
        · exact ⟨q, hq, j, (hmoved q hq j).mpr (Or.inl hjq), rfl⟩
      · rintro ⟨q, hq, j, hjq, rfl⟩
        rcases (hmoved q hq j).mp hjq with hold | ⟨rfl, rfl⟩
        · exact Or.inr ⟨q, hq, j, hold, rfl⟩
        · exact Or.inl rfl
    · dsimp only
      rcases (hmoved q hq j).mp hjq with hold | ⟨rfl, rfl⟩
      · rw [Function.update_of_ne (hnew q hq j hold)]
        exact h.filled q hq j hold
      · rw [Function.update_self]
    · rw [List.mem_cons, not_or] at hx
      dsimp only
      rw [Function.update_of_ne hx.1]
      exact h.rest x hx.2
  · exact absurd hs (by simp)

theorem reachable_invariant (h : (st.distributeJobs shadow).Reachable s) :
    st.Invariant shadow s := by
  refine h.invariant (fun s hs => ?_) fun s p s' _ hinv hs => hinv.round hs
  rw [hs]
  exact distributeStart_invariant

/-- While a part is not finished, it can go on. -/
theorem exists_round (h : st.Invariant shadow s) (hs : ¬ st.Finished s) :
    ∃ p s', (st.distributeJobs shadow).step s p s' := by
  rw [Finished] at hs
  simp only [not_forall] at hs
  obtain ⟨p, hp, hne⟩ := hs
  have hle := h.moved_le p hp
  exact ⟨p, _, if_pos ⟨hp, lt_of_le_of_ne hle hne⟩⟩

/-- All parts can be finished. -/
theorem exists_finished (st : SampleSortStep α) (shadow : ℕ → α) :
    ∃ s, (st.distributeJobs shadow).Reachable s ∧ st.Finished s := by
  -- by induction on the places that are not yet written
  have hrest : ∀ (k : ℕ) (s : DistributeState α), (st.distributeJobs shadow).Reachable s →
      st.size - s.written.length = k →
      ∃ s', (st.distributeJobs shadow).Reachable s' ∧ st.Finished s' := by
    intro k
    induction k using Nat.strong_induction_on with
    | _ k ih =>
      intro s hreach hk
      by_cases hs : st.Finished s
      · exact ⟨s, hreach, hs⟩
      · obtain ⟨p, s', hstep⟩ := exists_round (reachable_invariant hreach) hs
        have hreach' := hreach.step hstep
        have hinv := reachable_invariant hreach'
        -- a round writes one more of the places
        have hlen : s'.written.length = s.written.length + 1 := by
          change st.distributeRound p s = some s' at hstep
          rw [distributeRound] at hstep
          split at hstep
          · rw [← Option.some_inj.mp hstep]
            rfl
          · exact absurd hstep (by simp)
        have hle : s'.written.length ≤ st.size := by
          have hsub : s'.written ⊆ List.range st.size := fun x hx => by
            obtain ⟨q, hq, j, hj, rfl⟩ := (hinv.mem_written x).mp hx
            rw [← st.partsCover.total_eq st.bucketId_lt]
            have hend := dest_mem_bucket st.bucketId st.strB hq
              (hj.trans_le (hinv.moved_le q hq))
            have hid := st.bucketId_lt _ (st.place_lt hq (hj.trans_le (hinv.moved_le q hq)))
            exact List.mem_range.mpr (hend.2.trans_le (bucketEnd_le _ hid))
          have := (hinv.nodup.subperm hsub).length_le
          rwa [List.length_range] at this
        exact ih (st.size - s'.written.length) (by omega) s' hreach' rfl
  exact hrest _ _ (Transition.Reachable.start rfl) rfl

/-! ## After the last round -/

/-- What the step leaves behind: the places written are all places, and the shadow array holds
the strings, bucket by bucket. -/
structure Distributed (st : SampleSortStep α) (s : DistributeState α) : Prop where
  written : s.written.Perm (List.range st.size)
  strings : (contents s.shadow st.size).Perm (contents st.active st.size)
  first : st.boundaries s 0 = 0
  last : st.boundaries s st.bktnum = st.size
  mono : ∀ b < st.bktnum, st.boundaries s b ≤ st.boundaries s (b + 1)
  bucket : ∀ b < st.bktnum,
    (slice s.shadow (st.boundaries s b) (st.boundaries s (b + 1) - st.boundaries s b)).Perm
      (((List.range st.size).filter fun i => decide (st.bucketId i = b)).map st.active)

/-- The places of all strings are all places. -/
theorem place_perm (st : SampleSortStep α) :
    ((moves st.partSize st.parts).map fun m => st.place m.1 m.2).Perm (List.range st.size) :=
  dest_perm st.partsCover st.bucketId_lt

theorem mem_range_iff_place (st : SampleSortStep α) (x : ℕ) :
    x < st.size ↔ ∃ p < st.parts, ∃ j < st.partSize p, st.place p j = x := by
  rw [← List.mem_range, ← st.place_perm.mem_iff, List.mem_map]
  constructor
  · rintro ⟨m, hm, rfl⟩
    obtain ⟨hp, hj⟩ := mem_moves.mp hm
    exact ⟨m.1, hp, m.2, hj, rfl⟩
  · rintro ⟨p, hp, j, hj, rfl⟩
    exact ⟨(p, j), mem_moves.mpr ⟨hp, hj⟩, rfl⟩

/-- At the end every string is at its place. -/
theorem Invariant.shadow_place (h : st.Invariant shadow s) (hs : st.Finished s) {p j : ℕ}
    (hp : p < st.parts) (hj : j < st.partSize p) :
    s.shadow (st.place p j) = st.active (st.strB p + j) :=
  h.filled p hp j (hj.trans_eq (hs p hp).symm)

theorem Invariant.mem_written_iff (h : st.Invariant shadow s) (hs : st.Finished s) (x : ℕ) :
    x ∈ s.written ↔ x < st.size := by
  rw [h.mem_written, mem_range_iff_place]
  constructor
  · rintro ⟨p, hp, j, hj, rfl⟩
    exact ⟨p, hp, j, hj.trans_eq (hs p hp), rfl⟩
  · rintro ⟨p, hp, j, hj, rfl⟩
    exact ⟨p, hp, j, hj.trans_eq (hs p hp).symm, rfl⟩

/-- The counters of part 0 are the starts of the buckets. -/
theorem Invariant.boundaries_eq (h : st.Invariant shadow s) (hs : st.Finished s) {b : ℕ}
    (hb : b ≤ st.bktnum) :
    st.boundaries s b = bucketStart (bucketSize st.bucketCount st.parts) b := by
  rcases Nat.eq_or_lt_of_le hb with rfl | hlt
  · rw [boundaries, Function.update_self]
    exact (st.partsCover.total_eq st.bucketId_lt).symm
  · have hpos := st.parts_bounds.1
    -- part 0 is in front in each bucket, so its counters end at the starts
    rw [boundaries, Function.update_of_ne hlt.ne, h.bkt_eq 0 hpos b hlt, hs 0 hpos,
      regionStart_zero]
    change _ + (_ - st.bucketCount 0 b) = _
    rw [Nat.sub_self, Nat.add_zero]

/-- The assertions of `distribute_finished`, and what it relies on. -/
theorem Invariant.distributed (h : st.Invariant shadow s) (hs : st.Finished s) :
    st.Distributed s := by
  have hbound : ∀ {b}, b < st.bktnum → st.boundaries s b =
      bucketStart (bucketSize st.bucketCount st.parts) b ∧ st.boundaries s (b + 1) =
        bucketStart (bucketSize st.bucketCount st.parts) b +
          bucketSize st.bucketCount st.parts b := by
    intro b hb
    rw [← bucketStart_succ]
    exact ⟨h.boundaries_eq hs hb.le, h.boundaries_eq hs hb⟩
  refine ⟨?_, ?_, ?_, ?_, fun b hb => ?_, fun b hb => ?_⟩
  · refine (List.perm_ext_iff_of_nodup h.nodup List.nodup_range).mpr fun x => ?_
    rw [h.mem_written_iff hs, List.mem_range]
  · -- both arrays are read in the order of the moves
    have hmap := (st.place_perm.map s.shadow).symm
    rw [List.map_map] at hmap
    refine hmap.trans (List.Perm.of_eq ?_)
    rw [contents, ← st.partsCover, List.map_map]
    refine List.map_congr_left fun m hm => ?_
    obtain ⟨hp, hj⟩ := mem_moves.mp hm
    exact h.shadow_place hs hp hj
  · rw [h.boundaries_eq hs (Nat.zero_le _)]
    rfl
  · rw [boundaries, Function.update_self]
  · obtain ⟨h₁, h₂⟩ := hbound hb
    omega
  · obtain ⟨h₁, h₂⟩ := hbound hb
    rw [h₂, h₁, Nat.add_sub_cancel_left]
    exact bucket_perm st.partsCover st.bucketId_lt
      (fun p hp j hj => h.shadow_place hs hp hj) hb

/-- The shadow array does not depend on the order of the rounds. -/
theorem Invariant.shadow_eq (h : st.Invariant shadow s) (hs : st.Finished s)
    (h' : st.Invariant shadow s') (hs' : st.Finished s') : s.shadow = s'.shadow := by
  funext x
  by_cases hx : x < st.size
  · obtain ⟨p, hp, j, hj, rfl⟩ := (st.mem_range_iff_place x).mp hx
    rw [h.shadow_place hs hp hj, h'.shadow_place hs' hp hj]
  · rw [h.rest x fun hmem => hx ((h.mem_written_iff hs x).mp hmem),
      h'.rest x fun hmem => hx ((h'.mem_written_iff hs' x).mp hmem)]

end SampleSortStep

section Permutation

variable {α : Type}

/-- The parts are a partition of the strings.  In every order of the rounds of all jobs no place is
written twice and no counter falls below zero; the jobs can go on until all parts are finished, and
then have moved the strings into their buckets in one and the same way. -/
theorem parallelDistribute (st : SampleSortStep α) (shadow : ℕ → α) :
    (1 ≤ st.parts ∧ st.parts ≤ maxProcs) ∧
    ((List.range st.parts).flatMap fun p => List.range' (st.strB p) (st.strE p - st.strB p)) =
      List.range st.size ∧
    st.countFinished.1 = st.size ∧
    (∀ s, (st.distributeJobs shadow).Reachable s →
      s.written.Nodup ∧ (∀ x ∈ s.written, x < st.size) ∧
      (∀ p < st.parts, s.moved p < st.strE p - st.strB p →
        0 < s.bkt p (st.bktcache p (s.moved p))) ∧
      (¬ st.Finished s → ∃ p s', (st.distributeJobs shadow).step s p s') ∧
      (st.Finished s → st.Distributed s)) ∧
    ∀ s s', (st.distributeJobs shadow).Reachable s → (st.distributeJobs shadow).Reachable s' →
      st.Finished s → st.Finished s' → s.shadow = s'.shadow := by
  refine ⟨st.parts_bounds, ?_, st.countFinished_eq.1, fun s hreach => ?_,
    fun s s' hreach hreach' hs hs' => ?_⟩
  · rw [← st.partsCover, moves, List.map_flatMap]
    refine List.flatMap_congr fun p _ => ?_
    rw [List.map_map, List.range'_eq_map_range]
    rfl
  · have h := SampleSortStep.reachable_invariant hreach
    refine ⟨h.nodup, fun x hx => ?_, fun p hp hj => ?_, SampleSortStep.exists_round h,
      h.distributed⟩
    · obtain ⟨p, hp, j, hj, rfl⟩ := (h.mem_written x).mp hx
      exact (st.mem_range_iff_place _).mpr ⟨p, hp, j, hj.trans_le (h.moved_le p hp), rfl⟩
    · rw [h.counter hp hj]
      exact Nat.succ_pos _
  · exact (SampleSortStep.reachable_invariant hreach).shadow_eq hs
      (SampleSortStep.reachable_invariant hreach') hs'

/-- Five strings in three buckets; with a threshold of one string there are ten parts, of which
the last five are empty. -/
def fiveStrings : SampleSortStep ℕ where
  size := 5
  sequentialThreshold := 1
  bktnum := 3
  active i := i
  bucketId i := [2, 0, 2, 1, 0].getD i 0
  size_pos := by decide
  threshold_pos := by decide
  bucketId_lt := by decide

/-- The rounds of the jobs of five strings. -/
def runRounds (st : SampleSortStep ℕ) (s : DistributeState ℕ) (l : List ℕ) : DistributeState ℕ :=
  l.foldl (fun s p => (st.distributeRound p s).getD s) s

/-- Five strings, distributed. -/
theorem parallelDistribute_fiveStrings :
    fiveStrings.parts = 10 ∧ fiveStrings.Distributed
      (runRounds fiveStrings (fiveStrings.distributeStart fun _ => 0) [3, 0, 4, 2, 1]) := by
  refine ⟨by decide, ?_⟩
  have hreach : (fiveStrings.distributeJobs fun _ => 0).Reachable
      (runRounds fiveStrings (fiveStrings.distributeStart fun _ => 0) [3, 0, 4, 2, 1]) := by
    have hstart := Transition.Reachable.start
      (show (fiveStrings.distributeJobs fun _ => 0).init _ from rfl)
    have h₁ := hstart.step (l := 3) rfl
    have h₂ := h₁.step (l := 0) rfl
    have h₃ := h₂.step (l := 4) rfl
    have h₄ := h₃.step (l := 2) rfl
    exact h₄.step (l := 1) rfl
  exact ((parallelDistribute fiveStrings fun _ => 0).2.2.2.1 _ hreach).2.2.2.2 (by decide)

end Permutation

end StringSampleSort
