import StringSampleSort.Library.Slice
import Mathlib.Data.List.Flatten

/-!
# Distribution into buckets

Out-of-place distribution of an array by counting: several parts of the array are classified and
counted, the counts are summed up over the buckets and within a bucket over the parts, and each
part then moves its elements to its own region of each bucket, from the end of the region on.

Where an element goes depends on its part and on the elements before it in the part only, so the
order in which the parts take turns does not matter.

## Main results

- `region_apart`: the regions of different parts or buckets lie apart from each other
- `prefixSums_eq`: the sums are the ends of the regions
- `dest_inj`, `dest_perm`: the elements go to different places, which make up the whole array
- `bucket_perm`: every bucket gets the elements of its class
-/

namespace StringSampleSort.Library

open Slice

variable {α : Type*}

/-! ## The regions of the parts -/

section Regions

variable (cnt : ℕ → ℕ → ℕ) (parts : ℕ)

/-- The size of a bucket, of which part `p` has `cnt p b` elements. -/
def bucketSize (b : ℕ) : ℕ := bucketStart (fun p => cnt p b) parts

/-- Where the region of part `p` in bucket `b` starts. -/
def regionStart (p b : ℕ) : ℕ :=
  bucketStart (bucketSize cnt parts) b + bucketStart (fun p => cnt p b) p

theorem regionStart_zero (b : ℕ) :
    regionStart cnt parts 0 b = bucketStart (bucketSize cnt parts) b := rfl

variable {cnt parts} {p q b c : ℕ}

/-- A region ends where the next one of its bucket starts. -/
theorem regionStart_succ :
    regionStart cnt parts (p + 1) b = regionStart cnt parts p b + cnt p b := by
  rw [regionStart, regionStart, bucketStart_succ, Nat.add_assoc]

/-- A region lies within its bucket. -/
theorem regionEnd_le (cnt : ℕ → ℕ → ℕ) (b : ℕ) (hp : p < parts) :
    regionStart cnt parts p b + cnt p b ≤
      bucketStart (bucketSize cnt parts) b + bucketSize cnt parts b := by
  rw [← regionStart_succ]
  exact Nat.add_le_add_left (bucketStart_mono _ hp) _

/-- Different regions have no place in common. -/
theorem region_apart (hp : p < parts) (hq : q < parts) (h : p ≠ q ∨ b ≠ c) {x : ℕ}
    (hx : InWindow (regionStart cnt parts p b) (cnt p b) x) :
    ¬ InWindow (regionStart cnt parts q c) (cnt q c) x := by
  rintro ⟨h₁, h₂⟩
  obtain ⟨h₃, h₄⟩ := hx
  have hpb := regionEnd_le cnt b hp
  have hqc := regionEnd_le cnt c hq
  have hb : bucketStart (bucketSize cnt parts) b ≤ regionStart cnt parts p b :=
    Nat.le_add_right ..
  have hc : bucketStart (bucketSize cnt parts) c ≤ regionStart cnt parts q c :=
    Nat.le_add_right ..
  have hbc : b = c :=
    @bucket_unique (bucketSize cnt parts) b c x (by omega) (by omega) (by omega) (by omega)
  subst hbc
  rw [regionStart] at h₁ h₂ h₃ h₄
  have hpq : p = q := @bucket_unique (fun p => cnt p b) p q
    (x - bucketStart (bucketSize cnt parts) b) (by omega) (by omega) (by omega) (by omega)
  exact h.elim (fun h => h hpq) fun h => h rfl

/-! ## The sums -/

/-- `for (b < bktnum) for (p < parts) bkt[p][b] = (sum += bkt[p][b]);` -/
def prefixSums (bktnum parts : ℕ) (bkt : ℕ → ℕ → ℕ) : ℕ × (ℕ → ℕ → ℕ) :=
  (List.range bktnum).foldl (fun s b => (List.range parts).foldl (fun s p =>
    let sum := s.1 + s.2 p b
    (sum, Function.update s.2 p (Function.update (s.2 p) b sum))) s) (0, bkt)

/-- The sums are the ends of the regions. -/
theorem prefixSums_eq (cnt : ℕ → ℕ → ℕ) (K parts : ℕ) :
    prefixSums K parts cnt = (bucketStart (bucketSize cnt parts) K, fun p b =>
      if b < K ∧ p < parts then regionStart cnt parts p b + cnt p b else cnt p b) := by
  induction K with
  | zero =>
    refine Prod.ext rfl (funext fun p => funext fun b => ?_)
    dsimp only
    rw [if_neg (by omega)]
    rfl
  | succ K ih =>
    rw [prefixSums] at ih ⊢
    rw [List.range_succ, List.foldl_append, ih, List.foldl_cons, List.foldl_nil]
    -- the parts that have been summed up so far
    have hrow : ∀ q ≤ parts, (List.range q).foldl (fun (s : ℕ × (ℕ → ℕ → ℕ)) p =>
        let sum := s.1 + s.2 p K
        (sum, Function.update s.2 p (Function.update (s.2 p) K sum)))
          (bucketStart (bucketSize cnt parts) K, fun p b =>
            if b < K ∧ p < parts then regionStart cnt parts p b + cnt p b else cnt p b) =
        (regionStart cnt parts q K, fun p b => if (b < K ∧ p < parts) ∨ (b = K ∧ p < q) then
          regionStart cnt parts p b + cnt p b else cnt p b) := by
      intro q hq
      induction q with
      | zero => simp [regionStart, bucketStart]
      | succ q ihq =>
        rw [List.range_succ, List.foldl_append, ihq (by omega), List.foldl_cons, List.foldl_nil]
        have hread : (if (K < K ∧ q < parts) ∨ (K = K ∧ q < q) then
            regionStart cnt parts q K + cnt q K else cnt q K) = cnt q K := if_neg (by omega)
        refine Prod.ext ?_ (funext fun p => funext fun b => ?_)
        · dsimp only
          rw [hread, regionStart_succ]
        · dsimp only
          rw [hread]
          by_cases hp : p = q
          · subst hp
            rw [Function.update_self]
            by_cases hb : b = K
            · subst hb
              rw [Function.update_self, if_pos (by omega)]
            · rw [Function.update_of_ne hb]
              refine if_congr ?_ rfl rfl
              omega
          · rw [Function.update_of_ne hp]
            refine if_congr ?_ rfl rfl
            omega
    rw [hrow parts (le_refl _)]
    refine Prod.ext ?_ (funext fun p => funext fun b => if_congr ?_ rfl rfl)
    · exact (bucketStart_succ _ K).symm
    · omega

/-- The sums depend on the counters of the parts only. -/
theorem prefixSums_congr {cnt cnt' : ℕ → ℕ → ℕ} (K : ℕ) {parts : ℕ}
    (h : ∀ p < parts, cnt p = cnt' p) :
    (prefixSums K parts cnt).1 = (prefixSums K parts cnt').1 ∧
      ∀ p < parts, (prefixSums K parts cnt).2 p = (prefixSums K parts cnt').2 p := by
  have hpart : ∀ q ≤ parts, ∀ b, bucketStart (fun p => cnt p b) q = bucketStart (fun p => cnt' p b) q :=
    fun q hq b => bucketStart_congr fun p hp => by rw [h p (hp.trans_le hq)]
  have hsize : bucketSize cnt parts = bucketSize cnt' parts := funext (hpart parts le_rfl)
  rw [prefixSums_eq, prefixSums_eq, hsize]
  refine ⟨rfl, fun p hp => funext fun b => ?_⟩
  simp only [regionStart, hsize, hpart p hp.le, h p hp]

end Regions

/-! ## The places of the elements -/

section Moves

/-- How many elements of part `p` are of class `b`. -/
def partCount (c lo size : ℕ → ℕ) (p b : ℕ) : ℕ := (slice c (lo p) (size p)).count b

/-- The place of element `j` of part `p`: the elements of its class in its part fill their region
from the end on. -/
def dest (c lo size : ℕ → ℕ) (parts p j : ℕ) : ℕ :=
  regionStart (partCount c lo size) parts p (c (lo p + j)) +
    (partCount c lo size p (c (lo p + j)) - ((slice c (lo p) j).count (c (lo p + j)) + 1))

/-- All elements, as part and number within the part. -/
def moves (size : ℕ → ℕ) (parts : ℕ) : List (ℕ × ℕ) :=
  (List.range parts).flatMap fun p => (List.range (size p)).map fun j => (p, j)

/-- The parts make up the first `n` places. -/
def PartsCover (lo size : ℕ → ℕ) (parts n : ℕ) : Prop :=
  (moves size parts).map (fun m => lo m.1 + m.2) = List.range n

theorem mem_moves {size : ℕ → ℕ} {parts : ℕ} {m : ℕ × ℕ} :
    m ∈ moves size parts ↔ m.1 < parts ∧ m.2 < size m.1 := by
  simp only [moves, List.mem_flatMap, List.mem_range, List.mem_map]
  constructor
  · rintro ⟨p, hp, j, hj, rfl⟩
    exact ⟨hp, hj⟩
  · rintro ⟨hp, hj⟩
    exact ⟨m.1, hp, m.2, hj, rfl⟩

theorem moves_nodup (size : ℕ → ℕ) (parts : ℕ) : (moves size parts).Nodup := by
  rw [moves, List.nodup_flatMap]
  refine ⟨fun p _ => List.nodup_range.map fun j k h => (Prod.mk.inj h).2, ?_⟩
  refine List.nodup_range.imp fun hpq m h₁ h₂ => ?_
  obtain ⟨j, -, rfl⟩ := List.mem_map.mp h₁
  obtain ⟨k, -, heq⟩ := List.mem_map.mp h₂
  exact hpq (Prod.mk.inj heq).1.symm

variable {c lo size : ℕ → ℕ} {parts n K p q j k : ℕ}

/-- Each element is counted once it has been passed. -/
theorem count_slice_succ (c : ℕ → ℕ) (a j b : ℕ) :
    (slice c a (j + 1)).count b = (slice c a j).count b + if c (a + j) = b then 1 else 0 := by
  rw [slice_append, List.count_append]
  change _ + List.count b [c (a + j)] = _
  rw [List.count_singleton]
  simp only [beq_iff_eq]

theorem count_slice_mono (c : ℕ → ℕ) (a b : ℕ) {j k : ℕ} (h : j ≤ k) :
    (slice c a j).count b ≤ (slice c a k).count b := by
  rw [show k = j + (k - j) by omega, slice_append, List.count_append]
  exact Nat.le_add_right ..

/-- An element of a class is not counted before it has been passed. -/
theorem count_slice_lt (c : ℕ → ℕ) (a : ℕ) (h : j < k) :
    (slice c a j).count (c (a + j)) < (slice c a k).count (c (a + j)) := by
  have hsucc := count_slice_succ c a j (c (a + j))
  have hmono := count_slice_mono c a (c (a + j)) (Nat.succ_le_of_lt h)
  rw [if_pos rfl] at hsucc
  rw [Nat.succ_eq_add_one] at hmono
  omega

/-- An element goes to the region of its part and class. -/
theorem dest_mem (c lo : ℕ → ℕ) (parts : ℕ) (hj : j < size p) :
    InWindow (regionStart (partCount c lo size) parts p (c (lo p + j)))
      (partCount c lo size p (c (lo p + j))) (dest c lo size parts p j) := by
  have hlt : (slice c (lo p) j).count (c (lo p + j)) < partCount c lo size p (c (lo p + j)) :=
    count_slice_lt c (lo p) hj
  rw [InWindow, dest]
  omega

/-- So it goes to the bucket of its class. -/
theorem dest_mem_bucket (c lo : ℕ → ℕ) (hp : p < parts) (hj : j < size p) :
    InWindow (bucketStart (bucketSize (partCount c lo size) parts) (c (lo p + j)))
      (bucketSize (partCount c lo size) parts (c (lo p + j))) (dest c lo size parts p j) := by
  obtain ⟨h₁, h₂⟩ := dest_mem c lo parts hj
  have hend := regionEnd_le (partCount c lo size) (c (lo p + j)) hp
  rw [regionStart] at h₁ h₂ hend
  exact ⟨by omega, by omega⟩

/-- Different elements go to different places. -/
theorem dest_inj (hp : p < parts) (hj : j < size p) (hq : q < parts) (hk : k < size q)
    (h : dest c lo size parts p j = dest c lo size parts q k) : p = q ∧ j = k := by
  have hmemp := dest_mem c lo parts hj
  have hmemq := dest_mem c lo parts hk
  rw [h] at hmemp
  have hsame : ¬ (p ≠ q ∨ c (lo p + j) ≠ c (lo q + k)) := fun hne =>
    region_apart hp hq hne hmemp hmemq
  rw [not_or, not_not, not_not] at hsame
  obtain ⟨rfl, hclass⟩ := hsame
  refine ⟨rfl, ?_⟩
  -- within a class the places go down
  have hltj := count_slice_lt c (lo p) hj
  have hltk := count_slice_lt c (lo p) hk
  rw [dest, dest, ← hclass] at h
  rw [← hclass] at hltk
  simp only [partCount] at h
  rcases Nat.lt_trichotomy j k with hlt | heq | hgt
  · have hstep := count_slice_lt c (lo p) hlt
    omega
  · exact heq
  · have hstep := count_slice_lt c (lo p) hgt
    rw [← hclass] at hstep
    omega

/-- The classes are counted over the whole array. -/
theorem PartsCover.bucketSize_eq (h : PartsCover lo size parts n) (c : ℕ → ℕ) :
    bucketSize (partCount c lo size) parts = fun b => (contents c n).count b := by
  have hparts : (List.range parts).flatMap (fun p => slice c (lo p) (size p)) = contents c n := by
    rw [contents, ← h, moves, List.map_map, List.map_flatMap]
    refine List.flatMap_congr fun p _ => ?_
    rw [List.map_map]
    rfl
  funext b
  rw [← hparts, List.count_flatMap]
  rfl

theorem PartsCover.total_eq (h : PartsCover lo size parts n) (hbound : ∀ i < n, c i < K) :
    bucketStart (bucketSize (partCount c lo size) parts) K = n := by
  have htotal := (tallies_count id c hbound).total
  rw [List.map_id] at htotal
  rw [h.bucketSize_eq]
  exact htotal

/-- The places the elements go to make up the whole array. -/
theorem dest_perm (h : PartsCover lo size parts n) (hbound : ∀ i < n, c i < K) :
    ((moves size parts).map fun m => dest c lo size parts m.1 m.2).Perm (List.range n) := by
  have hlen : (moves size parts).length = n := by
    have := congrArg List.length h
    rwa [List.length_map, List.length_range] at this
  have hnodup : ((moves size parts).map fun m => dest c lo size parts m.1 m.2).Nodup := by
    refine (moves_nodup size parts).map_on fun m hm m' hm' heq => ?_
    rw [mem_moves] at hm hm'
    have := dest_inj hm.1 hm.2 hm'.1 hm'.2 heq
    exact Prod.ext this.1 this.2
  refine (hnodup.subperm fun x hx => ?_).perm_of_length_le (by simp [hlen])
  obtain ⟨m, hm, rfl⟩ := List.mem_map.mp hx
  have hmove := mem_moves.mp hm
  have hclass : c (lo m.1 + m.2) < K := by
    refine hbound _ (List.mem_range.mp ?_)
    rw [← h]
    exact List.mem_map.mpr ⟨m, hm, rfl⟩
  have hend := bucketEnd_le (bucketSize (partCount c lo size) parts) hclass
  rw [h.total_eq hbound] at hend
  exact List.mem_range.mpr ((dest_mem_bucket c lo hmove.1 hmove.2).2.trans_le hend)

/-- Every bucket gets the elements of its class. -/
theorem bucket_perm {A B : ℕ → α} (h : PartsCover lo size parts n) (hbound : ∀ i < n, c i < K)
    (hB : ∀ p < parts, ∀ j < size p, B (dest c lo size parts p j) = A (lo p + j)) {b : ℕ}
    (hb : b < K) :
    (slice B (bucketStart (bucketSize (partCount c lo size) parts) b)
      (bucketSize (partCount c lo size) parts b)).Perm
      (((List.range n).filter fun i => decide (c i = b)).map A) := by
  set W := InWindow (bucketStart (bucketSize (partCount c lo size) parts) b)
    (bucketSize (partCount c lo size) parts b) with hW
  have hend := bucketEnd_le (bucketSize (partCount c lo size) parts) hb
  rw [h.total_eq hbound] at hend
  -- the places of the bucket are those of the elements of its class
  have hplaces : ((moves size parts).map fun m => dest c lo size parts m.1 m.2).filter
      (fun x => decide (W x)) =
      ((moves size parts).filter fun m => decide (c (lo m.1 + m.2) = b)).map
        fun m => dest c lo size parts m.1 m.2 := by
    rw [List.filter_map]
    refine congrArg _ (List.filter_congr fun m hm => ?_)
    obtain ⟨hp, hj⟩ := mem_moves.mp hm
    obtain ⟨h₁, h₂⟩ := dest_mem_bucket c lo hp hj
    rw [Function.comp_apply, decide_eq_decide]
    refine ⟨fun hin => bucket_unique h₁ h₂ hin.1 hin.2, fun heq => ?_⟩
    rw [heq] at h₁ h₂
    exact ⟨h₁, h₂⟩
  have hrange : ((List.range n).filter fun x => decide (W x)).Perm
      (slice id (bucketStart (bucketSize (partCount c lo size) parts) b)
        (bucketSize (partCount c lo size) parts b)) := by
    refine (List.perm_ext_iff_of_nodup (List.nodup_range.filter _) ?_).mpr fun x => ?_
    · exact List.nodup_range.map fun i k hik => Nat.add_left_cancel hik
    · rw [List.mem_filter, List.mem_range, decide_eq_true_iff, mem_slice]
      constructor
      · rintro ⟨-, hx⟩
        exact ⟨x, hx, rfl⟩
      · rintro ⟨y, hy, rfl⟩
        exact ⟨hy.2.trans_le hend, hy⟩
  have hdest := (dest_perm h hbound).filter fun x => decide (W x)
  rw [hplaces] at hdest
  have hmap := ((hdest.trans hrange).map B).symm
  rw [map_slice, List.map_map] at hmap
  refine hmap.trans (List.Perm.of_eq ?_)
  rw [← h, List.filter_map, List.map_map]
  refine List.map_congr_left fun m hm => ?_
  obtain ⟨hp, hj⟩ := mem_moves.mp (List.mem_of_mem_filter hm)
  exact hB m.1 hp m.2 hj

end Moves

/-! ## Parts of equal size -/

section Parts

/-- Parts of size `psize`, of which the last ones end with the array or are empty, make up the
array. -/
theorem partsCover_of_le {psize n parts : ℕ} (h : n ≤ parts * psize) :
    PartsCover (fun p => p * psize) (fun p => min ((p + 1) * psize) n - p * psize) parts n := by
  have hall : ∀ P, (moves (fun p => min ((p + 1) * psize) n - p * psize) P).map
      (fun m => m.1 * psize + m.2) = List.range (min (P * psize) n) := by
    intro P
    induction P with
    | zero => simp [moves]
    | succ P ih =>
      rw [moves] at ih ⊢
      rw [List.range_succ, List.flatMap_append, List.map_append, ih, List.flatMap_singleton,
        List.map_map]
      have hmono : P * psize ≤ (P + 1) * psize := Nat.mul_le_mul_right _ (Nat.le_succ P)
      rcases Nat.le_total (P * psize) n with hle | hge
      · have hsum : min ((P + 1) * psize) n =
            P * psize + (min ((P + 1) * psize) n - P * psize) := by omega
        rw [min_eq_left hle, hsum, List.range_add, Nat.add_sub_cancel_left]
        rfl
      · rw [min_eq_right hge, min_eq_right (hge.trans hmono), Nat.sub_eq_zero_of_le hge]
        exact List.append_nil _
  rw [PartsCover, hall, min_eq_right h]

end Parts

end StringSampleSort.Library
