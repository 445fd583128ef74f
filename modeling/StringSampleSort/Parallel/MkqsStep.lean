import StringSampleSort.Library.SplitEnd
import StringSampleSort.Parallel.CacheSort
import StringSampleSort.Parallel.SortPlan

/-!
# A step of multikey quicksort

Model of `MKQSStep` of `src/parallel/bingmann-parallel_sample_sort.hpp` with `PS5_CALC_LCP_MKQS`
set to 1.  The constructor partitions the strings by the key of a pivot and computes the common
prefixes next to the pivot from the extremes that the partition has met, before anything is sorted.

## Main results

- `mkqsStep_spec`: the areas of a step are pieces, their keys lie in the buffer, and the common
  prefixes at their boundaries are right
- `MKQSStep.Ok.calculated`: `calculate_lcp` writes the entries that have been promised
-/

namespace StringSampleSort

open Library Slice SortTask

/-! ## Model -/

/-- `med3(A, i, j, k)`. -/
def med3 (A : ℕ → KeyType) (i j k : ℕ) : ℕ :=
  if A i = A j then i
  else if A k = A i ∨ A k = A j then k
  else if A i < A j then
    if A j < A k then j
    else if A i < A k then k
    else i
  else if A j > A k then j
  else if A i < A k then i
  else k

/-- The median of 9, from which the pivot is taken. -/
def pivotIndex (cache : ℕ → KeyType) (n : ℕ) : ℕ :=
  med3 cache (med3 cache 0 (n / 8) (n / 4))
    (med3 cache (n / 2 - n / 8) (n / 2) (n / 2 + n / 8))
    (med3 cache (n - 1 - n / 4) (n - 1 - n / 8) (n - 3))

/-- `MKQSStep`.  `lcp_lt` and `dchar_eq` are only set when there are smaller strings, `lcp_gt` and
`dchar_gt` when there are larger ones.  The steps of a job are numbered by `level`, which the code
does not store. -/
structure MKQSStep where
  level : ℕ
  strptr : StringPtr
  cache : ℕ
  num_lt : ℕ
  num_eq : ℕ
  num_gt : ℕ
  depth : ℕ
  idx : ℕ
  eq_recurse : Bool
  dchar_eq : CharType
  dchar_gt : CharType
  lcp_lt : ℕ
  lcp_eq : ℕ
  lcp_gt : ℕ

section Model

variable {S : Type}

/-- The fields of a step whose strings have been partitioned. -/
def MKQSStep.ofPartition {α : Type} (level : ℕ) (strptr : StringPtr) (cache depth : ℕ)
    (pivot : KeyType) (r : Partition α KeyType) : MKQSStep where
  level := level
  strptr := strptr
  cache := cache
  num_lt := r.num_lt
  num_eq := r.num_eq
  num_gt := r.num_gt
  depth := depth
  idx := 0
  -- No recursive sorting if pivot has a zero byte
  eq_recurse := decide (lowByte pivot ≠ 0)
  dchar_eq := if r.num_lt > 0 then getCharAtDepth pivot (lcpKeyType r.max_lt pivot) else 0
  dchar_gt := if r.num_gt > 0 then getCharAtDepth r.min_gt (lcpKeyType pivot r.min_gt) else 0
  lcp_lt := if r.num_lt > 0 then lcpKeyType r.max_lt pivot else 0
  lcp_eq := lcpKeyDepth pivot
  lcp_gt := if r.num_gt > 0 then lcpKeyType pivot r.min_gt else 0

/-- The assertions of the constructor. -/
def MKQSStep.Asserts (n : ℕ) (r : Partition (S × KeyType) KeyType) : Prop :=
  r.num_eq > 0 ∧ r.num_lt + r.num_eq + r.num_gt = n ∧
    (r.num_lt > 0 →
      (slice (fun i => (r.array i).2) 0 r.num_lt).max? = some r.max_lt) ∧
    (r.num_gt > 0 →
      (slice (fun i => (r.array i).2) (r.num_lt + r.num_eq) r.num_gt).min? = some r.min_gt)

instance (n : ℕ) (r : Partition (S × KeyType) KeyType) : Decidable (MKQSStep.Asserts n r) :=
  inferInstanceAs (Decidable (_ ∧ _ ∧ _ ∧ _))

/-- `MKQSStep(ctx, strptr, cache, depth, CacheDirty)`.  No result means that an assertion fails. -/
def mkqsStep (ss : StringSet S) (level : ℕ) (strptr : StringPtr) (cache depth : ℕ)
    (CacheDirty : Bool) (m : KeyMemory S) : Option (MKQSStep × KeyMemory S) :=
  let n := strptr.size
  let strset := strptr.active
  let m :=
    if CacheDirty then
      { m with keys := splice m.keys cache n fun i => getUint64 ss (strset.get m.mem i) depth }
    else m
  -- select median of 9
  let p := pivotIndex (fun i => m.keys (cache + i)) n
  -- swap pivot to first position
  let A := swapAt (m.pairs strset cache) 0 p
  let pivot := (A 0).2
  let r := partition Prod.snd 0 (BitVec.allOnes 64) n A
  if MKQSStep.Asserts n r then
    some (.ofPartition level strptr cache depth pivot r, m.writePairs strset cache r.array)
  else none

/-- The parts of a step, and what is called for them. -/
def MKQSStep.shape (ms : MKQSStep) : Shape RangeCall where
  parts := 3
  size
    | 0 => ms.num_lt
    | 1 => ms.num_eq
    | _ => ms.num_gt
  call
    | 0 => some (ms.strptr.sub 0 ms.num_lt, ms.depth)
    | 1 => if ms.eq_recurse then some (ms.strptr.sub ms.num_lt ms.num_eq, ms.depth + 8) else none
    | _ => some (ms.strptr.sub (ms.num_lt + ms.num_eq) ms.num_gt, ms.depth)

/-- `calculate_lcp()`. -/
def MKQSStep.calculateLcp (cls : StringPtrClass) (ms : MKQSStep) (m : Memory S) : Memory S :=
  let m :=
    if ms.num_lt > 0 then
      cls.setCache ms.strptr.original ms.num_lt ms.dchar_eq
        (cls.setLcp ms.strptr.original ms.num_lt (ms.depth + ms.lcp_lt) m)
    else m
  if ms.num_gt > 0 then
    cls.setCache ms.strptr.original (ms.num_lt + ms.num_eq) ms.dchar_gt
      (cls.setLcp ms.strptr.original (ms.num_lt + ms.num_eq) (ms.depth + ms.lcp_gt) m)
  else m

end Model

/-! ## Medians -/

theorem med3_lt (A : ℕ → KeyType) {i j k n : ℕ} (hi : i < n) (hj : j < n) (hk : k < n) :
    med3 A i j k < n := by
  rw [med3]
  split_ifs <;> assumption

theorem pivotIndex_lt (cache : ℕ → KeyType) {n : ℕ} (hn : 3 ≤ n) : pivotIndex cache n < n :=
  med3_lt _ (med3_lt _ (by omega) (by omega) (by omega))
    (med3_lt _ (by omega) (by omega) (by omega)) (med3_lt _ (by omega) (by omega) (by omega))

/-! ## Areas -/

namespace MKQSStep

variable (ms : MKQSStep)

/-- The window of a step. -/
def window : Window := ⟨ms.strptr.active.begin, ms.strptr.size⟩

/-- The places of the strings below, equal to and above the pivot. -/
def area : ℕ → Window
  | 0 => ⟨ms.strptr.active.begin, ms.num_lt⟩
  | 1 => ⟨ms.strptr.active.begin + ms.num_lt, ms.num_eq⟩
  | _ => ⟨ms.strptr.active.begin + (ms.num_lt + ms.num_eq), ms.num_gt⟩

/-- The depth from which an area is sorted. -/
def areaDepth (i : ℕ) : ℕ := if i = 1 ∧ ms.eq_recurse = true then ms.depth + 8 else ms.depth

/-- An area as a piece. -/
def piece (i : ℕ) : Piece := ⟨ms.strptr.flipped, ms.area i, ms.areaDepth i⟩

/-- The step after the next of its parts has been dealt with. -/
def next : MKQSStep := { ms with idx := ms.idx + 1 }

/-- The step when all of its parts have been dealt with. -/
def freed : MKQSStep := { ms with idx := 3 }

/-- The entries that `calculate_lcp` writes. -/
def Promises (p : ℕ) : Prop :=
  (0 < ms.num_lt ∧ p = ms.strptr.active.begin + ms.num_lt) ∨
    (0 < ms.num_gt ∧ p = ms.strptr.active.begin + (ms.num_lt + ms.num_eq))

/-- The step as a level of its job. -/
def toLevel : StepLevel where
  frame := ⟨ms.level, ms.shape, ms.idx⟩
  window := ms.window
  piece := ms.piece
  Promises := ms.Promises
  size_eq
    | 0 => rfl
    | 1 => rfl
    | _ + 2 => rfl

/-- The boundaries of the areas. -/
def bounds : ℕ → ℕ
  | 0 => ms.strptr.active.begin
  | 1 => ms.strptr.active.begin + ms.num_lt
  | 2 => ms.strptr.active.begin + (ms.num_lt + ms.num_eq)
  | _ => ms.strptr.active.begin + ms.strptr.size

/-- What is known about a step: where its areas are, and that the entries that it will write are
right. -/
structure Ok {S : Type} (T : SortTask S) (base : ℕ) : Prop where
  strptr : ms.strptr = T.cls.pointer ms.strptr.flipped ms.window.lo ms.window.size
  size : ms.num_lt + ms.num_eq + ms.num_gt = ms.window.size
  eq_pos : 0 < ms.num_eq
  cache : base + ms.cache = ms.window.lo
  const : ms.eq_recurse = false →
    (∀ p, (ms.area 1).Mem p → T.target p = T.target (ms.area 1).lo) ∧
      (T.target (ms.area 1).lo).length = ms.depth + ms.lcp_eq
  lcp_lt : 0 < ms.num_lt → T.lcpAt (ms.area 1).lo = ms.depth + ms.lcp_lt ∧
    (T.target (ms.area 1).lo).getD (T.lcpAt (ms.area 1).lo) 0 = ms.dchar_eq
  lcp_gt : 0 < ms.num_gt → T.lcpAt (ms.area 2).lo = ms.depth + ms.lcp_gt ∧
    (T.target (ms.area 2).lo).getD (T.lcpAt (ms.area 2).lo) 0 = ms.dchar_gt

/-- The keys of the areas that are sorted at the depth of the step lie in the buffer. -/
def KeysOk {S : Type} (T : SortTask S) (g : Ghost S) (keys : ℕ → KeyType) (base : ℕ) : Prop :=
  ∀ i, ms.idx ≤ i → i < 3 → i ≠ 1 → T.KeysOk g keys base ms.depth (ms.area i)

end MKQSStep

/-! ## The constructor -/

section Constructor

variable {S : Type} {T : SortTask S} {g : Ghost S} {P : Piece} {keys : ℕ → KeyType}
  {base cache : ℕ}

/-- How a key compares with the pivot. -/
def pivotClass (pivot k : KeyType) : ℕ := if k < pivot then 0 else if k = pivot then 1 else 2

theorem pivotClass_mono (pivot : KeyType) : Monotone (pivotClass pivot) := by
  intro j k hjk
  rw [pivotClass, pivotClass]
  by_cases hk : k < pivot
  · rw [if_pos hk, if_pos (hjk.trans_lt hk)]
  · rw [if_neg hk]
    by_cases hk' : k = pivot
    · rw [if_pos hk']
      split_ifs with h₁ h₂
      · exact Nat.zero_le _
      · exact le_refl _
      · exact absurd (lt_of_le_of_ne (hk' ▸ hjk) h₂) h₁
    · rw [if_neg hk']
      split_ifs <;> omega

/-- The class of a place of a partitioned array. -/
theorem Library.Partition.Ok.class_eq {pivot : KeyType} {n : ℕ} {A : ℕ → S × KeyType}
    {r : Partition (S × KeyType) KeyType} (h : r.Ok Prod.snd pivot n A) {i : ℕ} (hi : i < n) :
    pivotClass pivot (r.array i).2 =
      if i < r.num_lt then 0 else if i < r.num_lt + r.num_eq then 1 else 2 := by
  rw [pivotClass]
  by_cases hlt : i < r.num_lt
  · rw [if_pos hlt, if_pos (h.lt i hlt).1]
  · rw [if_neg hlt]
    by_cases heq : i < r.num_lt + r.num_eq
    · have hkey : (r.array i).2 = pivot := h.eq i (not_lt.mp hlt) heq
      rw [if_pos heq, hkey, if_neg (lt_irrefl _), if_pos rfl]
    · have hkey : pivot < (r.array i).2 := (h.gt i (not_lt.mp heq) hi).1
      rw [if_neg heq, if_neg (lt_asymm hkey), if_neg hkey.ne']

/-- The assertions of the constructor hold. -/
theorem Library.Partition.Ok.asserts {pivot : KeyType} {n : ℕ} {A : ℕ → S × KeyType}
    {r : Partition (S × KeyType) KeyType} (h : r.Ok Prod.snd pivot n A) :
    MKQSStep.Asserts n r := by
  have hsize := h.size
  refine ⟨h.eq_pos, h.size, fun hpos => ?_, fun hpos => ?_⟩
  · rw [List.max?_eq_some_iff]
    obtain ⟨p, hp, heq⟩ := h.max_lt hpos
    refine ⟨mem_slice.mpr ⟨p, ⟨Nat.zero_le _, by omega⟩, heq⟩, fun k hk => ?_⟩
    obtain ⟨q, ⟨-, hq⟩, rfl⟩ := mem_slice.mp hk
    exact (h.lt q (by omega)).2
  · rw [List.min?_eq_some_iff]
    obtain ⟨p, hp, hp', heq⟩ := h.min_gt hpos
    refine ⟨mem_slice.mpr ⟨p, ⟨hp, by omega⟩, heq⟩, fun k hk => ?_⟩
    obtain ⟨q, ⟨hq, hq'⟩, rfl⟩ := mem_slice.mp hk
    exact (h.gt q hq (by omega)).2

/-- The keys that the constructor works with. -/
theorem SortTask.PieceOk.filled_keys (h : T.PieceOk g P) (CacheDirty : Bool)
    (hkeys : CacheDirty = false → T.KeysOk g keys base P.depth P.window)
    (hcache : base + cache = P.window.lo) :
    let keys' := if CacheDirty then splice keys cache P.window.size fun i => getUint64 T.ss
        ((StringRange.mk (T.cls.activeArray P.flipped) P.window.lo P.window.size).get g.mem i)
          P.depth
      else keys
    T.KeysOk g keys' base P.depth P.window ∧ KeysEffect base P.window keys keys' := by
  intro keys'
  cases CacheDirty with
  | false => exact ⟨hkeys rfl, KeysEffect.refl _ _ _⟩
  | true =>
    have hsplice : keys' = splice keys cache P.window.size fun i => getUint64 T.ss
      ((StringRange.mk (T.cls.activeArray P.flipped) P.window.lo P.window.size).get g.mem i)
        P.depth := if_pos rfl
    rw [hsplice]
    refine ⟨fun i hi => ?_, fun i hi => splice_of_not_in _ _ fun hin => hi ⟨?_, ?_⟩⟩
    · have hin : InWindow cache P.window.size i := by
        obtain ⟨h₁, h₂⟩ := hi
        exact ⟨by omega, by omega⟩
      have hplace : P.window.lo + (i - cache) = base + i := by
        have := hin.1
        omega
      refine (splice_of_in _ _ hin).trans ?_
      show getUint64 T.ss (g.mem.strings (T.cls.activeArray P.flipped) (P.window.lo + (i - cache)))
        P.depth = _
      rw [hplace, ← h.value _ hi, h.getUint64_eq hi]
    · have := hin.1
      omega
    · have := hin.2
      omega

/-- The areas of a partitioned piece. -/
theorem mkqsStep_areas (level : ℕ) (h : T.PieceOk g P) {pivot : KeyType} {A : ℕ → S × KeyType}
    {r : Partition (S × KeyType) KeyType} (hr : r.Ok Prod.snd pivot P.window.size A)
    (hkeys : T.KeysOk g keys base P.depth P.window) (hcache : base + cache = P.window.lo)
    (hvalue : ∀ i < P.window.size, T.valueKey g P.depth (P.window.lo + i) = (r.array i).2) :
    let ms := MKQSStep.ofPartition level (T.pointer P) cache P.depth pivot r
    ms.Ok T base ∧ ms.toLevel.PiecesOk T g ∧ ms.KeysOk T g keys base := by
  intro ms
  have hms : ms = MKQSStep.ofPartition level (T.pointer P) cache P.depth pivot r := rfl
  have hsize := hr.size
  have hplace : ∀ p, P.window.Mem p → ∃ i < P.window.size, p = P.window.lo + i := by
    rintro p ⟨h₁, h₂⟩
    exact ⟨p - P.window.lo, by omega, by omega⟩
  have hin : ∀ i < P.window.size, P.window.Mem (P.window.lo + i) := fun i hi =>
    ⟨Nat.le_add_right .., Nat.add_lt_add_left hi _⟩
  -- the piece is arranged by the comparison with the pivot, and so is the target
  have hclass : ∀ i < P.window.size, pivotClass pivot (T.valueKey g P.depth (P.window.lo + i)) =
      if i < r.num_lt then 0 else if i < r.num_lt + r.num_eq then 1 else 2 := fun i hi => by
    rw [hvalue i hi, hr.class_eq hi]
  have hmono : MonotoneIn (pivotClass pivot ∘ T.valueKey g P.depth) P.window.lo
      P.window.size := by
    intro p q hp hq hpq
    obtain ⟨i, hi, rfl⟩ := hplace p hp
    obtain ⟨j, hj, rfl⟩ := hplace q hq
    show pivotClass _ _ ≤ pivotClass _ _
    rw [hclass i hi, hclass j hj]
    split_ifs <;> omega
  have htarget : ∀ i < P.window.size, pivotClass pivot (T.targetKey P.depth (P.window.lo + i)) =
      if i < r.num_lt then 0 else if i < r.num_lt + r.num_eq then 1 else 2 := fun i hi => by
    rw [← h.class_eq (pivotClass_mono pivot) hmono (hin i hi), hclass i hi]
  have harea : ∀ i < 3, (ms.area i).Inside P.window ∧ ∀ p, P.window.Mem p →
      (pivotClass pivot (T.targetKey P.depth p) = i ↔ (ms.area i).Mem p) := by
    intro i hi
    have : i = 0 ∨ i = 1 ∨ i = 2 := by omega
    rcases this with rfl | rfl | rfl
    · refine ⟨⟨le_refl _, Nat.add_le_add_left (show r.num_lt ≤ _ by omega) _⟩, fun p hp => ?_⟩
      obtain ⟨j, hj, rfl⟩ := hplace p hp
      rw [htarget j hj]
      show _ ↔ InWindow P.window.lo r.num_lt _
      rw [InWindow]
      constructor <;> intro h <;> split_ifs at * <;> omega
    · refine ⟨⟨Nat.le_add_right .., ?_⟩, fun p hp => ?_⟩
      · show P.window.lo + r.num_lt + r.num_eq ≤ _
        omega
      · obtain ⟨j, hj, rfl⟩ := hplace p hp
        rw [htarget j hj]
        show _ ↔ InWindow (P.window.lo + r.num_lt) r.num_eq _
        rw [InWindow]
        constructor <;> intro h <;> split_ifs at * <;> omega
    · refine ⟨⟨Nat.le_add_right .., ?_⟩, fun p hp => ?_⟩
      · show P.window.lo + (r.num_lt + r.num_eq) + r.num_gt ≤ _
        omega
      · obtain ⟨j, hj, rfl⟩ := hplace p hp
        rw [htarget j hj]
        show _ ↔ InWindow (P.window.lo + (r.num_lt + r.num_eq)) r.num_gt _
        rw [InWindow]
        constructor <;> intro h <;> split_ifs at * <;> omega
  have hpivot : ∀ p, (ms.area 1).Mem p → T.targetKey P.depth p = pivot := by
    intro p hp
    have hone := ((harea 1 (by omega)).2 p ((harea 1 (by omega)).1.mem hp)).mpr hp
    rw [pivotClass] at hone
    split_ifs at hone with h₁ h₂
    · exact h₂
    · omega
  have hlo : (ms.area 1).Mem (ms.area 1).lo := ⟨le_refl _, Nat.lt_add_of_pos_right hr.eq_pos⟩
  have hdepth := h.depth.sub (harea 1 (by omega)).1
  -- the areas
  have hpiece : ∀ i < 3, 0 < (ms.area i).size → ∀ d, T.DepthOk (ms.area i) d →
      T.PieceOk g ⟨P.flipped, ms.area i, d⟩ := fun i hi hpos d hd =>
    h.sub_class (pivotClass_mono pivot) hmono (harea i hi).1 hpos (harea i hi).2 hd
  refine ⟨⟨rfl, hsize, hr.eq_pos, hcache, fun hend => ?_, fun hpos => ?_, fun hpos => ?_⟩,
    fun i _ hi hpos => hpiece i hi hpos (ms.areaDepth i) ?_,
    fun i _ hi _ => hkeys.sub (harea i hi).1⟩
  rotate_right
  · rw [MKQSStep.areaDepth]
    split
    · next hrec =>
      rw [hrec.1]
      refine hdepth.deeper hpivot ?_
      simpa [hms, MKQSStep.ofPartition] using hrec.2
    · exact h.depth.sub (harea i hi).1
  · refine hdepth.const hpivot ?_ hlo
    simpa [hms, MKQSStep.ofPartition] using hend
  · -- the boundary of the smaller strings
    have hpos : 0 < r.num_lt := hpos
    have hpc := hpiece 0 (by omega) hpos P.depth (h.depth.sub (harea 0 (by omega)).1)
    have hmax : T.targetKey P.depth ((ms.area 1).lo - 1) = r.max_lt := by
      refine hpc.last_key (fun p hp => ?_) ?_
      · obtain ⟨i, hi, rfl⟩ := hplace p ((harea 0 (by omega)).1.mem hp)
        rw [show Piece.depth _ = P.depth from rfl, hvalue i hi]
        have hi' : P.window.lo + i < P.window.lo + r.num_lt := hp.2
        exact (hr.lt i (by omega)).2
      · obtain ⟨i, hi, heq⟩ := hr.max_lt hpos
        exact ⟨P.window.lo + i, ⟨Nat.le_add_right .., Nat.add_lt_add_left hi _⟩,
          (hvalue i (by omega)).trans heq⟩
    have hint : P.window.Interior (ms.area 1).lo := by
      have := hr.eq_pos
      exact ⟨Nat.lt_add_of_pos_right hpos,
        Nat.add_lt_add_left (show r.num_lt < P.window.size by omega) _⟩
    have hne : r.max_lt ≠ pivot := by
      obtain ⟨i, hi, heq⟩ := hr.max_lt hpos
      rw [← heq]
      exact (hr.lt i hi).1.ne
    obtain ⟨h₁, h₂⟩ := h.depth.boundary_lcp hint (by rw [hmax, hpivot _ hlo]; exact hne)
    rw [hmax, hpivot _ hlo] at h₁ h₂
    rw [show ms.lcp_lt = _ from if_pos hpos, show ms.dchar_eq = _ from if_pos hpos]
    exact ⟨h₁, h₂⟩
  · -- the boundary of the larger strings
    have hpos : 0 < r.num_gt := hpos
    have hpc := hpiece 2 (by omega) hpos P.depth (h.depth.sub (harea 2 (by omega)).1)
    have hmin : T.targetKey P.depth (ms.area 2).lo = r.min_gt := by
      refine hpc.first_key (fun p hp => ?_) ?_
      · obtain ⟨i, hi, rfl⟩ := hplace p ((harea 2 (by omega)).1.mem hp)
        rw [show Piece.depth _ = P.depth from rfl, hvalue i hi]
        have hi' : P.window.lo + (r.num_lt + r.num_eq) ≤ P.window.lo + i := hp.1
        exact (hr.gt i (by omega) hi).2
      · obtain ⟨i, hi, hi', heq⟩ := hr.min_gt hpos
        refine ⟨P.window.lo + i, ⟨Nat.add_le_add_left hi _, ?_⟩, (hvalue i hi').trans heq⟩
        show P.window.lo + i < P.window.lo + (r.num_lt + r.num_eq) + r.num_gt
        omega
    have hprev : (ms.area 1).Mem ((ms.area 2).lo - 1) := by
      have := hr.eq_pos
      refine ⟨?_, ?_⟩
      · show P.window.lo + r.num_lt ≤ P.window.lo + (r.num_lt + r.num_eq) - 1
        omega
      · show P.window.lo + (r.num_lt + r.num_eq) - 1 < P.window.lo + r.num_lt + r.num_eq
        omega
    have hint : P.window.Interior (ms.area 2).lo := by
      have := hr.eq_pos
      exact ⟨Nat.lt_add_of_pos_right (show 0 < r.num_lt + r.num_eq by omega),
        Nat.add_lt_add_left (show r.num_lt + r.num_eq < P.window.size by omega) _⟩
    have hne : pivot ≠ r.min_gt := by
      obtain ⟨i, hi, hi', heq⟩ := hr.min_gt hpos
      rw [← heq]
      exact (hr.gt i hi hi').1.ne
    obtain ⟨h₁, h₂⟩ := h.depth.boundary_lcp hint (by rw [hmin, hpivot _ hprev]; exact hne)
    rw [hmin, hpivot _ hprev] at h₁ h₂
    rw [show ms.lcp_gt = _ from if_pos hpos, show ms.dchar_gt = _ from if_pos hpos]
    exact ⟨h₁, h₂⟩

/-- The constructor partitions a piece. -/
theorem mkqsStep_spec (level : ℕ) (h : T.PieceOk g P) (hn : 3 ≤ P.window.size) {CacheDirty : Bool}
    (hkeys : CacheDirty = false → T.KeysOk g keys base P.depth P.window)
    (hcache : base + cache = P.window.lo) :
    ∃ ms g' keys', mkqsStep T.ss level (T.pointer P) cache P.depth CacheDirty ⟨g.mem, keys⟩ =
        some (ms, ⟨g'.mem, keys'⟩) ∧
      ms.level = level ∧ ms.idx = 0 ∧ ms.strptr = T.pointer P ∧ ms.depth = P.depth ∧
      ms.Ok T base ∧ ms.toLevel.PiecesOk T g' ∧ ms.KeysOk T g' keys' base ∧
      Effect P.window g g' ∧ KeysEffect base P.window keys keys' := by
  obtain ⟨hkeys₁, hkeffect₁⟩ := h.filled_keys CacheDirty hkeys hcache
  set keys₁ := if CacheDirty then splice keys cache P.window.size fun i => getUint64 T.ss
      ((StringRange.mk (T.cls.activeArray P.flipped) P.window.lo P.window.size).get g.mem i)
        P.depth
    else keys
  have hstart : (if CacheDirty then
      { (⟨g.mem, keys⟩ : KeyMemory S) with
        keys := splice keys cache (T.pointer P).size fun i =>
          getUint64 T.ss ((T.pointer P).active.get g.mem i) P.depth }
      else ⟨g.mem, keys⟩) = ⟨g.mem, keys₁⟩ := by
    cases CacheDirty <;> rfl
  rw [mkqsStep]
  dsimp only
  rw [hstart]
  set A := swapAt (KeyMemory.pairs ⟨g.mem, keys₁⟩ (T.pointer P).active cache) 0
    (pivotIndex (fun i => keys₁ (cache + i)) (T.pointer P).size)
  have hpos : 0 < P.window.size := by omega
  have hr : (partition Prod.snd 0 (BitVec.allOnes 64) P.window.size A).Ok Prod.snd (A 0).2
      P.window.size A := partition_ok (fun k => BitVec.not_lt.mp BitVec.not_lt_zero)
      (fun k => BitVec.not_lt.mp BitVec.not_allOnes_lt) hpos
  have hperm : (contents (partition Prod.snd 0 (BitVec.allOnes 64) P.window.size A).array
      P.window.size).Perm (contents (KeyMemory.pairs ⟨g.mem, keys₁⟩
        ⟨T.cls.activeArray P.flipped, P.window.lo, P.window.size⟩ cache) P.window.size) :=
    hr.perm.trans (swapAt_perm _ hpos (pivotIndex_lt _ hn))
  obtain ⟨g', keys', heq, heffect, hok, hkeys', hkeffect, hvalue⟩ :=
    h.rearrange_pairs hkeys₁ hcache hperm
  obtain ⟨hms, hpieces, hkeysOk⟩ := mkqsStep_areas level hok hr hkeys' hcache hvalue
  refine ⟨.ofPartition level _ _ _ _ _, g', keys', ?_, rfl, rfl, rfl, rfl, hms, hpieces, hkeysOk,
    heffect, fun i hi => (hkeffect i hi).trans (hkeffect₁ i hi)⟩
  rw [show (T.pointer P).size = P.window.size from rfl, if_pos hr.asserts]
  exact congrArg (fun m => some (_, m)) heq

end Constructor

/-! ## What is known about a step -/

namespace MKQSStep

variable {S : Type} {T : SortTask S} {g g' : Ghost S} {keys keys' : ℕ → KeyType} {base : ℕ}
  {ms : MKQSStep}

/-- Work on a window does not change the keys of areas apart from it. -/
theorem KeysOk.frame {u : Window} (h : ms.KeysOk T g keys base) (he : Effect u g g')
    (hk : KeysEffect base u keys keys') (hu : ∀ v ∈ ms.toLevel.remaining, u.Apart v) :
    ms.KeysOk T g' keys' base := fun i hi hi3 hi1 =>
  (h i hi hi3 hi1).frame he hk (hu _ (StepLevel.mem_remaining.mpr ⟨i, hi, hi3, rfl⟩))

theorem KeysOk.next (h : ms.KeysOk T g keys base) :
    ms.next.KeysOk T g keys base := fun i hi => h i (Nat.le_of_succ_le hi)

namespace Ok

theorem next (h : ms.Ok T base) : ms.next.Ok T base where
  __ := h

theorem freed (h : ms.Ok T base) : ms.freed.Ok T base where
  __ := h

/-- The pointer to the places of an area. -/
theorem sub_pointer (h : ms.Ok T base) {i offset size : ℕ}
    (hi : ms.area i = ⟨ms.strptr.active.begin + offset, size⟩) :
    ms.strptr.sub offset size = T.pointer (ms.piece i) := by
  rw [h.strptr, StringPtrClass.sub_pointer, SortTask.pointer, MKQSStep.piece, hi]
  rfl

/-- What is called for an area. -/
theorem call_eq (h : ms.Ok T base) {i : ℕ} (hi : i < 3) :
    ms.shape.call i = if i = 1 ∧ ms.eq_recurse = false then none
      else some (T.pointer (ms.piece i), ms.areaDepth i) := by
  have hcases : i = 0 ∨ i = 1 ∨ i = 2 := by omega
  rcases hcases with rfl | rfl | rfl
  · have hptr : ms.strptr.sub 0 ms.num_lt = T.pointer (ms.piece 0) := h.sub_pointer rfl
    rw [if_neg (by simp), ← hptr]
    rfl
  · have hptr : ms.strptr.sub ms.num_lt ms.num_eq = T.pointer (ms.piece 1) := h.sub_pointer rfl
    rw [← hptr, areaDepth, shape]
    cases ms.eq_recurse <;> rfl
  · have hptr : ms.strptr.sub (ms.num_lt + ms.num_eq) ms.num_gt = T.pointer (ms.piece 2) :=
      h.sub_pointer rfl
    rw [if_neg (by simp), ← hptr]
    rfl

theorem area_eq (h : ms.Ok T base) {i : ℕ} (hi : i < 3) : ms.area i = tile ms.bounds i := by
  have hsize : ms.num_lt + ms.num_eq + ms.num_gt = ms.strptr.size := h.size
  have hcases : i = 0 ∨ i = 1 ∨ i = 2 := by omega
  rcases hcases with rfl | rfl | rfl <;>
    simp only [tile, area, bounds, Window.mk.injEq, true_and] <;> omega

theorem bounds_mono (h : ms.Ok T base) : ∀ i < 3, ms.bounds i ≤ ms.bounds (i + 1) := by
  have hsize : ms.num_lt + ms.num_eq + ms.num_gt = ms.strptr.size := h.size
  intro i hi
  have hcases : i = 0 ∨ i = 1 ∨ i = 2 := by omega
  rcases hcases with rfl | rfl | rfl <;> simp only [bounds] <;> omega

/-- The window of a step whose strings have been partitioned is covered by the areas. -/
theorem covers (h : ms.Ok T base) (g : Ghost S) (hidx : ms.idx = 0) :
    T.Covers g ms.window ms.toLevel.remaining ms.Promises := by
  have htiles : ms.toLevel.remaining = (List.range 3).map (tile ms.bounds) := by
    show ((List.range 3).drop ms.idx).map ms.area = _
    rw [hidx]
    exact List.map_congr_left fun i hi => h.area_eq (List.mem_range.mp hi)
  rw [htiles]
  refine (SortTask.Covers.tiles T g h.bounds_mono rfl rfl).imp fun p hp ⟨i, hi, heq⟩ => ?_
  -- a boundary within the window has strings on both of its sides
  have hsize : ms.num_lt + ms.num_eq + ms.num_gt = ms.strptr.size := h.size
  have hlo : ms.strptr.active.begin < p := hp.1
  have hhi : p < ms.strptr.active.begin + ms.strptr.size := hp.2
  have hcases : i = 0 ∨ i = 1 ∨ i = 2 := by omega
  rcases hcases with rfl | rfl | rfl <;> simp only [bounds] at heq
  · omega
  · exact Or.inl ⟨by omega, heq⟩
  · exact Or.inr ⟨by omega, heq⟩

/-- A new step and the steps of its areas do less than has been set aside for its window. -/
theorem rank_le (h : ms.Ok T base) {g : Ghost S} (hp : ms.toLevel.PiecesOk T g) (hidx : ms.idx = 0)
    (hdepth : T.DepthOk ms.window ms.depth) :
    ms.toLevel.rank T + T.total + 2 ^ 12 ≤ T.windowRank ms.window ms.depth := by
  refine StepLevel.rank_le hidx (show 3 ≤ 2047 by norm_num) (fun i hi => h.area_eq hi)
    h.bounds_mono ?_ hdepth (fun i _ _ => ?_) ⟨1, show 1 < 3 by norm_num, h.eq_pos, ?_⟩
  · exact congrArg (Window.mk _) (Nat.add_sub_cancel_left ..).symm
  · show ms.depth ≤ ms.areaDepth i
    rw [areaDepth]
    split <;> omega
  · show ms.shape.call 1 = none ∨ ms.depth < ms.areaDepth 1 ∧ T.DepthOk (ms.area 1) (ms.areaDepth 1)
    rw [h.call_eq (by norm_num)]
    by_cases hrec : ms.eq_recurse = false
    · exact Or.inl (if_pos ⟨rfl, hrec⟩)
    · refine Or.inr ⟨?_, (hp 1 (hidx.le.trans (Nat.zero_le _)) (show 1 < 3 by norm_num) h.eq_pos).depth⟩
      rw [areaDepth, if_pos ⟨rfl, Bool.not_eq_false _ ▸ hrec⟩]
      omega

/-- `set_lcp` and `set_cache` write an entry that has been promised, if there is one. -/
private theorem entry (h : ms.Ok T base) (g : Ghost S) {num offset v : ℕ} {c : CharType}
    (hv : 0 < num → T.lcpAt (ms.window.lo + offset) = v ∧
      (T.target (ms.window.lo + offset)).getD (T.lcpAt (ms.window.lo + offset)) 0 = c) :
    T.EntriesRight (fun p => 0 < num ∧ p = ms.window.lo + offset) g
      ⟨if num > 0 then T.cls.setCache ms.strptr.original offset c
        (T.cls.setLcp ms.strptr.original offset v g.mem) else g.mem, g.value⟩ := by
  have hptr : ms.strptr.original = T.cls.pointer false ms.window.lo ms.window.size := by
    rw [h.strptr]
    exact StringPtrClass.original_pointer ..
  by_cases hnum : num > 0
  · obtain ⟨hlcp, hchar⟩ := hv hnum
    have hentry := setEntry_written T g false ms.window.lo ms.window.size offset hlcp hchar
    rw [if_pos hnum, hptr]
    simpa only [hnum, true_and] using EntriesRight.of_entryWritten hentry
  · rw [if_neg hnum]
    exact EntriesRight.none T g fun p hp => hnum hp.1

/-- `calculate_lcp` writes the entries that have been promised. -/
theorem calculated (h : ms.Ok T base) (g : Ghost S) :
    ms.toLevel.Calculated T g ⟨ms.calculateLcp T.cls g.mem, g.value⟩ where
  entries := (h.entry g h.lcp_lt).trans (h.entry _ h.lcp_gt)
  interior p hp := by
    have hsize := h.size
    have hpos := h.eq_pos
    rcases hp with ⟨hnum, rfl⟩ | ⟨hnum, rfl⟩
    · exact ⟨Nat.lt_add_of_pos_right hnum,
        Nat.add_lt_add_left (show ms.num_lt < ms.window.size by omega) _⟩
    · exact ⟨Nat.lt_add_of_pos_right (by omega),
        Nat.add_lt_add_left (show ms.num_lt + ms.num_eq < ms.window.size by omega) _⟩

end Ok

end MKQSStep

end StringSampleSort
