import StringSampleSort.Parallel.PieceSplit

/-!
# Insertion sort with cached keys

Model of `insertion_sort_cache_block` and `insertion_sort_cache` of
`src/parallel/bingmann-parallel_sample_sort.hpp`.  The keys of the strings of a window lie in a
buffer of the job.  Strings are sorted by them, and groups of equal keys are sorted deeper or, when
the key contains the terminator, only get their common prefix.

## Main results

- `insertionSortCacheBlock_spec`: the strings and their keys are sorted by key
- `finishGroup_spec`: what the end of a group does
- `insertionSortCache_finishes`: a piece is finished, when its keys are right or are not used
-/

namespace StringSampleSort

open Library Slice SortTask

/-! ## Model -/

/-- The memory, and the buffer in which a job keeps keys. -/
@[ext] structure KeyMemory (S : Type) where
  mem : Memory S
  keys : ℕ → KeyType

section Model

variable {S : Type}

/-- The strings of a range, each with the key in the buffer from `cache` on. -/
def KeyMemory.pairs (m : KeyMemory S) (r : StringRange) (cache i : ℕ) : S × KeyType :=
  (r.get m.mem i, m.keys (cache + i))

/-- The strings of a range and their keys are overwritten. -/
def KeyMemory.writePairs (m : KeyMemory S) (r : StringRange) (cache : ℕ) (B : ℕ → S × KeyType) :
    KeyMemory S where
  mem := m.mem.write r fun i => (B i).1
  keys := splice m.keys cache r.size fun i => (B i).2

variable (cls : StringPtrClass) (ss : StringSet S)

/-- `insertion_sort_cache_block(strptr, cache)`. -/
def insertionSortCacheBlock (strptr : StringPtr) (cache : ℕ) (m : KeyMemory S) : KeyMemory S :=
  let strings := cls.output strptr
  m.writePairs strings cache
    (insertionSort (fun a b => decide (a.2 ≤ b.2)) strptr.size (m.pairs strings cache))

/-- The end of the group of `bktsize` equal keys from `start` on. -/
def finishGroup (strptr : StringPtr) (cache : ℕ → KeyType) (depth start bktsize : ℕ)
    (m : Memory S) : Memory S :=
  -- calculate LCP between group areas
  let m :=
    if start ≠ 0 then
      let rlcp := lcpKeyType (cache (start - 1)) (cache start)
      cls.setCache strptr start (getCharAtDepth (cache start) rlcp)
        (cls.setLcp strptr start (depth + rlcp) m)
    else m
  -- sort group areas deeper if needed
  if bktsize > 1 then
    if lowByte (cache start) ≠ 0 then
      cls.insertionSort ss (strptr.sub start bktsize) (depth + 8) m
    else cls.fillLcp (strptr.sub start bktsize) (depth + lcpKeyDepth (cache start)) m
  else m

/-- `start`, `bktsize` and the memory, in the loop over the groups. -/
structure GroupState (S : Type) where
  start : ℕ
  bktsize : ℕ
  mem : Memory S

/-- One round of the loop over the groups. -/
def groupRound (strptr : StringPtr) (cache : ℕ → KeyType) (depth : ℕ) (s : GroupState S) (i : ℕ) :
    GroupState S :=
  if cache i = cache (i + 1) then { s with bktsize := s.bktsize + 1 }
  else
    { start := i + 1
      bktsize := 1
      mem := finishGroup cls ss strptr cache depth s.start s.bktsize s.mem }

/-- `insertion_sort_cache<CacheDirty>(_strptr, cache, depth)`. -/
def insertionSortCache (CacheDirty : Bool) (_strptr : StringPtr) (cache depth : ℕ)
    (m : KeyMemory S) : KeyMemory S :=
  let r := cls.copyBack _strptr m.mem
  let strptr := r.1
  if strptr.size ≤ 1 then { m with mem := r.2 }
  else if CacheDirty then { m with mem := cls.insertionSort ss strptr depth r.2 }
  else
    let m := insertionSortCacheBlock cls strptr cache { m with mem := r.2 }
    let key := fun i => m.keys (cache + i)
    let s := (List.range (strptr.size - 1)).foldl (groupRound cls ss strptr key depth)
      ⟨0, 1, m.mem⟩
    -- tail of loop for last item
    { m with mem := finishGroup cls ss strptr key depth s.start s.bktsize s.mem }

end Model

/-! ## Keys of a window -/

section Keys

variable {S : Type} {T : SortTask S} {g g' : Ghost S} {keys keys' : ℕ → KeyType} {base depth : ℕ}
  {u w : Window}

/-- The buffer, in which place `i` belongs to place `base + i` of the strings, holds the keys of
the strings of the window. -/
def SortTask.KeysOk (T : SortTask S) (g : Ghost S) (keys : ℕ → KeyType) (base depth : ℕ)
    (w : Window) : Prop :=
  ∀ i, w.Mem (base + i) → keys i = T.valueKey g depth (base + i)

/-- Only keys of the window change. -/
def KeysEffect (base : ℕ) (w : Window) (keys keys' : ℕ → KeyType) : Prop :=
  ∀ i, ¬ w.Mem (base + i) → keys' i = keys i

theorem KeysEffect.refl (base : ℕ) (w : Window) (keys : ℕ → KeyType) :
    KeysEffect base w keys keys := fun _ _ => rfl

theorem SortTask.KeysOk.sub (h : T.KeysOk g keys base depth w) (hu : u.Inside w) :
    T.KeysOk g keys base depth u := fun i hi => h i (hu.mem hi)

/-- Work on a window leaves the keys of a window apart from it alone. -/
theorem SortTask.KeysOk.frame (h : T.KeysOk g keys base depth w) (he : Effect u g g')
    (hk : KeysEffect base u keys keys') (huw : u.Apart w) : T.KeysOk g' keys' base depth w := by
  intro i hi
  have hout := huw.symm.not_mem hi
  rw [hk i hout, h i hi, valueKey, valueKey, he.value _ hout]

end Keys

/-! ## Sorting by key -/

section Block

variable {S : Type} {T : SortTask S} {g : Ghost S} {P : Piece} {keys : ℕ → KeyType}
  {base cache : ℕ}

/-- The strings and keys of a piece, rearranged. -/
theorem SortTask.PieceOk.rearrange_pairs (h : T.PieceOk g P)
    (hkeys : T.KeysOk g keys base P.depth P.window) (hcache : base + cache = P.window.lo)
    {B : ℕ → S × KeyType}
    (hB : (contents B P.window.size).Perm (contents (KeyMemory.pairs ⟨g.mem, keys⟩
      ⟨T.cls.activeArray P.flipped, P.window.lo, P.window.size⟩ cache) P.window.size)) :
    ∃ g' keys', KeyMemory.writePairs ⟨g.mem, keys⟩
        ⟨T.cls.activeArray P.flipped, P.window.lo, P.window.size⟩ cache B = ⟨g'.mem, keys'⟩ ∧
      Effect P.window g g' ∧ T.PieceOk g' P ∧ T.KeysOk g' keys' base P.depth P.window ∧
      KeysEffect base P.window keys keys' ∧
      ∀ i < P.window.size, T.valueKey g' P.depth (P.window.lo + i) = (B i).2 := by
  have hin : ∀ i < P.window.size, P.window.Mem (P.window.lo + i) := fun i hi =>
    ⟨Nat.le_add_right .., Nat.add_lt_add_left hi _⟩
  have hread : ∀ i < P.window.size, StringRange.get
      ⟨T.cls.activeArray P.flipped, P.window.lo, P.window.size⟩ g.mem i =
        g.value (P.window.lo + i) := fun i hi => (h.value _ (hin i hi)).symm
  have hstrings : Rearranges g P fun i => (B i).1 := by
    have hmap := hB.map Prod.fst
    rw [contents, contents, List.map_map, List.map_map] at hmap
    exact hmap.trans (List.Perm.of_eq (contents_congr hread))
  -- each pair still consists of a string and its key
  have hpair : ∀ i < P.window.size, (B i).2 = keyAt (T.ss.chars (B i).1) P.depth := by
    intro i hi
    obtain ⟨j, hj, heq⟩ := mem_contents.mp (hB.mem_iff.mp (mem_contents.mpr ⟨i, hi, rfl⟩))
    have hmem : P.window.Mem (base + (cache + j)) := by
      rw [← Nat.add_assoc, hcache]
      exact hin j hj
    rw [← heq, KeyMemory.pairs]
    dsimp only
    rw [hread j hj, hkeys _ hmem, valueKey, ← Nat.add_assoc, hcache]
  obtain ⟨heffect, hok⟩ := h.rearrange P.flipped hstrings
  have hvalue : ∀ i < P.window.size, T.valueKey (g.rearranged (g.mem.write
      ⟨T.cls.activeArray P.flipped, P.window.lo, P.window.size⟩ fun i => (B i).1) P.window
        fun i => (B i).1) P.depth (P.window.lo + i) = (B i).2 := by
    intro i hi
    rw [valueKey, Ghost.rearranged_value _ _ _ (hin i hi), Nat.add_sub_cancel_left, ← hpair i hi]
  refine ⟨_, splice keys cache P.window.size fun i => (B i).2, rfl, heffect, hok, ?_, ?_, hvalue⟩
  · rintro i ⟨h₁, h₂⟩
    have hi : InWindow cache P.window.size i := ⟨by omega, by omega⟩
    rw [splice_of_in _ _ hi, ← hvalue (i - cache) (by omega),
      show P.window.lo + (i - cache) = base + i by omega]
  · intro i hi
    refine splice_of_not_in _ _ fun hin => hi ⟨?_, ?_⟩
    · have := hin.1
      omega
    · have := hin.2
      omega

/-- The strings of a piece in the output array and their keys are sorted by key. -/
theorem insertionSortCacheBlock_spec (h : T.PieceOk g P) (hout : P.flipped = T.cls.hasOutput)
    (hkeys : T.KeysOk g keys base P.depth P.window) (hcache : base + cache = P.window.lo) :
    ∃ g' keys', insertionSortCacheBlock T.cls (T.cls.pointer false P.window.lo P.window.size)
        cache ⟨g.mem, keys⟩ = ⟨g'.mem, keys'⟩ ∧
      Effect P.window g g' ∧ T.PieceOk g' P ∧ T.KeysOk g' keys' base P.depth P.window ∧
      KeysEffect base P.window keys keys' ∧
      MonotoneIn (id ∘ T.valueKey g' P.depth) P.window.lo P.window.size := by
  have hactive : T.cls.outputArray = T.cls.activeArray P.flipped := by
    rw [hout, activeArray_hasOutput]
  have hdecides : Decides (fun a b : S × KeyType => decide (a.2 ≤ b.2)) Prod.snd
      fun _ => True := by
    intro a b _ _
    rw [decide_eq_true_iff, decide_eq_false_iff_not]
    exact ⟨fun hle => hle, fun hgt => (not_le.mp hgt).le⟩
  obtain ⟨hsorted, hperm, -⟩ := insertionSort_spec hdecides
    (A := KeyMemory.pairs ⟨g.mem, keys⟩
      ⟨T.cls.activeArray P.flipped, P.window.lo, P.window.size⟩ cache) h.pos fun _ _ => trivial
  obtain ⟨g', keys', heq, heffect, hok, hkeys', hkeffect, hvalue⟩ :=
    h.rearrange_pairs hkeys hcache hperm
  refine ⟨g', keys', ?_, heffect, hok, hkeys', hkeffect, fun p q hp hq hpq => ?_⟩
  · rw [← heq, insertionSortCacheBlock, StringPtrClass.output_pointer, hactive]
    rfl
  · obtain ⟨i, rfl⟩ := Nat.exists_eq_add_of_le hp.1
    obtain ⟨j, rfl⟩ := Nat.exists_eq_add_of_le hq.1
    have hi : i < P.window.size := by
      have := hp.2
      omega
    have hj : j < P.window.size := by
      have := hq.2
      omega
    show T.valueKey g' P.depth _ ≤ T.valueKey g' P.depth _
    rw [hvalue i hi, hvalue j hj]
    exact hsorted i j ⟨Nat.zero_le _, by omega⟩ ⟨Nat.zero_le _, by omega⟩ (by omega)

end Block

/-! ## Groups -/

section Groups

variable {S : Type} {T : SortTask S} {g₀ g : Ghost S} {w : Window} {depth start bktsize : ℕ}
  {K : ℕ → KeyType}

/-- A window in the output array whose strings are arranged by key; `K` lists the keys. -/
structure SortedByKey (T : SortTask S) (g : Ghost S) (w : Window) (depth : ℕ) (K : ℕ → KeyType) :
    Prop where
  piece : T.PieceOk g ⟨T.cls.hasOutput, w, depth⟩
  mono : MonotoneIn (id ∘ T.valueKey g depth) w.lo w.size
  key : ∀ i < w.size, T.targetKey depth (w.lo + i) = K i

/-- The groups of the first `start` places are finished, and nothing has happened behind them; the
entry there comes next. -/
structure GroupsDone (T : SortTask S) (g₀ g : Ghost S) (w : Window) (start : ℕ) : Prop where
  effect : Effect w g₀ g
  agree : Agree (w.rest start) g₀ g
  covers : T.Covers g w [w.rest start] fun p => p = w.lo + start ∧ 0 < start

/-- The places from `start` on are a maximal group of equal keys. -/
structure IsGroup (K : ℕ → KeyType) (n start bktsize : ℕ) : Prop where
  pos : 0 < bktsize
  bound : start + bktsize ≤ n
  eq : ∀ i, start ≤ i → i < start + bktsize → K i = K start
  first : start ≠ 0 → K (start - 1) ≠ K start
  last : start + bktsize < n → K start ≠ K (start + bktsize)

theorem SortedByKey.mono_key (h : SortedByKey T g w depth K) {i j : ℕ} (hij : i ≤ j)
    (hj : j < w.size) : K i ≤ K j := by
  have hin : ∀ i < w.size, w.Mem (w.lo + i) := fun i hi =>
    ⟨Nat.le_add_right .., Nat.add_lt_add_left hi _⟩
  rw [← h.key i (by omega), ← h.key j hj]
  exact h.piece.depth.targetKey_mono h.piece.bound _ _ (hin i (by omega)) (hin j hj) (by omega)

/-- The places of a group are those with its key. -/
theorem SortedByKey.group_iff (h : SortedByKey T g w depth K) (hg : IsGroup K w.size start bktsize)
    {i : ℕ} (hi : i < w.size) : K i = K start ↔ start ≤ i ∧ i < start + bktsize := by
  have hpos := hg.pos
  refine ⟨fun heq => ⟨?_, ?_⟩, fun ⟨h₁, h₂⟩ => hg.eq i h₁ h₂⟩
  · -- before the group the keys are smaller
    by_contra hlt
    have h₁ := h.mono_key (i := i) (j := start - 1) (by omega) (by have := hg.bound; omega)
    have h₂ := h.mono_key (i := start - 1) (j := start) (by omega) (by have := hg.bound; omega)
    exact hg.first (by omega) (le_antisymm h₂ (heq ▸ h₁))
  · by_contra hge
    have h₁ := h.mono_key (i := start) (j := start + bktsize) (by omega) (by omega)
    have h₂ := h.mono_key (i := start + bktsize) (j := i) (by omega) hi
    exact hg.last (by omega) (le_antisymm h₁ (heq ▸ h₂))

/-- The strings of a group are a piece, at any depth up to which they agree. -/
theorem SortedByKey.group_piece (h : SortedByKey T g w depth K)
    (hg : IsGroup K w.size start bktsize) {d : ℕ} (hd : T.DepthOk ⟨w.lo + start, bktsize⟩ d) :
    T.PieceOk g ⟨T.cls.hasOutput, ⟨w.lo + start, bktsize⟩, d⟩ := by
  have hbound := hg.bound
  refine h.piece.sub_class monotone_id h.mono (u := ⟨w.lo + start, bktsize⟩) (k := K start)
    ⟨Nat.le_add_right .., by simp only; omega⟩ hg.pos (fun p hp => ?_) hd
  obtain ⟨i, rfl⟩ := Nat.exists_eq_add_of_le hp.1
  have hi : i < w.size := by
    have := hp.2
    simp only at this
    omega
  show T.targetKey depth (w.lo + i) = K start ↔ InWindow (w.lo + start) bktsize (w.lo + i)
  rw [h.key i hi, h.group_iff hg hi, InWindow]
  omega

/-- The entry in front of a group is written. -/
theorem GroupsDone.set_lcp (hw : SortedByKey T g₀ w depth K) (h : GroupsDone T g₀ g w start)
    (hg : IsGroup K w.size start bktsize) :
    let m := if start ≠ 0 then
        T.cls.setCache (T.cls.pointer false w.lo w.size) start
          (getCharAtDepth (K start) (lcpKeyType (K (start - 1)) (K start)))
          (T.cls.setLcp (T.cls.pointer false w.lo w.size) start
            (depth + lcpKeyType (K (start - 1)) (K start)) g.mem)
      else g.mem
    Effect w g₀ ⟨m, g.value⟩ ∧ Agree (w.rest start) g₀ ⟨m, g.value⟩ ∧
      T.Covers ⟨m, g.value⟩ w [w.rest start] fun _ => False := by
  intro m
  by_cases h0 : start = 0
  · rw [show m = g.mem from if_neg (not_not.mpr h0)]
    exact ⟨h.effect, h.agree, h.covers.imp fun p _ hp => by omega⟩
  have hpos := hg.pos
  have hbound := hg.bound
  have hint : w.Interior (w.lo + start) := ⟨by omega, by omega⟩
  -- the entry is that of the boundary
  have hprev := hw.key (start - 1) (by omega)
  have hthis := hw.key start (by omega)
  rw [show w.lo + (start - 1) = w.lo + start - 1 by omega] at hprev
  obtain ⟨h₁, h₂⟩ := hw.piece.depth.boundary_lcp hint (by
    rw [hprev, hthis]
    exact hg.first h0)
  rw [hprev, hthis] at h₁ h₂
  have hentry := setEntry_written T g false w.lo w.size start h₁ h₂
  rw [show m = _ from if_pos h0]
  exact ⟨h.effect.trans (hentry.effect hint),
    h.agree.trans (hentry.agree fun hin => lt_irrefl _ hin.1),
    (hentry.covers h.covers).imp fun p _ hp => hp.2 hp.1.1⟩

/-- The end of a group finishes its strings. -/
theorem finishGroup_spec (hw : SortedByKey T g₀ w depth K) (h : GroupsDone T g₀ g w start)
    (hg : IsGroup K w.size start bktsize) :
    ∃ g', g'.mem = finishGroup T.cls T.ss (T.cls.pointer false w.lo w.size) K depth start bktsize
        g.mem ∧ GroupsDone T g₀ g' w (start + bktsize) := by
  obtain ⟨heffect, hagree, hcovers⟩ := h.set_lcp hw hg
  rw [finishGroup, StringPtrClass.sub_pointer]
  set m := if start ≠ 0 then
      T.cls.setCache (T.cls.pointer false w.lo w.size) start
        (getCharAtDepth (K start) (lcpKeyType (K (start - 1)) (K start)))
        (T.cls.setLcp (T.cls.pointer false w.lo w.size) start
          (depth + lcpKeyType (K (start - 1)) (K start)) g.mem)
    else g.mem
  have hbound := hg.bound
  let u : Window := ⟨w.lo + start, bktsize⟩
  have hu : u.Inside (w.rest start) := ⟨le_refl _, by simp only [Window.rest, u]; omega⟩
  have huw : u.Inside w := ⟨Nat.le_add_right .., by simp only [u]; omega⟩
  have hulo : u.Mem u.lo := ⟨le_refl _, Nat.lt_add_of_pos_right hg.pos⟩
  have hukey : ∀ p, u.Mem p → T.targetKey depth p = K start := by
    rintro p ⟨h₁, h₂⟩
    obtain ⟨i, rfl⟩ := Nat.exists_eq_add_of_le (huw.1.trans h₁)
    simp only [u] at h₁ h₂
    rw [hw.key i (by omega), hg.eq i (by omega) (by omega)]
  have hudepth := hw.piece.depth.sub huw
  -- the group and what comes behind it
  have htiles : T.Covers ⟨m, g.value⟩ (w.rest start) [u, w.rest (start + bktsize)]
      fun p => p = w.lo + (start + bktsize) ∧ 0 < start + bktsize := by
    have hcut := SortTask.Covers.cut T ⟨m, g.value⟩ (w := w.rest start) (k := bktsize)
      (by simp only [Window.rest]; omega)
    rw [Window.rest_rest] at hcut
    refine hcut.imp fun p _ hp => ?_
    have hpos := hg.pos
    exact ⟨hp.trans (Nat.add_assoc ..), by omega⟩
  have hcovers' := hcovers.replace (Effect.refl _ _) htiles
  -- sorting the group
  obtain ⟨g', hmem, he, hc⟩ : ∃ g', g'.mem = (if bktsize > 1 then
      if lowByte (K start) ≠ 0 then
        T.cls.insertionSort T.ss (T.cls.pointer false (w.lo + start) bktsize) (depth + 8) m
      else T.cls.fillLcp (T.cls.pointer false (w.lo + start) bktsize)
        (depth + lcpKeyDepth (K start)) m
      else m) ∧ Effect u ⟨m, g.value⟩ g' ∧ T.Covers g' u [] fun _ => False := by
    split
    · split
      · next hlow =>
        exact insertionSort_finishes ((hw.group_piece hg (hudepth.deeper hukey hlow)).agree
          (hagree.sub hu)) rfl
      · next hlow =>
        obtain ⟨hconst, hlen⟩ := hudepth.const hukey (not_not.mp hlow) hulo
        exact fillLcp_output_finishes ((hw.group_piece hg hudepth).agree (hagree.sub hu)) rfl
          hconst hlen
    · next hone =>
      have hpos := hg.pos
      exact ⟨_, rfl, Effect.refl _ _, ((hw.group_piece hg hudepth).agree
        (hagree.sub hu)).single_finished rfl (by simp only; omega)⟩
  have hrest : (w.rest (start + bktsize)).Inside (w.rest start) :=
    ⟨by simp only [Window.rest]; omega, by simp only [Window.rest]; omega⟩
  refine ⟨g', hmem, heffect.trans (he.widen huw), (hagree.sub hrest).trans (he.agree (Or.inl ?_)),
    (hcovers'.replace he hc).imp fun p _ hp => by tauto⟩
  simp only [u, Window.rest]
  omega

/-- The groups in front of the one that is looked at are finished. -/
structure GroupInv (T : SortTask S) (g₀ : Ghost S) (w : Window) (K : ℕ → KeyType) (k : ℕ)
    (s : GroupState S) : Prop where
  pos : 0 < s.bktsize
  place : s.start + s.bktsize = k + 1
  eq : ∀ i, s.start ≤ i → i ≤ k → K i = K s.start
  first : s.start ≠ 0 → K (s.start - 1) ≠ K s.start
  done : ∃ g, g.mem = s.mem ∧ GroupsDone T g₀ g w s.start

/-- The loop finishes all groups but the last. -/
theorem groupLoop_spec (hw : SortedByKey T g₀ w depth K) {k : ℕ} (hk : k < w.size) :
    GroupInv T g₀ w K k ((List.range k).foldl
      (groupRound T.cls T.ss (T.cls.pointer false w.lo w.size) K depth) ⟨0, 1, g₀.mem⟩) := by
  induction k with
  | zero =>
    refine ⟨one_pos, rfl, fun i _ hi => by rw [Nat.le_zero.mp hi]; rfl,
      fun h => absurd rfl h,
      g₀, rfl, Effect.refl _ _, Agree.refl _ _, ?_⟩
    exact (SortTask.Covers.whole T g₀ w).imp fun _ _ h => absurd h id
  | succ k ih =>
    obtain ⟨hpos, hplace, heq, hfirst, g, hmem, hdone⟩ := ih (by omega)
    rw [List.range_succ, List.foldl_append, List.foldl_cons, List.foldl_nil]
    set s := (List.range k).foldl
      (groupRound T.cls T.ss (T.cls.pointer false w.lo w.size) K depth) ⟨0, 1, g₀.mem⟩
    have hks : K k = K s.start := heq k (by omega) (le_refl _)
    rw [groupRound]
    split
    · next hsame =>
      refine ⟨Nat.succ_pos _, by simp only; omega, fun i hi hik => ?_, hfirst, g, hmem, hdone⟩
      rcases Nat.eq_or_lt_of_le hik with rfl | hlt
      · exact hsame.symm.trans hks
      · exact heq i hi (by omega)
    · next hdiff =>
      have hgroup : IsGroup K w.size s.start s.bktsize :=
        ⟨hpos, by omega, fun i hi hi' => heq i hi (by omega), hfirst, fun _ => by
          rwa [hplace, ← hks]⟩
      obtain ⟨g', hmem', hdone'⟩ := finishGroup_spec hw hdone hgroup
      rw [hplace] at hdone'
      refine ⟨one_pos, rfl, fun i hi hik => ?_, fun _ => hdiff, g', hmem'.trans (by rw [hmem]),
        hdone'⟩
      simp only at hi
      rw [show i = k + 1 by omega]

end Groups

/-! ## The sort -/

section Finish

variable {S : Type} {T : SortTask S} {g : Ghost S} {P : Piece} {keys : ℕ → KeyType}
  {base cache : ℕ}

/-- `insertion_sort_cache` finishes a piece. -/
theorem insertionSortCache_finishes {CacheDirty : Bool} (h : T.PieceOk g P)
    (hkeys : CacheDirty = false → T.KeysOk g keys base P.depth P.window)
    (hcache : base + cache = P.window.lo) :
    ∃ g' keys', insertionSortCache T.cls T.ss CacheDirty (T.pointer P) cache P.depth
        ⟨g.mem, keys⟩ = ⟨g'.mem, keys'⟩ ∧
      Effect P.window g g' ∧ T.Covers g' P.window [] (fun _ => False) ∧
      KeysEffect base P.window keys keys' := by
  obtain ⟨heffect, hok⟩ := copyOut_spec h
  rw [insertionSortCache, SortTask.pointer, StringPtrClass.copyBack_pointer]
  dsimp only
  rw [StringPtrClass.size_pointer]
  split
  · next hle =>
    have hone : P.window.size = 1 := by
      have := h.pos
      omega
    exact ⟨_, _, rfl, heffect, hok.single_finished rfl hone, KeysEffect.refl _ _ _⟩
  split
  · obtain ⟨g', hmem, heffect', hcovers⟩ := insertionSort_finishes hok rfl
    exact ⟨g', keys, by rw [hmem], heffect.trans heffect', hcovers, KeysEffect.refl _ _ _⟩
  · next hclean =>
    have hkeysOk : T.KeysOk ⟨T.cls.copyOut P.flipped P.window.lo P.window.size g.mem, g.value⟩
        keys base P.depth P.window := hkeys (Bool.not_eq_true _ ▸ hclean)
    obtain ⟨g₂, keys', heq, heffect₂, hok₂, hkeys₂, hkeffect, hmono⟩ :=
      insertionSortCacheBlock_spec hok rfl hkeysOk hcache
    rw [heq]
    dsimp only
    -- the keys are now those of the target
    have hw : SortedByKey T g₂ P.window P.depth fun i => keys' (cache + i) := by
      refine ⟨hok₂, hmono, fun i hi => ?_⟩
      have hin : P.window.Mem (base + (cache + i)) := by
        rw [← Nat.add_assoc, hcache]
        exact ⟨Nat.le_add_right .., Nat.add_lt_add_left hi _⟩
      rw [hkeys₂ _ hin, ← Nat.add_assoc, hcache]
      rw [← Nat.add_assoc, hcache] at hin
      exact (hok₂.class_eq monotone_id hmono hin).symm
    obtain ⟨hpos, hplace, hkeq, hfirst, g₃, hmem, hdone⟩ :=
      groupLoop_spec hw (k := P.window.size - 1) (by have := h.pos; omega)
    have hend : P.window.size - 1 + 1 = P.window.size := by
      have := h.pos
      omega
    rw [hend] at hplace
    obtain ⟨g', hmem', hdone'⟩ := finishGroup_spec hw hdone
      ⟨hpos, hplace.le, fun i hi hi' => hkeq i hi (by omega), hfirst, fun hlt => by omega⟩
    rw [hplace] at hdone'
    refine ⟨g', keys', ?_, (heffect.trans heffect₂).trans hdone'.effect, ?_, hkeffect⟩
    · rw [hmem', hmem]
    · refine (hdone'.covers.finish (SortTask.Covers.empty ?_)).imp fun p hp hpr => ?_
      · exact Nat.sub_self _
      · have := hp.2
        omega

end Finish

end StringSampleSort
