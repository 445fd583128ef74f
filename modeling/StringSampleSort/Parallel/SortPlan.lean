import StringSampleSort.Library.FreedStack
import StringSampleSort.Parallel.PieceSplit
import Mathlib.Algebra.Group.Action.Defs

/-!
# The levels of a job

A `SmallsortJob` keeps its steps on two stacks, and hands over parts of the lowest ones.  Here a
step is only seen as a level: the windows of its parts, what is called for them, and the entries
that it will write.

What is left to do in the window of a job are the parts that its levels have not dealt with, and
those that have been handed over.  No two of these windows have a place in common, and all entries
that do not belong to one of them are right, or promised by a level.

## Main results

- `SortPlan.take`: the next part of a level is taken in hand
- `SortPlan.finish`, `SortPlan.push`, `SortPlan.handOver`: what becomes of a part in hand
- `SortPlan.close`, `SortPlan.closeFreed`: a level writes its entries
- `SortPlan.subEffect`, `SortPlan.join`: parts that have been handed over
-/

namespace StringSampleSort

open Library Slice SortTask

/-! ## Levels -/

/-- A range that is to be sorted, and the depth from which on. -/
abbrev RangeCall := StringPtr × ℕ

/-- A step of a job: its window, the piece that each of its parts is, and the entries that it
writes in the end. -/
structure StepLevel where
  frame : Frame RangeCall
  window : Window
  piece : ℕ → Piece
  Promises : ℕ → Prop
  size_eq : ∀ i, frame.shape.size i = (piece i).window.size

/-- Work that has been handed over: part `part.2` of level `part.1`. -/
structure WorkShare where
  part : ℕ × ℕ
  window : Window
  deriving DecidableEq, Repr

namespace StepLevel

variable {S : Type} {T : SortTask S} {g g' : Ghost S} {l : StepLevel}

/-- The level after its next part has been dealt with. -/
def next (l : StepLevel) : StepLevel := { l with frame := { l.frame with idx := l.frame.idx + 1 } }

/-- The window of a part. -/
def area (l : StepLevel) (i : ℕ) : Window := (l.piece i).window

/-- The parts that have not been dealt with. -/
def remaining (l : StepLevel) : List Window :=
  ((List.range l.frame.shape.parts).drop l.frame.idx).map l.area

/-- The parts that are left are pieces. -/
def PiecesOk (T : SortTask S) (g : Ghost S) (l : StepLevel) : Prop :=
  ∀ i, l.frame.idx ≤ i → i < l.frame.shape.parts → 0 < (l.area i).size → T.PieceOk g (l.piece i)

theorem mem_remaining {u : Window} :
    u ∈ l.remaining ↔ ∃ i, l.frame.idx ≤ i ∧ i < l.frame.shape.parts ∧ l.area i = u := by
  -- the parts from `idx` on, counted from `idx`
  simp only [remaining, List.mem_map, List.mem_drop_iff_getElem, List.length_range]
  constructor
  · rintro ⟨i, ⟨j, hj, rfl⟩, rfl⟩
    exact ⟨_, by simp, by simpa [Nat.add_comm] using hj, rfl⟩
  · rintro ⟨i, hi, hparts, rfl⟩
    exact ⟨i, ⟨i - l.frame.idx, by omega, by simp [Nat.add_sub_cancel' hi]⟩, rfl⟩

theorem remaining_eq (h : l.frame.idx < l.frame.shape.parts) :
    l.remaining = l.area l.frame.idx :: l.next.remaining := by
  rw [remaining, List.drop_eq_getElem_cons (by simpa using h), List.map_cons, List.getElem_range]
  rfl

theorem remaining_of_ge (h : l.frame.shape.parts ≤ l.frame.idx) : l.remaining = [] := by
  rw [remaining, List.drop_eq_nil_of_le (by simpa using h), List.map_nil]

theorem PiecesOk.next (h : l.PiecesOk T g) : l.next.PiecesOk T g :=
  fun i hi => h i (Nat.le_of_succ_le hi)

/-- The pieces stay as they are when their windows do. -/
theorem PiecesOk.frame (h : l.PiecesOk T g) (hu : ∀ u ∈ l.remaining, Agree u g g') :
    l.PiecesOk T g' :=
  fun i hi hparts hpos =>
    (h i hi hparts hpos).agree (hu _ (mem_remaining.mpr ⟨i, hi, hparts, rfl⟩))

end StepLevel

/-! ## Ranks -/

/-- What a character that is left counts: more than all that a level does besides the work on its
parts. -/
def SortTask.rankUnit {S : Type} (T : SortTask S) : ℕ := T.total + 2 ^ 15

/-- A bound for all that is done for the strings of a window from a depth on. -/
def SortTask.windowRank {S : Type} (T : SortTask S) (w : Window) (depth : ℕ) : ℕ :=
  (slice (fun p => T.rankUnit * ((T.target p).length + 1 - depth)) w.lo w.size).sum

/-- What a job does besides the work on its levels. -/
def jobOverhead : ℕ := 8

namespace StepLevel

variable {S : Type} (T : SortTask S) (l : StepLevel)

/-- What is done for a part behind the round that deals with it. -/
def partRank (i : ℕ) : ℕ :=
  if (l.area i).size = 0 ∨ l.frame.shape.call i = none then 0
  else jobOverhead + T.windowRank (l.area i) (l.piece i).depth

/-- What is still done for a level: a round for each part that is left, and one for its end. -/
def rank : ℕ := 1 + ∑ i ∈ Finset.Ico l.frame.idx l.frame.shape.parts, (1 + l.partRank T i)

end StepLevel

/-- What is still done for the levels of a list. -/
def levelsRank {S : Type} (T : SortTask S) (ls : List StepLevel) : ℕ := (ls.map (StepLevel.rank T)).sum

section Rank

variable {S : Type} {T : SortTask S} {l : StepLevel} {w : Window} {depth depth' c : ℕ}

@[simp] theorem levelsRank_nil : levelsRank T [] = 0 := rfl

@[simp] theorem levelsRank_cons (ls : List StepLevel) :
    levelsRank T (l :: ls) = l.rank T + levelsRank T ls := by
  simp [levelsRank]

@[simp] theorem levelsRank_append (ls ms : List StepLevel) :
    levelsRank T (ls ++ ms) = levelsRank T ls + levelsRank T ms := by
  simp [levelsRank]

theorem StepLevel.rank_next (h : l.frame.idx < l.frame.shape.parts) :
    l.rank T = 1 + l.partRank T l.frame.idx + l.next.rank T := by
  have hnext : l.next.partRank T = l.partRank T := rfl
  rw [rank, rank, hnext, Finset.sum_eq_sum_Ico_succ_bot h]
  simp only [next]
  omega

/-- The rank of a window is that of its parts. -/
theorem windowRank_append (lo m n depth : ℕ) :
    T.windowRank ⟨lo, m + n⟩ depth =
      T.windowRank ⟨lo, m⟩ depth + T.windowRank ⟨lo + m, n⟩ depth := by
  simp only [SortTask.windowRank, slice_append, List.sum_append]

/-- A bound on what each string adds. -/
theorem windowRank_le (T : SortTask S) (w : Window) (depth depth' c : ℕ) (h : ∀ p, w.Mem p →
    T.rankUnit * ((T.target p).length + 1 - depth') + c ≤
      T.rankUnit * ((T.target p).length + 1 - depth)) :
    T.windowRank w depth' + c * w.size ≤ T.windowRank w depth := by
  obtain ⟨lo, n⟩ := w
  -- string after string, the last one apart
  induction n with
  | zero => exact le_refl _
  | succ n ih =>
    have hlast := h (lo + n) ⟨Nat.le_add_right .., Nat.lt_succ_self _⟩
    have hfront := ih fun p hp => h p ⟨hp.1, hp.2.trans (Nat.lt_succ_self _)⟩
    have hone : ∀ d, T.windowRank ⟨lo + n, 1⟩ d =
        T.rankUnit * ((T.target (lo + n)).length + 1 - d) := fun d => Nat.add_zero _
    rw [windowRank_append, windowRank_append, hone, hone, Nat.mul_succ]
    simp only at hfront
    omega

/-- The rank of a window that is cut by boundaries. -/
theorem windowRank_tiles {b : ℕ → ℕ} {K : ℕ} (hmono : ∀ i < K, b i ≤ b (i + 1)) :
    T.windowRank ⟨b 0, b K - b 0⟩ depth = ∑ i ∈ Finset.range K, T.windowRank (tile b i) depth := by
  induction K with
  | zero =>
    rw [Nat.sub_self]
    rfl
  | succ K ih =>
    have hle : b 0 ≤ b K := boundary_mono (fun i hi => hmono i (by omega)) (Nat.zero_le K) le_rfl
    have hlast := hmono K (Nat.lt_succ_self K)
    -- the last tile is what the boundaries gain
    have hsplit : b (K + 1) - b 0 = (b K - b 0) + (b (K + 1) - b K) := by omega
    rw [Finset.sum_range_succ, ← ih fun i hi => hmono i (by omega), hsplit, windowRank_append,
      Nat.add_sub_cancel' hle]
    rfl

/-- A greater depth does not have a higher rank. -/
theorem windowRank_anti (hle : depth ≤ depth') : T.windowRank w depth' ≤ T.windowRank w depth := by
  have hrank := windowRank_le T w depth depth' 0 fun p _ => Nat.mul_le_mul_left _ (by omega)
  omega

/-- A greater depth that the strings reach gains a unit for each of them. -/
theorem SortTask.DepthOk.rank_gain (h : T.DepthOk w depth') (hlt : depth < depth') :
    T.windowRank w depth' + T.rankUnit * w.size ≤ T.windowRank w depth := by
  refine windowRank_le T w depth depth' _ fun p hp => ?_
  have hlen := h.le_length hp
  -- a string that reaches the depth has lost one unit at least
  rw [← Nat.mul_succ]
  exact Nat.mul_le_mul_left _ (by omega)

/-- There is a unit at least for each string. -/
theorem SortTask.DepthOk.unit_le (h : T.DepthOk w depth) :
    T.rankUnit * w.size ≤ T.windowRank w depth := by
  -- compare with a depth that no string reaches
  refine le_trans (Nat.le_add_left _ _) (windowRank_le T w depth
    (slice (fun p => (T.target p).length + 1) w.lo w.size).sum T.rankUnit fun p hp => ?_)
  have hlen := h.le_length hp
  have hsum : (T.target p).length + 1 ≤
      (slice (fun p => (T.target p).length + 1) w.lo w.size).sum :=
    List.single_le_sum (by simp) _ (mem_slice.mpr ⟨p, hp, rfl⟩)
  rw [← Nat.mul_succ]
  exact Nat.mul_le_mul_left _ (by omega)

/-- A new level does less than has been set aside for its window, when some strings gain
characters or are finished. -/
theorem StepLevel.rank_le {b : ℕ → ℕ} (hidx : l.frame.idx = 0) (hparts : l.frame.shape.parts ≤ 2047)
    (harea : ∀ i < l.frame.shape.parts, l.area i = tile b i)
    (hmono : ∀ i < l.frame.shape.parts, b i ≤ b (i + 1))
    (hw : l.window = ⟨b 0, b l.frame.shape.parts - b 0⟩) (hdepth : T.DepthOk l.window depth)
    (hcall : ∀ i < l.frame.shape.parts, l.frame.shape.call i ≠ none → depth ≤ (l.piece i).depth)
    (hgain : ∃ i < l.frame.shape.parts, 0 < (l.area i).size ∧ (l.frame.shape.call i = none ∨
      depth < (l.piece i).depth ∧ T.DepthOk (l.area i) (l.piece i).depth)) :
    l.rank T + T.total + 2 ^ 12 ≤ T.windowRank l.window depth := by
  obtain ⟨j, hj, hpos, hj'⟩ := hgain
  -- part `j` pays for all that the level does besides
  have hpart : ∀ i < l.frame.shape.parts,
      1 + l.partRank T i + (if i = j then T.rankUnit else 0) ≤
        9 + T.windowRank (tile b i) depth := by
    intro i hi
    rw [← harea i hi, partRank]
    by_cases hij : i = j
    · subst hij
      have hone : T.rankUnit * 1 ≤ T.rankUnit * (l.area i).size := Nat.mul_le_mul_left _ hpos
      rw [if_pos rfl]
      -- it is finished, or its strings gain characters
      rcases hj' with hnone | ⟨hlt, hok⟩
      · have hinside : (l.area i).Inside l.window := by
          rw [harea i hi, hw]
          exact tile_inside hmono rfl
            (Nat.add_sub_cancel' (boundary_mono hmono (Nat.zero_le _) le_rfl)).symm hi
        have hunit := (hdepth.sub hinside).unit_le
        rw [if_pos (Or.inr hnone)]
        omega
      · have hgain := hok.rank_gain hlt
        rw [Nat.mul_one] at hone
        split
        · omega
        · rw [jobOverhead]
          omega
    · -- any other part does not cost more than it has been given
      rw [if_neg hij]
      split
      · omega
      · next hne =>
        have hle := windowRank_anti (T := T) (w := l.area i) (hcall i hi fun h => hne (Or.inr h))
        rw [jobOverhead]
        omega
  -- summed up over the tiles of the window
  have hsum := Finset.sum_le_sum fun i hi => hpart i (Finset.mem_range.mp hi)
  rw [Finset.sum_add_distrib (g := fun i => if i = j then T.rankUnit else 0),
    Finset.sum_ite_eq', if_pos (Finset.mem_range.mpr hj),
    Finset.sum_add_distrib (f := fun _ => 9), Finset.sum_const, Finset.card_range,
    ← windowRank_tiles hmono, ← hw, smul_eq_mul] at hsum
  rw [rank, hidx, ← Finset.range_eq_Ico]
  have hunit : T.rankUnit = T.total + 2 ^ 15 := rfl
  omega

end Rank

/-! ## Entries -/

/-- The entries of the places `P` have been written, and are right. -/
structure SortTask.EntriesRight {S : Type} (T : SortTask S) (P : ℕ → Prop) (g g' : Ghost S) :
    Prop where
  strings : g'.mem.strings = g.mem.strings
  value : g'.value = g.value
  lcps : ∀ p, ¬ P p → g'.mem.lcps p = g.mem.lcps p
  cache : ∀ p, ¬ P p → g'.mem.cache p = g.mem.cache p
  ok : ∀ p, P p → T.LcpOk g' p

namespace SortTask.EntriesRight

variable {S : Type} {T : SortTask S} {g g' g'' : Ghost S} {P Q : ℕ → Prop} {w : Window} {p : ℕ}

theorem none (T : SortTask S) (g : Ghost S) {P : ℕ → Prop} (hP : ∀ p, ¬ P p) :
    T.EntriesRight P g g :=
  ⟨rfl, rfl, fun _ _ => rfl, fun _ _ => rfl, fun p hp => absurd hp (hP p)⟩

/-- A single entry. -/
theorem of_entryWritten
    (h : T.EntryWritten p g g') : T.EntriesRight (fun q => q = p) g g' :=
  ⟨h.strings, h.value, h.lcps, h.cache, fun _ hq => hq ▸ h.ok⟩

/-- What has been right stays so. -/
theorem keeps (h : T.EntriesRight P g g') (hp : T.LcpOk g p) : T.LcpOk g' p := by
  -- an entry has been written, or is as before
  by_cases hP : P p
  · exact h.ok p hP
  · exact hp.congr (h.lcps p hP) (h.cache p hP)

theorem trans (h : T.EntriesRight P g g') (h' : T.EntriesRight Q g' g'') :
    T.EntriesRight (fun p => P p ∨ Q p) g g'' where
  strings := h'.strings.trans h.strings
  value := h'.value.trans h.value
  lcps p hp := (h'.lcps p fun hq => hp (Or.inr hq)).trans (h.lcps p fun hq => hp (Or.inl hq))
  cache p hp := (h'.cache p fun hq => hp (Or.inr hq)).trans (h.cache p fun hq => hp (Or.inl hq))
  ok p hp := hp.elim (fun hp => h'.keeps (h.ok p hp)) (h'.ok p)

theorem effect (h : T.EntriesRight P g g') (hP : ∀ p, P p → w.Interior p) : Effect w g g' where
  strings arr p _ := by rw [h.strings]
  value p _ := by rw [h.value]
  perm := by rw [h.value]
  lcps p hp := h.lcps p fun hq => hp (hP p hq)
  cache p hp := h.cache p fun hq => hp (hP p hq)

end SortTask.EntriesRight

/-- `calculate_lcp` of a step has written the entries that have been promised. -/
structure StepLevel.Calculated {S : Type} (T : SortTask S) (l : StepLevel) (g g' : Ghost S) : Prop where
  entries : T.EntriesRight l.Promises g g'
  interior : ∀ p, l.Promises p → l.window.Interior p

theorem StepLevel.Calculated.effect {S : Type} {T : SortTask S} {l : StepLevel} {g g' : Ghost S}
    (h : l.Calculated T g g') : Effect l.window g g' := h.entries.effect h.interior

/-! ## What is left -/

/-- The parts that have not been dealt with, and the work that has been handed over. -/
def windowsLeft (ls : List StepLevel) (subs : List WorkShare) : List Window :=
  ls.flatMap StepLevel.remaining ++ subs.map WorkShare.window

section WindowsLeft

variable {ls pre post : List StepLevel} {subs us vs : List WorkShare} {l : StepLevel} {u : Window}
  {c : WorkShare}

theorem mem_windowsLeft : u ∈ windowsLeft ls subs ↔
    (∃ l ∈ ls, u ∈ l.remaining) ∨ ∃ c ∈ subs, c.window = u := by
  simp [windowsLeft]

theorem windowsLeft_cons : windowsLeft (l :: ls) subs = l.remaining ++ windowsLeft ls subs := by
  simp [windowsLeft]

theorem windowsLeft_concat :
    windowsLeft ls (subs ++ [c]) = windowsLeft ls subs ++ [c.window] := by
  simp [windowsLeft]

/-- The next part of one of the levels. -/
theorem windowsLeft_next (h : l.frame.idx < l.frame.shape.parts) :
    (windowsLeft (pre ++ l :: post) subs).Perm
      (l.area l.frame.idx :: windowsLeft (pre ++ l.next :: post) subs) := by
  -- its window stands in the middle of the list
  simp only [windowsLeft, List.flatMap_append, List.flatMap_cons, StepLevel.remaining_eq h,
    List.append_assoc, List.cons_append]
  exact List.perm_middle

/-- One of the shares. -/
theorem windowsLeft_share :
    (windowsLeft ls (us ++ c :: vs)).Perm (c.window :: windowsLeft ls (us ++ vs)) := by
  simp only [windowsLeft, List.map_append, List.map_cons, ← List.append_assoc]
  exact List.perm_middle

end WindowsLeft

/-! ## Plans -/

/-- What is left to do in the window `w`: the windows `us` in hand, the parts that are left of the
levels on the stacks and of the freed ones, and the work that has been handed over.  A level only
waits for levels above it and, once it has been freed, for work that has been handed over. -/
structure SortPlan {S : Type} (T : SortTask S) (g : Ghost S) (w : Window) (us : List Window)
    (live freed : List StepLevel) (subs : List WorkShare) : Prop where
  inside : ∀ l ∈ live ++ freed, l.window.Inside w
  nested : (live ++ freed).Pairwise fun a b => ∀ u ∈ b.remaining, a.window.Apart u
  apart : ∀ l ∈ live, ∀ c ∈ subs, l.window.Apart c.window
  covers : T.Covers g w (us ++ windowsLeft (live ++ freed) subs)
    fun p => ∃ l ∈ live ++ freed, l.Promises p
  pieces : ∀ l ∈ live ++ freed, l.PiecesOk T g

/-- What a job has done from `g` to `g'` lies within its window, and it has left alone the work that
it has handed over before. -/
structure Touches {S : Type} (w : Window) (subs : List WorkShare) (g g' : Ghost S) : Prop where
  effect : Effect w g g'
  agree : ∀ c ∈ subs, Agree c.window g g'

theorem Touches.refl {S : Type} (w : Window) (subs : List WorkShare) (g : Ghost S) :
    Touches w subs g g :=
  ⟨Effect.refl w g, fun _ _ => Agree.refl _ g⟩

theorem Touches.trans {S : Type} {w : Window} {subs : List WorkShare} {g g' g'' : Ghost S}
    (h : Touches w subs g g') (h' : Touches w subs g' g'') : Touches w subs g g'' :=
  ⟨h.effect.trans h'.effect, fun c hc => (h.agree c hc).trans (h'.agree c hc)⟩

theorem Touches.mono {S : Type} {w : Window} {subs subs' : List WorkShare} {g g' : Ghost S}
    (h : Touches w subs' g g') (hsub : ∀ c ∈ subs, c ∈ subs') : Touches w subs g g' :=
  ⟨h.effect, fun c hc => h.agree c (hsub c hc)⟩

namespace SortPlan

variable {S : Type} {T : SortTask S} {g g' : Ghost S} {w u : Window} {us : List Window}
  {l k : StepLevel} {live freed pre post : List StepLevel} {subs : List WorkShare} {c : WorkShare}

/-- A window of which nothing has been sorted. -/
theorem whole (T : SortTask S) (g : Ghost S) (w : Window) : SortPlan T g w [w] [] [] [] where
  inside := by simp
  nested := List.Pairwise.nil
  apart := by simp
  covers := (SortTask.Covers.whole T g w).imp fun _ _ hf => hf.elim
  pieces := by simp

/-- Work outside of the window. -/
theorem agree (h : SortPlan T g w us live freed subs) (ha : Agree w g g') :
    SortPlan T g' w us live freed subs where
  inside := h.inside
  nested := h.nested
  apart := h.apart
  covers := h.covers.agree ha
  -- all that is left lies in the window, which has not been touched
  pieces l hl := (h.pieces l hl).frame fun u hu => ha.sub <| h.covers.inside u <|
    List.mem_append_right _ (mem_windowsLeft.mpr (Or.inl ⟨l, hl, hu⟩))

/-! ### Parts in hand -/

/-- The window in hand lies apart from all that is left otherwise. -/
theorem hand_apart (h : SortPlan T g w [u] live freed subs) :
    (∀ l ∈ live ++ freed, ∀ v ∈ l.remaining, u.Apart v) ∧ ∀ c ∈ subs, u.Apart c.window := by
  have hall := (List.pairwise_cons.mp h.covers.apart).1
  exact ⟨fun l hl v hv => hall v (mem_windowsLeft.mpr (Or.inl ⟨l, hl, hv⟩)),
    fun c hc => hall _ (mem_windowsLeft.mpr (Or.inr ⟨c, hc, rfl⟩))⟩

theorem hand_inside (h : SortPlan T g w [u] live freed subs) : u.Inside w :=
  h.covers.inside u (List.mem_cons_self ..)

theorem hand_touches (h : SortPlan T g w [u] live freed subs) (he : Effect u g g') :
    Touches w subs g g' :=
  ⟨he.widen h.hand_inside, fun c hc => he.agree (h.hand_apart.2 c hc)⟩

/-- Work on the window in hand does not touch the pieces that are left. -/
theorem hand_pieces (h : SortPlan T g w [u] live freed subs) (he : Effect u g g') :
    ∀ l ∈ live ++ freed, l.PiecesOk T g' :=
  fun l hl => (h.pieces l hl).frame fun v hv => he.agree (h.hand_apart.1 l hl v hv)

/-- A part without contents is done. -/
theorem drop (h : SortPlan T g w [u] live freed subs) (hu : u.size = 0) :
    SortPlan T g w [] live freed subs where
  __ := h
  covers := h.covers.finish (SortTask.Covers.empty hu)

/-- The part in hand is finished. -/
theorem finish (h : SortPlan T g w [u] live freed subs) (he : Effect u g g')
    (hc : T.Covers g' u [] fun _ => False) : SortPlan T g' w [] live freed subs where
  inside := h.inside
  nested := h.nested
  apart := h.apart
  covers := (h.covers.replace he hc).imp fun _ _ hp => hp.resolve_right fun hf => hf
  pieces := h.hand_pieces he

/-- The part in hand becomes a level. -/
theorem push (h : SortPlan T g w [k.window] live freed subs) (he : Effect k.window g g')
    (hc : T.Covers g' k.window k.remaining k.Promises) (hk : k.PiecesOk T g') :
    SortPlan T g' w [] (k :: live) freed subs where
  inside := List.forall_mem_cons.mpr ⟨h.hand_inside, h.inside⟩
  nested := List.pairwise_cons.mpr ⟨h.hand_apart.1, h.nested⟩
  apart := List.forall_mem_cons.mpr ⟨h.hand_apart.2, h.apart⟩
  covers := by
    -- the window in hand is replaced by the parts of the new level
    rw [List.nil_append, List.cons_append, windowsLeft_cons]
    refine (h.covers.replace he hc).imp fun p _ hp => ?_
    rcases hp with ⟨l, hl, hp⟩ | hp
    · exact ⟨l, List.mem_cons_of_mem _ hl, hp⟩
    · exact ⟨k, List.mem_cons_self .., hp⟩
  pieces := List.forall_mem_cons.mpr ⟨hk, h.hand_pieces he⟩

/-- The part in hand is handed over. -/
theorem handOver (h : SortPlan T g w [c.window] live freed subs)
    (hc : ∀ l ∈ live, l.window.Apart c.window) : SortPlan T g w [] live freed (subs ++ [c]) where
  inside := h.inside
  nested := h.nested
  apart l hl d hd := by
    rcases List.mem_append.mp hd with hd | hd
    · exact h.apart l hl d hd
    · exact List.mem_singleton.mp hd ▸ hc l hl
  covers := by
    -- the window in hand becomes the last share
    rw [windowsLeft_concat]
    exact h.covers.perm List.perm_append_comm
  pieces := h.pieces

/-! ### Levels -/

/-- The next part of a level is taken in hand. -/
private theorem take_any (pre post : List StepLevel) {live' freed' : List StepLevel}
    (h : SortPlan T g w [] live freed subs)
    (hidx : l.frame.idx < l.frame.shape.parts) (hls : live ++ freed = pre ++ l :: post)
    (hls' : live' ++ freed' = pre ++ l.next :: post)
    (hlive : live'.map StepLevel.window = live.map StepLevel.window) :
    SortPlan T g w [l.area l.frame.idx] live' freed' subs where
  inside a ha := by
    -- the level keeps its window
    rw [hls', List.mem_append, List.mem_cons] at ha
    rcases ha with ha | rfl | ha
    · exact h.inside a (by simp [hls, ha])
    · exact h.inside l (by simp [hls])
    · exact h.inside a (by simp [hls, ha])
  nested := by
    have hnested := h.nested
    rw [hls, List.pairwise_append, List.pairwise_cons] at hnested
    obtain ⟨hpre, ⟨hl, hpost⟩, hpp⟩ := hnested
    rw [hls', List.pairwise_append, List.pairwise_cons]
    -- a level above lies apart from what is left of this one, and so from less of it
    refine ⟨hpre, ⟨hl, hpost⟩, fun a ha b hb u hu => ?_⟩
    rcases List.mem_cons.mp hb with rfl | hb
    · refine hpp a ha l (List.mem_cons_self ..) u ?_
      rw [StepLevel.remaining_eq hidx]
      exact List.mem_cons_of_mem _ hu
    · exact hpp a ha b (List.mem_cons_of_mem _ hb) u hu
  apart a ha c hc := by
    have hmem : a.window ∈ live.map StepLevel.window := hlive ▸ List.mem_map_of_mem ha
    obtain ⟨b, hb, heq⟩ := List.mem_map.mp hmem
    exact heq ▸ h.apart b hb c hc
  covers := by
    have hcovers := h.covers
    rw [hls] at hcovers
    rw [hls']
    -- the part goes from the parts that are left to those in hand
    refine (hcovers.perm (windowsLeft_next hidx)).imp fun p _ ⟨a, ha, hp⟩ => ?_
    rw [List.mem_append, List.mem_cons] at ha
    rcases ha with ha | rfl | ha
    · exact ⟨a, by simp [ha], hp⟩
    · exact ⟨a.next, by simp, hp⟩
    · exact ⟨a, by simp [ha], hp⟩
  pieces a ha := by
    rw [hls', List.mem_append, List.mem_cons] at ha
    rcases ha with ha | rfl | ha
    · exact h.pieces a (by simp [hls, ha])
    · exact (h.pieces l (by simp [hls])).next
    · exact h.pieces a (by simp [hls, ha])

/-- The next part of the uppermost level is taken in hand. -/
theorem take (h : SortPlan T g w [] (l :: live) freed subs)
    (hidx : l.frame.idx < l.frame.shape.parts) :
    SortPlan T g w [l.area l.frame.idx] (l.next :: live) freed subs :=
  take_any [] (live ++ freed) h hidx rfl rfl rfl

/-- The next part of the level that is freed is taken in hand. -/
theorem takeFreed (h : SortPlan T g w [] live (l :: freed) subs)
    (hidx : l.frame.idx < l.frame.shape.parts) :
    SortPlan T g w [l.area l.frame.idx] live (l.next :: freed) subs :=
  take_any live freed h hidx rfl rfl rfl

/-- The parts of a level that is freed lie apart from the levels above. -/
theorem live_apart (h : SortPlan T g w us live (l :: freed) subs) {u : Window}
    (hu : u ∈ l.remaining) : ∀ a ∈ live, a.window.Apart u :=
  fun a ha => (List.pairwise_append.mp h.nested).2.2 a ha l (List.mem_cons_self ..) u hu

/-- The lowest level is freed. -/
theorem free (h : SortPlan T g w us (live ++ [l]) freed subs) :
    SortPlan T g w us live (l :: freed) subs := by
  have hls : live ++ [l] ++ freed = live ++ l :: freed := by simp
  obtain ⟨hinside, hnested, hapart, hcovers, hpieces⟩ := h
  rw [hls] at hinside hnested hcovers hpieces
  exact ⟨hinside, hnested, fun a ha => hapart a (List.mem_append_left _ ha), hcovers, hpieces⟩

/-- What is left when the parts of the uppermost level have been dealt with. -/
private theorem done_covers (h : SortPlan T g w [] live freed subs) (hls : live ++ freed = l :: post)
    (hidx : l.frame.shape.parts ≤ l.frame.idx) :
    T.Covers g w (windowsLeft post subs) fun p => l.Promises p ∨ ∃ a ∈ post, a.Promises p := by
  have hcovers := h.covers
  rw [hls, List.nil_append, windowsLeft_cons, StepLevel.remaining_of_ge hidx] at hcovers
  refine hcovers.imp fun p _ ⟨a, ha, hp⟩ => ?_
  -- the entries are promised by this level or by another one
  rcases List.mem_cons.mp ha with rfl | ha
  · exact Or.inl hp
  · exact Or.inr ⟨a, ha, hp⟩

/-- A level whose parts have been dealt with, when what is left lies apart from it: its strings are
finished. -/
private theorem done_finished (h : SortPlan T g w [] live freed subs)
    (hls : live ++ freed = l :: post) (hidx : l.frame.shape.parts ≤ l.frame.idx)
    (hsubs : ∀ c ∈ subs, l.window.Apart c.window) {p : ℕ} (hp : l.window.Mem p) :
    T.Finished g p := by
  have hinside := h.inside l (by simp [hls])
  have hnested := h.nested
  rw [hls, List.pairwise_cons] at hnested
  -- a string that is not finished would lie in a window that is left, and these lie apart
  rcases (h.done_covers hls hidx).places p (hinside.mem hp) with hfin | ⟨u, hu, hpu⟩
  · exact hfin
  · rcases mem_windowsLeft.mp hu with ⟨a, ha, hu⟩ | ⟨c, hc, rfl⟩
    · exact absurd hpu ((hnested.1 a ha u hu).not_mem hp)
    · exact absurd hpu ((hsubs c hc).not_mem hp)

/-- The strings of the uppermost level, all of whose parts have been dealt with, are finished. -/
theorem finished (h : SortPlan T g w [] (l :: live) freed subs)
    (hidx : l.frame.shape.parts ≤ l.frame.idx) {p : ℕ} (hp : l.window.Mem p) : T.Finished g p :=
  h.done_finished rfl hidx (h.apart l (List.mem_cons_self ..)) hp

/-- When nothing is outstanding, the strings of a freed level are finished. -/
theorem finishedFreed (h : SortPlan T g w [] [] (l :: freed) [])
    (hidx : l.frame.shape.parts ≤ l.frame.idx) {p : ℕ} (hp : l.window.Mem p) : T.Finished g p :=
  h.done_finished rfl hidx (by simp) hp

/-- The entries of the uppermost level are none of those of the work that has been handed over. -/
theorem close_touches (h : SortPlan T g w us (l :: live) freed subs) (hg : l.Calculated T g g') :
    Touches w subs g g' :=
  ⟨hg.effect.widen (h.inside l (by simp)),
    fun c hc => hg.effect.agree (h.apart l (List.mem_cons_self ..) c hc)⟩

private theorem close_any {live' freed' : List StepLevel} (h : SortPlan T g w [] live freed subs)
    (hls : live ++ freed = l :: post) (hls' : live' ++ freed' = post)
    (hidx : l.frame.shape.parts ≤ l.frame.idx) (hg : l.Calculated T g g')
    (hlive : ∀ a ∈ live', a ∈ live) : SortPlan T g' w [] live' freed' subs where
  inside a ha := h.inside a (by rw [hls, ← hls']; exact List.mem_cons_of_mem _ ha)
  nested := by
    have hnested := h.nested
    rw [hls, List.pairwise_cons] at hnested
    exact hls' ▸ hnested.2
  apart a ha := h.apart a (hlive a ha)
  covers := by
    rw [hls']
    -- entries that were promised are right now, and right ones stay right
    exact (h.done_covers hls hidx).calculate hg.entries.strings hg.entries.value
      (fun p _ => hg.entries.keeps) fun p _ hp => hp.symm.imp_right (hg.entries.ok p)
  pieces a ha i hi hparts hpos := by
    -- writing entries moves no strings
    have hmem : a ∈ live ++ freed := by
      rw [hls, ← hls']
      exact List.mem_cons_of_mem _ ha
    exact (h.pieces a hmem i hi hparts hpos).congr (fun p _ => by rw [hg.entries.value])
      fun p _ => by rw [hg.entries.strings]

/-- The uppermost level writes its entries, and leaves its stack. -/
theorem close (h : SortPlan T g w [] (l :: live) freed subs)
    (hidx : l.frame.shape.parts ≤ l.frame.idx) (hg : l.Calculated T g g') :
    SortPlan T g' w [] live freed subs :=
  h.close_any rfl rfl hidx hg fun _ => List.mem_cons_of_mem _

/-- When nothing is outstanding, the uppermost freed level writes its entries. -/
theorem closeFreed (h : SortPlan T g w [] [] (l :: freed) [])
    (hidx : l.frame.shape.parts ≤ l.frame.idx) (hg : l.Calculated T g g') :
    SortPlan T g' w [] [] freed [] :=
  h.close_any rfl rfl hidx hg fun _ => id

/-! ### Work that has been handed over -/

variable {pre post : List WorkShare}

/-- The window of a share lies apart from all that is left otherwise. -/
theorem share_apart (h : SortPlan T g w [] live freed (pre ++ c :: post)) :
    (∀ l ∈ live ++ freed, ∀ v ∈ l.remaining, c.window.Apart v) ∧
      ∀ d ∈ pre ++ post, c.window.Apart d.window := by
  have hcovers := (h.covers.perm windowsLeft_share).apart
  have hall := (List.pairwise_cons.mp hcovers).1
  exact ⟨fun l hl v hv => hall v (mem_windowsLeft.mpr (Or.inl ⟨l, hl, hv⟩)),
    fun d hd => hall _ (mem_windowsLeft.mpr (Or.inr ⟨d, hd, rfl⟩))⟩

theorem share_inside (h : SortPlan T g w us live freed subs) (hc : c ∈ subs) :
    c.window.Inside w :=
  h.covers.inside _ (List.mem_append_right _ (mem_windowsLeft.mpr (Or.inr ⟨c, hc, rfl⟩)))

/-- A share is worked on. -/
theorem subEffect (h : SortPlan T g w [] live freed (pre ++ c :: post))
    (he : Effect c.window g g') : SortPlan T g' w [] live freed (pre ++ c :: post) where
  inside := h.inside
  nested := h.nested
  apart := h.apart
  -- what happens in the window of a share does not show elsewhere
  covers := h.covers.frame (mem_windowsLeft.mpr (Or.inr ⟨c, by simp, rfl⟩)) he
  pieces l hl := (h.pieces l hl).frame fun v hv => he.agree (h.share_apart.1 l hl v hv)

/-- A share is finished. -/
theorem join (h : SortPlan T g w [] live freed (pre ++ c :: post))
    (hc : T.Covers g c.window [] fun _ => False) :
    SortPlan T g w [] live freed (pre ++ post) where
  inside := h.inside
  nested := h.nested
  apart l hl d hd := h.apart l hl d <| by
    rcases List.mem_append.mp hd with hd | hd
    · exact List.mem_append_left _ hd
    · exact List.mem_append_right _ (List.mem_cons_of_mem _ hd)
  -- a finished share leaves nothing to do in its window
  covers := (h.covers.perm windowsLeft_share).finish hc
  pieces := h.pieces

/-- When there is nothing left, the window is finished. -/
theorem done (h : SortPlan T g w [] [] [] []) : T.Covers g w [] fun _ => False :=
  h.covers.imp fun _ _ ⟨_, hl, _⟩ => absurd hl List.not_mem_nil

end SortPlan

end StringSampleSort
