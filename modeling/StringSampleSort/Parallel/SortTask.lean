import StringSampleSort.Sequential.InsertionSort
import StringSampleSort.Tools.StringPtr

/-!
# Sorting a window in pieces

What the parallel sample sort has to produce, and how far a sort of a window has come.

The sorted strings are known in advance: `target` lists their characters.  A piece of the array
is a window whose strings are to be sorted from a depth on; it holds the strings that the target
has there, in any order.  A window is covered by windows that are still worked on when every
other place is finished, and every LCP entry that does not belong to one of these is right, or
promised by a step that will still write it.

The ghost state `value` names the string that stands at a place, in whichever array.

## Main results

- `Effect.widen`, `Effect.agree`: work on a window is work on a larger one, and leaves others alone
- `Covers.replace`: a window of a cover is worked on, and covered by what is left of it
- `Covers.frame`, `Covers.finish`: a window of a cover changes, or is finished
-/

namespace StringSampleSort

open Library Slice

/-! ## Windows -/

/-- So many places from `lo` on. -/
structure Window where
  lo : ℕ
  size : ℕ
  deriving DecidableEq, Repr

namespace Window

/-- A place of the window. -/
def Mem (w : Window) (p : ℕ) : Prop := InWindow w.lo w.size p

/-- A place of the window behind its first one. -/
def Interior (w : Window) (p : ℕ) : Prop := w.lo < p ∧ p < w.lo + w.size

/-- The window `u` lies within `w`. -/
def Inside (u w : Window) : Prop := w.lo ≤ u.lo ∧ u.lo + u.size ≤ w.lo + w.size

/-- The windows have no place in common. -/
def Apart (u v : Window) : Prop := u.lo + u.size ≤ v.lo ∨ v.lo + v.size ≤ u.lo

variable {u v w : Window} {p : ℕ}

theorem Interior.mem (h : w.Interior p) : w.Mem p := ⟨h.1.le, h.2⟩

theorem Inside.refl (w : Window) : w.Inside w := ⟨le_refl _, le_refl _⟩

theorem Inside.trans (h : u.Inside v) (h' : v.Inside w) : u.Inside w :=
  ⟨h'.1.trans h.1, h.2.trans h'.2⟩

theorem Inside.mem (h : u.Inside w) (hp : u.Mem p) : w.Mem p :=
  ⟨h.1.trans hp.1, hp.2.trans_le h.2⟩

theorem Inside.interior (h : u.Inside w) (hp : u.Interior p) : w.Interior p :=
  ⟨h.1.trans_lt hp.1, hp.2.trans_le h.2⟩

theorem Apart.symm (h : u.Apart v) : v.Apart u := Or.symm h

theorem Apart.not_mem (h : u.Apart v) (hp : u.Mem p) : ¬ v.Mem p := fun hv => by
  obtain ⟨h₁, h₂⟩ := hp
  obtain ⟨h₃, h₄⟩ := hv
  rcases h with h | h <;> omega

theorem Apart.mono {u' v' : Window} (h : u.Apart v) (hu : u'.Inside u) (hv : v'.Inside v) :
    u'.Apart v' := by
  obtain ⟨h₁, h₂⟩ := hu
  obtain ⟨h₃, h₄⟩ := hv
  rcases h with h | h
  · exact Or.inl (by omega)
  · exact Or.inr (by omega)

end Window

/-! ## The task -/

/-- A sort of `total` strings with a kind of string set and of string pointer, and the characters
of the strings in sorted order. -/
structure SortTask (S : Type) where
  ss : StringSet S
  cls : StringPtrClass
  target : ℕ → List CharType
  total : ℕ
  sortable : ss.Sortable
  readsEnd : cls.hasCache = true → ss.ReadsEnd
  noNul : ∀ p, NoNul (target p)
  sorted : MonotoneIn target 0 total

/-- The memory and the string that stands at each place. -/
structure Ghost (S : Type) where
  mem : Memory S
  value : ℕ → S

/-- A window whose strings are to be sorted from a depth on. -/
structure Piece where
  flipped : Bool
  window : Window
  depth : ℕ
  deriving DecidableEq, Repr

namespace SortTask

variable {S : Type} (T : SortTask S)

/-- The pointer to the strings of a piece. -/
def pointer (P : Piece) : StringPtr := T.cls.pointer P.flipped P.window.lo P.window.size

/-- The strings of the window reach the depth and agree up to it. -/
def DepthOk (w : Window) (depth : ℕ) : Prop :=
  ∀ p q, w.Mem p → w.Mem q → SharePrefix depth (T.target p) (T.target q)

/-- The strings of a piece stand in its active array, and they are those that belong there. -/
structure PieceOk (g : Ghost S) (P : Piece) : Prop where
  pos : 0 < P.window.size
  bound : P.window.lo + P.window.size ≤ T.total
  value : ∀ p, P.window.Mem p → g.value p = g.mem.strings (T.cls.activeArray P.flipped) p
  perm : (slice (T.ss.chars ∘ g.value) P.window.lo P.window.size).Perm
    (slice T.target P.window.lo P.window.size)
  depth : T.DepthOk P.window P.depth

/-- The right string stands at place `p` of the output array. -/
def Finished (g : Ghost S) (p : ℕ) : Prop :=
  g.mem.strings T.cls.outputArray p = g.value p ∧ T.ss.chars (g.value p) = T.target p

/-- The LCP of the strings at `p - 1` and `p`. -/
def lcpAt (p : ℕ) : ℕ := lcpLen (T.target (p - 1)) (T.target p)

/-- The entries at place `p` are right, as far as the pointer class has them. -/
def LcpOk (g : Ghost S) (p : ℕ) : Prop :=
  (T.cls.withLcp = true → g.mem.lcps p = T.lcpAt p) ∧
    (T.cls.hasCache = true → g.mem.cache p = (T.target p).getD (T.lcpAt p) 0)

/-- From `g` to `g'` nothing changes outside of the window, the first entry of the window
included, and the strings of the window are rearranged. -/
structure Effect (w : Window) (g g' : Ghost S) : Prop where
  strings : ∀ arr p, ¬ w.Mem p → g'.mem.strings arr p = g.mem.strings arr p
  value : ∀ p, ¬ w.Mem p → g'.value p = g.value p
  perm : (slice g'.value w.lo w.size).Perm (slice g.value w.lo w.size)
  lcps : ∀ p, ¬ w.Interior p → g'.mem.lcps p = g.mem.lcps p
  cache : ∀ p, ¬ w.Interior p → g'.mem.cache p = g.mem.cache p

/-- From `g` to `g'` nothing changes in the window. -/
structure Agree (w : Window) (g g' : Ghost S) : Prop where
  strings : ∀ arr p, w.Mem p → g'.mem.strings arr p = g.mem.strings arr p
  value : ∀ p, w.Mem p → g'.value p = g.value p
  lcps : ∀ p, w.Interior p → g'.mem.lcps p = g.mem.lcps p
  cache : ∀ p, w.Interior p → g'.mem.cache p = g.mem.cache p

/-- The windows `us` of `w` are still worked on, apart from each other, and the entries at the
places `promised` will still be written. -/
structure Covers (g : Ghost S) (w : Window) (us : List Window) (promised : ℕ → Prop) : Prop where
  inside : ∀ u ∈ us, u.Inside w
  apart : us.Pairwise Window.Apart
  places : ∀ p, w.Mem p → T.Finished g p ∨ ∃ u ∈ us, u.Mem p
  lcps : ∀ p, w.Interior p → T.LcpOk g p ∨ (∃ u ∈ us, u.Interior p) ∨ promised p

end SortTask

open SortTask

/-! ## Effects -/

section Effects

variable {S : Type} {u v w : Window} {g g' g'' : Ghost S}

theorem SortTask.Effect.refl (w : Window) (g : Ghost S) : Effect w g g :=
  ⟨fun _ _ _ => rfl, fun _ _ => rfl, List.Perm.refl _, fun _ _ => rfl, fun _ _ => rfl⟩

namespace SortTask.Effect

theorem trans (h : Effect w g g') (h' : Effect w g' g'') : Effect w g g'' :=
  ⟨fun arr p hp => (h'.strings arr p hp).trans (h.strings arr p hp),
    fun p hp => (h'.value p hp).trans (h.value p hp), h'.perm.trans h.perm,
    fun p hp => (h'.lcps p hp).trans (h.lcps p hp),
    fun p hp => (h'.cache p hp).trans (h.cache p hp)⟩

/-- Work on a window is work on a larger one. -/
theorem widen (h : Effect u g g') (hu : u.Inside w) : Effect w g g' :=
  ⟨fun arr p hp => h.strings arr p fun hin => hp (hu.mem hin),
    fun p hp => h.value p fun hin => hp (hu.mem hin),
    perm_widen h.perm (fun p hp => h.value p hp) hu.1 hu.2,
    fun p hp => h.lcps p fun hin => hp (hu.interior hin),
    fun p hp => h.cache p fun hin => hp (hu.interior hin)⟩

/-- Work on a window leaves a window apart from it alone. -/
theorem agree (h : Effect u g g') (huv : u.Apart v) : Agree v g g' :=
  ⟨fun arr p hp => h.strings arr p (huv.symm.not_mem hp),
    fun p hp => h.value p (huv.symm.not_mem hp),
    fun p hp => h.lcps p fun hin => huv.symm.not_mem hp.mem hin.mem,
    fun p hp => h.cache p fun hin => huv.symm.not_mem hp.mem hin.mem⟩

end SortTask.Effect

theorem SortTask.Agree.sub (h : Agree w g g') (hu : u.Inside w) : Agree u g g' :=
  ⟨fun arr p hp => h.strings arr p (hu.mem hp), fun p hp => h.value p (hu.mem hp),
    fun p hp => h.lcps p (hu.interior hp), fun p hp => h.cache p (hu.interior hp)⟩

theorem SortTask.Agree.refl (w : Window) (g : Ghost S) : Agree w g g :=
  ⟨fun _ _ _ => rfl, fun _ _ => rfl, fun _ _ => rfl, fun _ _ => rfl⟩

theorem SortTask.Agree.trans (h : Agree w g g') (h' : Agree w g' g'') : Agree w g g'' :=
  ⟨fun arr p hp => (h'.strings arr p hp).trans (h.strings arr p hp),
    fun p hp => (h'.value p hp).trans (h.value p hp),
    fun p hp => (h'.lcps p hp).trans (h.lcps p hp),
    fun p hp => (h'.cache p hp).trans (h.cache p hp)⟩

end Effects

/-! ## Pieces -/

section Pieces

variable {S : Type} {T : SortTask S} {w : Window} {g g' : Ghost S} {P : Piece} {p : ℕ}

theorem SortTask.DepthOk.sub {u : Window} {depth : ℕ} (h : T.DepthOk w depth)
    (hu : u.Inside w) : T.DepthOk u depth := fun p q hp hq => h p q (hu.mem hp) (hu.mem hq)

theorem SortTask.DepthOk.le_length {depth : ℕ} (h : T.DepthOk w depth) (hp : w.Mem p) :
    depth ≤ (T.target p).length := (h p p hp hp).left

/-- The target is sorted within a window of the array. -/
theorem SortTask.monotone (T : SortTask S) (hw : w.lo + w.size ≤ T.total) :
    MonotoneIn T.target w.lo w.size := T.sorted.sub (Nat.zero_le _) (by omega)

namespace SortTask.PieceOk

/-- A piece stays one when its strings do. -/
theorem congr (h : T.PieceOk g P) (hv : ∀ p, P.window.Mem p → g'.value p = g.value p)
    (hs : ∀ p, P.window.Mem p → g'.mem.strings (T.cls.activeArray P.flipped) p =
      g.mem.strings (T.cls.activeArray P.flipped) p) : T.PieceOk g' P where
  pos := h.pos
  bound := h.bound
  value p hp := by rw [hv p hp, hs p hp, h.value p hp]
  perm := by
    have heq : slice (T.ss.chars ∘ g'.value) P.window.lo P.window.size =
        slice (T.ss.chars ∘ g.value) P.window.lo P.window.size :=
      slice_congr fun p hp => congrArg T.ss.chars (hv p hp)
    rw [heq]
    exact h.perm
  depth := h.depth

theorem agree (h : T.PieceOk g P) (ha : Agree P.window g g') : T.PieceOk g' P :=
  h.congr (fun p hp => ha.value p hp) fun p hp => ha.strings _ p hp

/-- The strings of a piece are those of the target, in some order. -/
theorem exists_target (h : T.PieceOk g P) (hp : P.window.Mem p) :
    ∃ q, P.window.Mem q ∧ T.ss.chars (g.value p) = T.target q := by
  have hmem : T.ss.chars (g.value p) ∈ slice T.target P.window.lo P.window.size :=
    h.perm.mem_iff.mp (mem_slice.mpr ⟨p, hp, rfl⟩)
  -- the strings of the window are a permutation of the target
  obtain ⟨q, hq, heq⟩ := mem_slice.mp hmem
  exact ⟨q, hq, heq.symm⟩

/-- The strings of a piece reach its depth, and agree up to it with the target. -/
theorem sharePrefix (h : T.PieceOk g P) {q : ℕ} (hp : P.window.Mem p) (hq : P.window.Mem q) :
    SharePrefix P.depth (T.target q) (T.ss.chars (g.value p)) := by
  obtain ⟨r, hr, heq⟩ := h.exists_target hp
  rw [heq]
  exact h.depth q r hq hr

theorem mem_lo (h : T.PieceOk g P) : P.window.Mem P.window.lo :=
  ⟨le_refl _, Nat.lt_add_of_pos_right h.pos⟩

end SortTask.PieceOk

theorem SortTask.Finished.congr (h : T.Finished g p)
    (hs : ∀ arr, g'.mem.strings arr p = g.mem.strings arr p) (hv : g'.value p = g.value p) :
    T.Finished g' p := by
  rw [Finished, hs, hv]
  exact h

theorem SortTask.LcpOk.congr (h : T.LcpOk g p) (hl : g'.mem.lcps p = g.mem.lcps p)
    (hc : g'.mem.cache p = g.mem.cache p) : T.LcpOk g' p := by
  rw [LcpOk, hl, hc]
  exact h

end Pieces

/-! ## The task of a window -/

section OfWindow

variable {S : Type} {ss : StringSet S} {cls : StringPtrClass}

/-- The task of sorting the `n` strings of an array from `lo` on. -/
def SortTask.ofWindow (hss : ss.Sortable) (hread : cls.hasCache = true → ss.ReadsEnd) (A : ℕ → S)
    (lo n : ℕ) : SortTask S where
  ss := ss
  cls := cls
  target := sortedFrom (ss.chars ∘ A) lo n []
  total := lo + n
  sortable := hss
  readsEnd := hread
  noNul p := by
    by_cases hp : InWindow lo n p
    · -- a place of the window holds one of the strings
      have hmem : sortedFrom (ss.chars ∘ A) lo n [] p ∈ slice (ss.chars ∘ A) lo n :=
        (slice_sortedFrom _ lo n _).mem_iff.mp (mem_slice.mpr ⟨p, hp, rfl⟩)
      obtain ⟨q, -, hq⟩ := mem_slice.mp hmem
      rw [← hq]
      exact hss.noNul _
    · -- the others hold the empty string
      rw [sortedFrom_outside _ hp]
      exact fun c hc => absurd hc List.not_mem_nil
  sorted := monotone_sortedFrom _ lo n fun x => not_lt.mp (List.not_lt_nil x)

theorem SortTask.ofWindow_pieceOk (hss : ss.Sortable) (hread : cls.hasCache = true → ss.ReadsEnd)
    (m : Memory S) (f : Bool) {lo n depth : ℕ} (hn : 0 < n)
    (hdepth : ∀ p q, InWindow lo n p → InWindow lo n q →
      SharePrefix depth (ss.chars (m.strings (cls.activeArray f) p))
        (ss.chars (m.strings (cls.activeArray f) q))) :
    (SortTask.ofWindow hss hread (m.strings (cls.activeArray f)) lo n).PieceOk
      ⟨m, m.strings (cls.activeArray f)⟩ ⟨f, ⟨lo, n⟩, depth⟩ where
  pos := hn
  bound := le_refl _
  value _ _ := rfl
  perm := (slice_sortedFrom (ss.chars ∘ m.strings (cls.activeArray f)) lo n []).symm
  depth p q hp hq := by
    -- the target holds strings of the window, which reach the depth and agree up to it
    have hmem : ∀ p, InWindow lo n p → ∃ p', InWindow lo n p' ∧
        ss.chars (m.strings (cls.activeArray f) p') =
          sortedFrom (ss.chars ∘ m.strings (cls.activeArray f)) lo n [] p := fun p hp =>
      mem_slice.mp ((slice_sortedFrom _ lo n _).mem_iff.mp (mem_slice.mpr ⟨p, hp, rfl⟩))
    obtain ⟨p', hp', hpeq⟩ := hmem p hp
    obtain ⟨q', hq', hqeq⟩ := hmem q hq
    have hshare := hdepth p' q' hp' hq'
    rw [hpeq, hqeq] at hshare
    exact hshare

/-- Strings that reach a depth and agree up to it are a piece of a task. -/
theorem exists_sortTask (hss : ss.Sortable) (hread : cls.hasCache = true → ss.ReadsEnd)
    (m : Memory S) (f : Bool) {n : ℕ} (lo depth : ℕ) (hn : 0 < n)
    (hdepth : ∀ p q, InWindow lo n p → InWindow lo n q →
      SharePrefix depth (ss.chars (m.strings (cls.activeArray f) p))
        (ss.chars (m.strings (cls.activeArray f) q))) :
    ∃ (T : SortTask S) (g : Ghost S), T.ss = ss ∧ T.cls = cls ∧ g.mem = m ∧
      T.PieceOk g ⟨f, ⟨lo, n⟩, depth⟩ :=
  ⟨.ofWindow hss hread _ lo n, _, rfl, rfl, rfl, ofWindow_pieceOk hss hread m f hn hdepth⟩

end OfWindow

/-! ## Covers -/

section Covers

variable {S : Type} {T : SortTask S} {u w : Window} {us vs : List Window}
  {promised promised' : ℕ → Prop} {g g' : Ghost S}

namespace SortTask.Covers

/-- A window whose places all belong to one piece. -/
theorem whole (T : SortTask S) (g : Ghost S) (w : Window) : T.Covers g w [w] fun _ => False where
  inside _ hu := List.mem_singleton.mp hu ▸ Window.Inside.refl w
  apart := List.pairwise_singleton _ _
  places _ hp := Or.inr ⟨w, List.mem_singleton_self w, hp⟩
  lcps _ hp := Or.inr (Or.inl ⟨w, List.mem_singleton_self w, hp⟩)

theorem perm (h : T.Covers g w us promised) (hperm : us.Perm vs) : T.Covers g w vs promised where
  inside u hu := h.inside u (hperm.mem_iff.mpr hu)
  apart := (hperm.pairwise_iff fun h => Window.Apart.symm h).mp h.apart
  places p hp := (h.places p hp).imp_right fun ⟨u, hu, hpu⟩ => ⟨u, hperm.mem_iff.mp hu, hpu⟩
  lcps p hp := (h.lcps p hp).imp_right (Or.imp_left fun ⟨u, hu, hpu⟩ =>
    ⟨u, hperm.mem_iff.mp hu, hpu⟩)

theorem agree (h : T.Covers g w us promised) (ha : Agree w g g') : T.Covers g' w us promised where
  inside := h.inside
  apart := h.apart
  places p hp := (h.places p hp).imp_left fun hfin =>
    hfin.congr (fun arr => ha.strings arr p hp) (ha.value p hp)
  lcps p hp := (h.lcps p hp).imp_left fun hok => hok.congr (ha.lcps p hp) (ha.cache p hp)

/-- A window of the cover changes, and is still worked on. -/
theorem frame (h : T.Covers g w us promised) (hu : u ∈ us) (he : Effect u g g') :
    T.Covers g' w us promised where
  inside := h.inside
  apart := h.apart
  places p hp := by
    by_cases hpu : u.Mem p
    · -- a place of `u` is still worked on, whatever happened to it
      exact Or.inr ⟨u, hu, hpu⟩
    · exact (h.places p hp).imp_left fun hfin =>
        hfin.congr (fun arr => he.strings arr p hpu) (he.value p hpu)
  lcps p hp := by
    by_cases hpu : u.Interior p
    · exact Or.inr (Or.inl ⟨u, hu, hpu⟩)
    · exact (h.lcps p hp).imp_left fun hok => hok.congr (he.lcps p hpu) (he.cache p hpu)

/-- A window of the cover is worked on, and covered by what is left of it. -/
theorem replace (h : T.Covers g w (u :: us) promised) (he : Effect u g g')
    (hc : T.Covers g' u vs promised') :
    T.Covers g' w (vs ++ us) fun p => promised p ∨ promised' p := by
  have hu : u.Inside w := h.inside u (List.mem_cons_self ..)
  -- the windows `vs` lie in `u`, so they are apart from what `u` is apart from
  have hapart := List.pairwise_cons.mp h.apart
  refine ⟨fun v hv => ?_, ?_, fun p hp => ?_, fun p hp => ?_⟩
  · rcases List.mem_append.mp hv with hv | hv
    · exact (hc.inside v hv).trans hu
    · exact h.inside v (List.mem_cons_of_mem _ hv)
  · refine List.pairwise_append.mpr ⟨hc.apart, hapart.2, fun v hv v' hv' => ?_⟩
    exact (hapart.1 v' hv').mono (hc.inside v hv) (Window.Inside.refl v')
  · by_cases hpu : u.Mem p
    · -- inside of `u` the cover of `u` says what is done
      exact (hc.places p hpu).imp_right fun ⟨v, hv, hpv⟩ => ⟨v, List.mem_append_left _ hv, hpv⟩
    · -- outside of it nothing has changed
      rcases h.places p hp with hfin | ⟨v, hv, hpv⟩
      · exact Or.inl (hfin.congr (fun arr => he.strings arr p hpu) (he.value p hpu))
      · rcases List.mem_cons.mp hv with rfl | hv
        · exact absurd hpv hpu
        · exact Or.inr ⟨v, List.mem_append_right _ hv, hpv⟩
  · by_cases hpu : u.Interior p
    · -- the same for the entries; the first one of `u` is not in its interior
      rcases hc.lcps p hpu with hok | ⟨v, hv, hpv⟩ | hpr
      · exact Or.inl hok
      · exact Or.inr (Or.inl ⟨v, List.mem_append_left _ hv, hpv⟩)
      · exact Or.inr (Or.inr (Or.inr hpr))
    · rcases h.lcps p hp with hok | ⟨v, hv, hpv⟩ | hpr
      · exact Or.inl (hok.congr (he.lcps p hpu) (he.cache p hpu))
      · rcases List.mem_cons.mp hv with rfl | hv
        · exact absurd hpv hpu
        · exact Or.inr (Or.inl ⟨v, List.mem_append_right _ hv, hpv⟩)
      · exact Or.inr (Or.inr (Or.inl hpr))

/-- A window of the cover is finished. -/
theorem finish (h : T.Covers g w (u :: us) promised)
    (hc : T.Covers g u [] fun _ => False) : T.Covers g w us promised := by
  -- a window that is covered by nothing can be taken out
  have hrep := h.replace (Effect.refl u g) hc
  exact ⟨hrep.inside, hrep.apart, hrep.places, fun p hp =>
    (hrep.lcps p hp).imp_right (Or.imp_right fun hor => hor.resolve_right fun hf => hf)⟩

/-- Entries are written, some of which had been promised. -/
theorem calculate (h : T.Covers g w us promised)
    (hs : g'.mem.strings = g.mem.strings) (hv : g'.value = g.value)
    (hok : ∀ p, w.Interior p → T.LcpOk g p → T.LcpOk g' p)
    (hpr : ∀ p, w.Interior p → promised p → promised' p ∨ T.LcpOk g' p) :
    T.Covers g' w us promised' where
  inside := h.inside
  apart := h.apart
  places p hp := (h.places p hp).imp_left fun hfin =>
    hfin.congr (fun _ => by rw [hs]) (by rw [hv])
  lcps p hp := by
    -- only entries that were promised can be new
    rcases h.lcps p hp with hl | hu | hp'
    · exact Or.inl (hok p hp hl)
    · exact Or.inr (Or.inl hu)
    · rcases hpr p hp hp' with hp'' | hl
      · exact Or.inr (Or.inr hp'')
      · exact Or.inl hl

end SortTask.Covers

end Covers

end StringSampleSort
