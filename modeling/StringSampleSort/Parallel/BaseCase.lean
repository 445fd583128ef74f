import StringSampleSort.Parallel.SortTask

/-!
# Finishing a piece

Model of the `insertion_sort` type switch of `src/parallel/bingmann-parallel_sample_sort.hpp`, and
the ways in which a piece is finished at once: by insertion sort, by filling in the LCP of strings
that are all the same, and by moving a single string to its place.

## Main results

- `insertionSort_finishes`: a piece is sorted by insertion sort
- `fillLcp_finishes`: a piece of equal strings is finished by `copy_back` and `fill_lcp`
- `copyBack_finishes`: a piece of one string is finished by `copy_back`
-/

namespace StringSampleSort

open Library Slice

/-! ## Model -/

/-- What a pointer passes to `lcp_insertion_sort`. -/
def StringPtrClass.lcpArrays {S : Type} (cls : StringPtrClass) (sp : StringPtr) (m : Memory S) :
    LcpArrays S where
  strings := (cls.output sp).get m
  lcp i := m.lcps (sp.lcps + i)
  cache i := m.cache (sp.cache + i)

/-- `insertion_sort(strptr, depth)`: the insertion sort of each pointer class, where
`use_lcp_inssort` is not set. -/
def StringPtrClass.insertionSort {S : Type} (cls : StringPtrClass) (ss : StringSet S)
    (sp : StringPtr) (depth : ℕ) (m : Memory S) : Memory S :=
  let r := cls.output sp
  if cls.withLcp then
    let a := lcpInsertionSort ss cls.hasCache (cls.lcpArrays sp m) sp.size depth
    { m.write r a.strings with
      lcps := splice m.lcps sp.lcps sp.size a.lcp
      cache := splice m.cache sp.cache sp.size a.cache }
  else m.write r (inssortGeneric ss (r.get m) sp.size depth)

/-! ## Finished windows -/

section Finish

variable {S : Type} {T : SortTask S} {g : Ghost S} {P : Piece}

open SortTask

/-- A window is finished when every place is, and every entry behind the first one. -/
theorem SortTask.Covers.of_finished {w : Window} (hfin : ∀ p, w.Mem p → T.Finished g p)
    (hlcp : ∀ p, w.Interior p → T.LcpOk g p) : T.Covers g w [] fun _ => False where
  inside _ hu := absurd hu (List.not_mem_nil)
  apart := List.Pairwise.nil
  places p hp := Or.inl (hfin p hp)
  lcps p hp := Or.inl (hlcp p hp)

theorem SortTask.Covers.finished {w : Window} {promised : ℕ → Prop}
    (h : T.Covers g w [] promised) {p : ℕ} (hp : w.Mem p) : T.Finished g p :=
  (h.places p hp).resolve_right fun ⟨_, hu, _⟩ => List.not_mem_nil hu

/-- The array of a piece in which `copy_back` leaves the strings. -/
theorem activeArray_hasOutput (cls : StringPtrClass) :
    cls.activeArray cls.hasOutput = cls.outputArray := by
  cases cls <;> rfl

theorem Memory.write_strings_self (m : Memory S) (r : StringRange) (A : ℕ → S) :
    (m.write r A).strings r.array = splice (m.strings r.array) r.begin r.size A :=
  Function.update_self ..

theorem Memory.write_strings_of_ne (m : Memory S) (r : StringRange) (A : ℕ → S) {arr : StringArray}
    (h : arr ≠ r.array) : (m.write r A).strings arr = m.strings arr :=
  Function.update_of_ne h ..

theorem Memory.write_strings_outside (m : Memory S) (r : StringRange) (A : ℕ → S)
    (arr : StringArray) {p : ℕ} (hp : ¬ InWindow r.begin r.size p) :
    (m.write r A).strings arr p = m.strings arr p := by
  by_cases harr : arr = r.array
  · subst harr
    rw [write_strings_self, splice_of_not_in _ _ hp]
  · rw [write_strings_of_ne m r A harr]

/-- `copy_back` keeps the strings of a piece and leaves them in the output array. -/
theorem copyOut_spec (h : T.PieceOk g P) :
    Effect P.window g ⟨T.cls.copyOut P.flipped P.window.lo P.window.size g.mem, g.value⟩ ∧
      T.PieceOk ⟨T.cls.copyOut P.flipped P.window.lo P.window.size g.mem, g.value⟩
        { P with flipped := T.cls.hasOutput } := by
  refine ⟨⟨fun arr p hp => Memory.write_strings_outside _ _ _ _ hp, fun _ _ => rfl,
    List.Perm.refl _, fun _ _ => rfl, fun _ _ => rfl⟩,
    ⟨h.pos, h.bound, fun p hp => ?_, h.perm, h.depth⟩⟩
  show g.value p = (T.cls.copyOut _ _ _ g.mem).strings (T.cls.activeArray T.cls.hasOutput) p
  rw [activeArray_hasOutput, StringPtrClass.copyOut, Memory.write_strings_self,
    splice_of_in _ _ hp, Nat.add_sub_cancel' hp.1]
  exact h.value p hp

/-- The array `B` rearranges the strings of the piece. -/
def Rearranges (g : Ghost S) (P : Piece) (B : ℕ → S) : Prop :=
  (contents B P.window.size).Perm (slice g.value P.window.lo P.window.size)

/-- The ghost state in which the strings of a window are those of `B`. -/
def Ghost.rearranged (g : Ghost S) (m : Memory S) (w : Window) (B : ℕ → S) : Ghost S :=
  ⟨m, splice g.value w.lo w.size B⟩

theorem Ghost.rearranged_perm (m : Memory S) {B : ℕ → S} (hB : Rearranges g P B) :
    (slice (g.rearranged m P.window B).value P.window.lo P.window.size).Perm
      (slice g.value P.window.lo P.window.size) := by
  rw [rearranged, slice_splice]
  exact hB

theorem Ghost.rearranged_chars_perm (m : Memory S) (h : T.PieceOk g P) {B : ℕ → S}
    (hB : Rearranges g P B) :
    (slice (T.ss.chars ∘ (g.rearranged m P.window B).value) P.window.lo P.window.size).Perm
      (slice T.target P.window.lo P.window.size) := by
  rw [← map_slice]
  refine ((rearranged_perm m hB).map _).trans ?_
  rw [map_slice]
  exact h.perm

theorem Ghost.rearranged_value (m : Memory S) (w : Window) (B : ℕ → S) {p : ℕ} (hp : w.Mem p) :
    (g.rearranged m w B).value p = B (p - w.lo) := splice_of_in _ _ hp

/-- Sorting the strings of a piece brings each of them to its place. -/
theorem SortTask.PieceOk.chars_sorted (h : T.PieceOk g P) {m : Memory S} {B : ℕ → S}
    (hB : Rearranges g P B) (hsorted : MonotoneIn (T.ss.chars ∘ B) 0 P.window.size) {p : ℕ}
    (hp : P.window.Mem p) : T.ss.chars ((g.rearranged m P.window B).value p) = T.target p := by
  refine eq_of_monotone (Ghost.rearranged_chars_perm m h hB) ?_ (T.monotone h.bound) hp
  intro p q hp hq hpq
  have hin : ∀ r, P.window.Mem r → InWindow 0 P.window.size (r - P.window.lo) := by
    rintro r ⟨h₁, h₂⟩
    exact ⟨Nat.zero_le _, by omega⟩
  show T.ss.chars (splice g.value _ _ B p) ≤ T.ss.chars (splice g.value _ _ B q)
  rw [splice_of_in _ _ hp, splice_of_in _ _ hq]
  exact hsorted _ _ (hin p hp) (hin q hq) (Nat.sub_le_sub_right hpq _)

/-- Writing sorted strings to the output array finishes every place. -/
theorem SortTask.PieceOk.finish_places (h : T.PieceOk g P) {m : Memory S} {B : ℕ → S}
    (hB : Rearranges g P B) (hsorted : MonotoneIn (T.ss.chars ∘ B) 0 P.window.size)
    (hm : m.strings T.cls.outputArray =
      splice (g.mem.strings T.cls.outputArray) P.window.lo P.window.size B) {p : ℕ}
    (hp : P.window.Mem p) : T.Finished (g.rearranged m P.window B) p := by
  refine ⟨?_, h.chars_sorted hB hsorted hp⟩
  show m.strings T.cls.outputArray p = splice g.value _ _ B p
  rw [hm, splice_of_in _ _ hp, splice_of_in _ _ hp]

/-- The characters of the strings before and at a place behind the first one. -/
theorem SortTask.PieceOk.chars_neighbours (h : T.PieceOk g P) {m : Memory S} {B : ℕ → S}
    (hB : Rearranges g P B) (hsorted : MonotoneIn (T.ss.chars ∘ B) 0 P.window.size) {p : ℕ}
    (hp : P.window.Interior p) : T.ss.chars (B (p - P.window.lo - 1)) = T.target (p - 1) ∧
      T.ss.chars (B (p - P.window.lo)) = T.target p := by
  have hprev : P.window.Mem (p - 1) := by
    obtain ⟨h₁, h₂⟩ := hp
    exact ⟨by omega, by omega⟩
  have h₁ := h.chars_sorted (m := m) hB hsorted hprev
  have h₂ := h.chars_sorted (m := m) hB hsorted hp.mem
  rw [Ghost.rearranged_value _ _ _ hprev] at h₁
  rw [Ghost.rearranged_value _ _ _ hp.mem] at h₂
  rw [show p - P.window.lo - 1 = p - 1 - P.window.lo by omega]
  exact ⟨h₁, h₂⟩

theorem hasCache_le_withLcp (cls : StringPtrClass) (h : cls.hasCache = true) :
    cls.withLcp = true := by
  cases cls <;> simp_all [StringPtrClass.hasCache, StringPtrClass.withLcp]

/-- A piece in the output array is sorted by insertion sort. -/
theorem insertionSort_finishes (h : T.PieceOk g P) (hout : P.flipped = T.cls.hasOutput) :
    ∃ g', g'.mem = T.cls.insertionSort T.ss (T.cls.pointer false P.window.lo P.window.size)
        P.depth g.mem ∧
      Effect P.window g g' ∧ T.Covers g' P.window [] fun _ => False := by
  have hactive : T.cls.activeArray P.flipped = T.cls.outputArray := by
    rw [hout]
    exact activeArray_hasOutput T.cls
  -- the array that is sorted
  have hview : contents (StringRange.get ⟨T.cls.outputArray, P.window.lo, P.window.size⟩ g.mem)
      P.window.size = slice g.value P.window.lo P.window.size := by
    refine contents_congr fun i hi => ?_
    rw [h.value _ ⟨Nat.le_add_right .., Nat.add_lt_add_left hi _⟩, hactive]
    rfl
  have hw : ∀ i < P.window.size, SharePrefix P.depth (T.target P.window.lo) (T.ss.chars
      (StringRange.get ⟨T.cls.outputArray, P.window.lo, P.window.size⟩ g.mem i)) := by
    intro i hi
    have hin : P.window.Mem (P.window.lo + i) :=
      ⟨Nat.le_add_right .., Nat.add_lt_add_left hi _⟩
    have hshare := h.sharePrefix hin h.mem_lo
    rw [h.value _ hin, hactive] at hshare
    exact hshare
  cases hlcp : T.cls.withLcp with
  | false =>
    obtain ⟨hsorted, hperm⟩ := inssortGeneric_spec T.sortable.orderedBy h.pos hw
    rw [hview] at hperm
    set B := inssortGeneric T.ss
      (StringRange.get ⟨T.cls.outputArray, P.window.lo, P.window.size⟩ g.mem) P.window.size P.depth
    have hmem : T.cls.insertionSort T.ss (T.cls.pointer false P.window.lo P.window.size) P.depth
        g.mem = g.mem.write ⟨T.cls.outputArray, P.window.lo, P.window.size⟩ B := by
      rw [StringPtrClass.insertionSort, hlcp, StringPtrClass.output_pointer]
      rfl
    rw [hmem]
    refine ⟨g.rearranged _ P.window B, rfl,
      ⟨fun arr p hp => Memory.write_strings_outside _ _ _ _ hp,
        fun p hp => splice_of_not_in _ _ hp, Ghost.rearranged_perm _ hperm, fun _ _ => rfl,
        fun _ _ => rfl⟩, .of_finished (fun p hp => ?_) fun p hp => ?_⟩
    · exact h.finish_places hperm hsorted (Memory.write_strings_self ..) hp
    · refine ⟨fun hl => ?_, fun hc => ?_⟩
      · rw [hlcp] at hl
        exact absurd hl (by simp)
      · have hl := hasCache_le_withLcp T.cls hc
        rw [hlcp] at hl
        exact absurd hl (by simp)
  | true =>
    have hstrings : (T.cls.lcpArrays (T.cls.pointer false P.window.lo P.window.size)
        g.mem).strings =
        StringRange.get ⟨T.cls.outputArray, P.window.lo, P.window.size⟩ g.mem := by
      rw [StringPtrClass.lcpArrays, StringPtrClass.output_pointer]
    rw [← hstrings] at hview hw
    obtain ⟨hfront, hperm, hwrites⟩ := lcpInsertionSort_spec T.cls.hasCache T.sortable.orderedBy hw
    rw [hview] at hperm
    set b := lcpInsertionSort T.ss T.cls.hasCache
      (T.cls.lcpArrays (T.cls.pointer false P.window.lo P.window.size) g.mem) P.window.size P.depth
      with hb
    have hmem : T.cls.insertionSort T.ss (T.cls.pointer false P.window.lo P.window.size) P.depth
        g.mem = { g.mem.write ⟨T.cls.outputArray, P.window.lo, P.window.size⟩ b.strings with
          lcps := splice g.mem.lcps P.window.lo P.window.size b.lcp
          cache := splice g.mem.cache P.window.lo P.window.size b.cache } := by
      rw [StringPtrClass.insertionSort, hlcp, StringPtrClass.output_pointer]
      rfl
    rw [hmem]
    have hsorted : MonotoneIn (T.ss.chars ∘ b.strings) 0 P.window.size := fun p q _ hq hpq =>
      hfront.sorted p q hpq (by simpa using hq.2)
    -- the first entry is written back unchanged
    have hsame : ∀ {α : Type} (A B : ℕ → α), B 0 = A P.window.lo → ∀ p, ¬ P.window.Interior p →
        splice A P.window.lo P.window.size B p = A p := by
      intro α A B h0 p hp
      by_cases hin : P.window.Mem p
      · have hlo : p = P.window.lo := by
          by_contra hne
          exact hp ⟨lt_of_le_of_ne hin.1 (Ne.symm hne), hin.2⟩
        rw [splice_of_in _ _ hin, hlo, Nat.sub_self]
        exact h0
      · exact splice_of_not_in _ _ hin
    refine ⟨g.rearranged _ P.window b.strings, rfl,
      ⟨fun arr p hp => Memory.write_strings_outside _ _ _ _ hp,
        fun p hp => splice_of_not_in _ _ hp, Ghost.rearranged_perm _ hperm,
        hsame _ _ (hwrites.lcp 0 (Or.inl rfl)), hsame _ _ (hwrites.cache 0 (Or.inl rfl))⟩,
      .of_finished (fun p hp => ?_) fun p hp => ?_⟩
    · exact h.finish_places hperm hsorted 
        (Memory.write_strings_self g.mem ⟨T.cls.outputArray, P.window.lo, P.window.size⟩ b.strings) hp
    · obtain ⟨hprev, hthis⟩ := h.chars_neighbours (m := g.mem) hperm hsorted hp
      have hpos : 0 < p - P.window.lo ∧ p - P.window.lo < P.window.size := by
        obtain ⟨h₁, h₂⟩ := hp
        omega
      have hentry := hfront.lcp (p - P.window.lo) hpos.1 hpos.2
      rw [lcpOf, hprev, hthis] at hentry
      refine ⟨fun _ => ?_, fun hc => ?_⟩
      · show splice g.mem.lcps _ _ b.lcp p = _
        rw [splice_of_in _ _ hp.mem, hentry]
        rfl
      · show splice g.mem.cache _ _ b.cache p = _
        have hchar := hfront.cache ⟨hc, T.readsEnd hc⟩ (p - P.window.lo) hpos.1 hpos.2
        rw [charOf, hthis, hentry] at hchar
        rw [splice_of_in _ _ hp.mem, hchar]
        rfl

/-- `copy_back`, then insertion sort. -/
theorem copyBack_insertionSort_finishes (h : T.PieceOk g P) :
    let r := T.cls.copyBack (T.pointer P) g.mem
    ∃ g', g'.mem = T.cls.insertionSort T.ss r.1 P.depth r.2 ∧
      Effect P.window g g' ∧ T.Covers g' P.window [] fun _ => False := by
  intro r
  obtain ⟨heffect, hok⟩ := copyOut_spec h
  obtain ⟨g', hmem, heffect', hcovers⟩ := insertionSort_finishes hok rfl
  refine ⟨g', ?_, heffect.trans heffect', hcovers⟩
  rw [hmem]
  change _ = T.cls.insertionSort T.ss (T.cls.copyBack (T.pointer P) g.mem).1 P.depth
    (T.cls.copyBack (T.pointer P) g.mem).2
  rw [SortTask.pointer, StringPtrClass.copyBack_pointer]

/-- The strings of a piece are finished in the output array when the target has one string
there only. -/
theorem SortTask.PieceOk.finished_of_const (h : T.PieceOk g P) (hout : P.flipped = T.cls.hasOutput)
    (hconst : ∀ p, P.window.Mem p → T.target p = T.target P.window.lo) {p : ℕ}
    (hp : P.window.Mem p) : T.Finished g p := by
  refine ⟨?_, ?_⟩
  · rw [h.value p hp, hout, activeArray_hasOutput]
  · obtain ⟨q, hq, heq⟩ := h.exists_target hp
    rw [heq, hconst q hq, hconst p hp]

/-- A piece in the output array whose strings are all the same is finished by `fill_lcp` with
their length. -/
theorem fillLcp_output_finishes (h : T.PieceOk g P) (hout : P.flipped = T.cls.hasOutput)
    (hconst : ∀ p, P.window.Mem p → T.target p = T.target P.window.lo) {v : ℕ}
    (hv : (T.target P.window.lo).length = v) :
    ∃ g', g'.mem = T.cls.fillLcp (T.cls.pointer false P.window.lo P.window.size) v g.mem ∧
      Effect P.window g g' ∧ T.Covers g' P.window [] fun _ => False := by
  rw [StringPtrClass.fillLcp_pointer]
  have hinterior : ∀ p, InWindow (P.window.lo + 1) (P.window.size - 1) p ↔ P.window.Interior p := by
    intro p
    have := h.pos
    rw [InWindow, Window.Interior]
    omega
  have hprev : ∀ p, P.window.Interior p → P.window.Mem (p - 1) := by
    rintro p ⟨h₁, h₂⟩
    exact ⟨by omega, by omega⟩
  refine ⟨⟨T.cls.filled P.window.lo P.window.size v g.mem, g.value⟩, rfl,
    ⟨fun _ _ _ => rfl, fun _ _ => rfl, List.Perm.refl _, fun p hp => ?_, fun p hp => ?_⟩,
    .of_finished (fun p hp => ?_) fun p hp => ⟨fun hl => ?_, fun hc => ?_⟩⟩
  · show (if T.cls.withLcp then _ else _ : ℕ → ℕ) p = g.mem.lcps p
    split
    · exact splice_of_not_in _ _ fun hin => hp ((hinterior p).mp hin)
    · rfl
  · show (if T.cls.hasCache then _ else _ : ℕ → CharType) p = g.mem.cache p
    split
    · exact splice_of_not_in _ _ fun hin => hp ((hinterior p).mp hin)
    · rfl
  · exact (h.finished_of_const hout hconst hp).congr (fun _ => rfl) rfl
  · show (if T.cls.withLcp then _ else _ : ℕ → ℕ) p = _
    rw [if_pos hl, splice_of_in _ _ ((hinterior p).mpr hp), lcpAt, hconst _ (hprev p hp),
      hconst _ hp.mem, lcpLen_self, hv]
  · show (if T.cls.hasCache then _ else _ : ℕ → CharType) p = _
    rw [if_pos hc, splice_of_in _ _ ((hinterior p).mpr hp), lcpAt, hconst _ (hprev p hp),
      hconst _ hp.mem, lcpLen_self, List.getD_eq_default _ _ (le_refl _)]

/-- A piece whose strings are all the same is finished by `copy_back` and `fill_lcp` with their
length. -/
theorem fillLcp_finishes (h : T.PieceOk g P)
    (hconst : ∀ p, P.window.Mem p → T.target p = T.target P.window.lo) {v : ℕ}
    (hv : (T.target P.window.lo).length = v) :
    let r := T.cls.copyBack (T.pointer P) g.mem
    ∃ g', g'.mem = T.cls.fillLcp r.1 v r.2 ∧
      Effect P.window g g' ∧ T.Covers g' P.window [] fun _ => False := by
  intro r
  obtain ⟨heffect, hok⟩ := copyOut_spec h
  obtain ⟨g', hmem, heffect', hcovers⟩ := fillLcp_output_finishes hok rfl hconst hv
  refine ⟨g', ?_, heffect.trans heffect', hcovers⟩
  rw [hmem, show r = _ from StringPtrClass.copyBack_pointer g.mem _ _ _]

/-- A piece of one string in the output array is finished. -/
theorem SortTask.PieceOk.single_finished (h : T.PieceOk g P) (hout : P.flipped = T.cls.hasOutput)
    (hone : P.window.size = 1) : T.Covers g P.window [] fun _ => False := by
  refine .of_finished (fun p hp => h.finished_of_const hout (fun q hq => ?_) hp) fun p hp => ?_
  · have h₁ : P.window.lo ≤ q := hq.1
    have h₂ : q < P.window.lo + P.window.size := hq.2
    rw [show q = P.window.lo by omega]
  · obtain ⟨h₁, h₂⟩ := hp
    omega

/-- A piece of one string is finished by `copy_back`. -/
theorem copyBack_finishes (h : T.PieceOk g P) (hone : P.window.size = 1) :
    ∃ g', g'.mem = (T.cls.copyBack (T.pointer P) g.mem).2 ∧
      Effect P.window g g' ∧ T.Covers g' P.window [] fun _ => False := by
  obtain ⟨heffect, hok⟩ := copyOut_spec h
  rw [SortTask.pointer, StringPtrClass.copyBack_pointer]
  exact ⟨_, rfl, heffect, hok.single_finished rfl hone⟩

end Finish

end StringSampleSort
