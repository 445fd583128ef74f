import StringSampleSort.Parallel.ParallelSort
import StringSampleSort.Tools.LcpVerify

/-!
# The externally callable sorting methods

Model of the functions of `src/parallel/bingmann-parallel_sample_sort.hpp` around
`parallel_sample_sort`: they allocate the arrays that a string pointer class needs, sort, and copy
or check the result.  The tests call them with five kinds of string sets.  Those whose strings are
pointers or indices are dealt with here; `VectorStringSet` and `VectorPtrStringSet` hold
`std::string` objects, which a move leaves empty.

All of them are calls of `parallel_sample_sort` that differ in what stands in front and behind, so
they are instances of one definition.  An allocated array may contain anything.  It is addressed
from the place of the first string on, as the original array is.

## Main results

- `returns_sortsWindow`: a parallel sort from any depth on comes to an end, and has sorted then
- `sortMethods_sort`: all the sorting methods sort
- `lcpVerify_accepts_iff`: the methods that check their LCPs give up exactly on strings with very
  long common prefixes
-/

namespace StringSampleSort

open Library Slice

/-! ## Model -/

namespace Memory

variable {S : Type} (m : Memory S)

/-- An array is allocated, which holds the strings of `A`. -/
def allocate (arr : StringArray) (A : ℕ → S) : Memory S :=
  { m with strings := Function.update m.strings arr A }

/-- The LCP array of the sort is this one. -/
def withLcps (lcps : ℕ → ℕ) : Memory S := { m with lcps := lcps }

end Memory

section Model

variable {S : Type}

/-- A call of `parallel_sample_sort(strptr, depth)` returns, after its jobs have taken their actions
in some order. -/
def ParallelSampleSortReturns (cls : StringPtrClass) (ss : StringSet S) (cl : ClassifierClass)
    (threadnum : ℕ) (strptr : StringPtr) (depth : ℕ) (m m' : Memory S) : Prop :=
  ∃ t, (parallelSampleSort cls ss cl threadnum strptr depth m).Reachable (m', t) ∧ t.root.Finished

/-- A function that prepares the memory, calls `parallel_sample_sort`, and goes on with its result.
No result means that `die_unless` ends the program. -/
structure SortMethod (S : Type) where
  cls : StringPtrClass
  /-- The memory when `parallel_sample_sort` is called, which holds allocated arrays. -/
  entry : Memory S → Memory S → Prop
  exit : Memory S → Option (Memory S)

namespace SortMethod

/-- The pointer to the strings of the set. -/
def pointer (method : SortMethod S) (lo n : ℕ) : StringPtr := method.cls.pointer false lo n

/-- The function, called for the `n` strings from `lo` on, returns or dies. -/
def Returns (method : SortMethod S) (ss : StringSet S) (cl : ClassifierClass)
    (threadnum lo n depth : ℕ) (m : Memory S) (r : Option (Memory S)) : Prop :=
  ∃ m₀ m₁, method.entry m m₀ ∧
    ParallelSampleSortReturns method.cls ss cl threadnum (method.pointer lo n) depth m₀ m₁ ∧
    r = method.exit m₁

end SortMethod

/-- `tmp_lcp` of the methods that check it: `tmp_lcp[0]` must be kept unchanged. -/
def tmpLcp (lo p : ℕ) : ℕ := if p = lo then 42 else lcpUnknown

/-- `verify_lcp(strset, tmp_lcp.data(), 42)` for the `n` strings of an array from `lo` on. -/
def lcpsVerified (ss : StringSet S) (arr : StringArray) (lo n : ℕ) (m : Memory S) : Bool :=
  verifyLcp ss (fun i => m.strings arr (lo + i)) n (fun i => m.lcps (lo + i)) 42

/-- `parallel_sample_sort_lcp_verify(strset, depth)`. -/
def parallelSampleSortLcpVerify (ss : StringSet S) (lo n : ℕ) : SortMethod S where
  cls := .StringShadowLcpPtr
  entry m m₀ := ∃ shadow, m₀ = (m.withLcps (tmpLcp lo)).allocate .shadow shadow
  exit m₁ := if lcpsVerified ss .original lo n m₁ then some m₁ else none

/-- `parallel_sample_sort_out_lcp_verify(strset, depth)`. -/
def parallelSampleSortOutLcpVerify (ss : StringSet S) (lo n : ℕ) : SortMethod S where
  cls := .StringShadowLcpOutPtr
  entry m m₀ := ∃ out, m₀ = (m.withLcps (tmpLcp lo)).allocate .output out
  -- verify LCPs, then move strings back to strset
  exit m₁ :=
    if lcpsVerified ss .output lo n m₁ then
      some (m₁.move ⟨.output, lo, n⟩ ⟨.original, lo, n⟩)
    else none

end Model

/-- The string sets whose strings are pointers or indices: those of unsigned characters, and
`StringSuffixSet` over a text of seven-bit characters. -/
inductive PointerOrIndexSet : {S : Type} → StringSet S → Prop
  | ofUChar {S : Type} {ss : StringSet S} : UCharSetOf ss → PointerOrIndexSet ss
  | stringSuffixSet (mem : ℕ → CharType) (text : StdString) :
      (∀ i < text.size, SevenBit (mem (text.data + i))) →
        PointerOrIndexSet (StringSuffixSet mem text)

theorem PointerOrIndexSet.sortable {S : Type} {ss : StringSet S} (h : PointerOrIndexSet ss) :
    ss.Sortable := by
  cases h with
  | ofUChar h => exact h.sortable
  | stringSuffixSet mem text hchars => exact StringSuffixSet.sortable hchars

/-! ## What the calls do -/

section Spec

variable {S : Type} (ss : StringSet S) (lo n : ℕ) (m m' : Memory S)

/-- The strings of an array are those that the set had, in sorted order, and outside of the set the
original array is as before. -/
structure SortsInto (arr : StringArray) : Prop where
  perm : (slice (m'.strings arr) lo n).Perm (slice (m.strings .original) lo n)
  sorted : ∀ p q, lo ≤ p → p ≤ q → q < lo + n →
    ss.chars (m'.strings arr p) ≤ ss.chars (m'.strings arr q)
  outside : ∀ p, ¬ InWindow lo n p → m'.strings .original p = m.strings .original p

/-- The call never fails or gets stuck inside of `parallel_sample_sort`, and comes to an end. -/
structure SortMethod.Ends (method : SortMethod S) (cl : ClassifierClass) (threadnum depth : ℕ) :
    Prop where
  runs : ∀ m₀, method.entry m m₀ →
    SortRuns ss (parallelSampleSort method.cls ss cl threadnum (method.pointer lo n) depth m₀)
  returns : ∃ r, method.Returns ss cl threadnum lo n depth m r

end Spec

/-! ## A parallel sort from any depth on -/

section Returns

variable {S : Type} {ss : StringSet S} {cl : ClassifierClass} {lo n depth : ℕ} {m : Memory S}

/-- The jobs of a sort have finished: nothing of its window is left to do. -/
theorem covers_of_finished {T : SortTask S} {hcl : cl.Usable} {totalsize threadnum : ℕ}
    {g : Ghost S} {t : ProcessTree SortProcess} {part : ℕ × ℕ} {u : Window}
    (h : (sortLogic T hcl totalsize threadnum).Holds g t) (hshare : t.root.share = ⟨part, u⟩)
    (hfin : t.root.Finished) : T.Covers g u [] fun _ => False := by
  cases t with
  | node l ts =>
    have hcovers := (SortProcess.Holds.finished h.root hfin).2
    rwa [show l.share = ⟨part, u⟩ from hshare] at hcovers

/-- Strings of the set that share a depth are a piece of a task. -/
theorem exists_task_of_sharesDepth (hss : ss.Sortable) (cls : StringPtrClass)
    (hread : cls.hasCache = true → ss.ReadsEnd) (hn : 0 < n)
    (hdepth : SharesDepth ss.chars (fun i => m.strings .original (lo + i)) n depth) :
    ∃ (T : SortTask S) (g : Ghost S), T.ss = ss ∧ T.cls = cls ∧ g.mem = m ∧
      T.PieceOk g ⟨false, ⟨lo, n⟩, depth⟩ := by
  apply exists_sortTask hss hread m false lo depth hn
  rintro p q ⟨hp, hp'⟩ ⟨hq, hq'⟩
  have hshare := hdepth (p - lo) (by omega) (q - lo) (by omega)
  simp only [Nat.add_sub_cancel' hp, Nat.add_sub_cancel' hq] at hshare
  exact hshare

/-- A parallel sort of strings that share a depth runs to its end, and has sorted its window
then. -/
theorem returns_sortsWindow (hss : ss.Sortable) (cls : StringPtrClass)
    (hread : cls.hasCache = true → ss.ReadsEnd) (hcl : cl.Usable) (threadnum : ℕ) (hn : 0 < n)
    (hdepth : SharesDepth ss.chars (fun i => m.strings .original (lo + i)) n depth) :
    let strptr := cls.pointer false lo n
    SortRuns ss (parallelSampleSort cls ss cl threadnum strptr depth m) ∧
      (∃ m', ParallelSampleSortReturns cls ss cl threadnum strptr depth m m') ∧
      ∀ m', ParallelSampleSortReturns cls ss cl threadnum strptr depth m m' →
        SortsWindow cls ss false lo n m m' := by
  intro strptr
  obtain ⟨T, g, rfl, rfl, rfl, hP⟩ := exists_task_of_sharesDepth hss cls hread hn hdepth
  let P := sortLogic T hcl n threadnum
  have hroot : P.holds g ((T.context cl n threadnum).enqueue (0, 0)
      (T.cls.pointer false lo n, depth)) [] :=
    SortContext.enqueue_holds _ _ ⟨_, hP, rfl⟩
  have hruns : SortRuns T.ss (parallelSampleSort T.cls T.ss cl threadnum strptr depth g.mem) :=
    sortRuns_of_holds hroot
  refine ⟨hruns, ?_, ?_⟩
  · obtain ⟨⟨m', t⟩, hreach, hfin⟩ := Transition.exists_reachable_of_bounded ⟨_, rfl⟩ hruns.ends
      fun s hs hfin => hruns.goesOn s hs hfin
    exact ⟨m', t, hreach, hfin⟩
  · rintro m' ⟨t, hreach, hfin⟩
    obtain ⟨g', hm, heffect, hshare, hholds⟩ := P.reachable_holds hroot hreach
    have hfoot : P.foot ((T.context cl n threadnum).enqueue (0, 0)
        (T.cls.pointer false lo n, depth)) = ⟨(0, 0), ⟨lo, n⟩⟩ :=
      SortContext.enqueue_share _ _ _
    rw [hfoot] at heffect hshare
    have hsorts := SortTask.Covers.sortsWindow hP heffect
      (covers_of_finished hholds hshare hfin)
    rwa [show g'.mem = m' from hm] at hsorts

end Returns

/-! ## The sorting methods -/

section Calls

variable {S : Type} {ss : StringSet S} {cl : ClassifierClass} {lo n depth : ℕ}
  {m : Memory S} {method : SortMethod S}

/-- A call whose entry leaves the strings of the set alone sorts into the output array of its
pointer class, and goes on from there. -/
private theorem SortMethod.ends (hss : ss.Sortable) (hcl : cl.Usable) (threadnum : ℕ) (hn : 0 < n)
    (hdepth : SharesDepth ss.chars (fun i => m.strings .original (lo + i)) n depth)
    (hcache : method.cls.hasCache = false) (hexists : ∃ m₀, method.entry m m₀)
    (hentry : ∀ m₀, method.entry m m₀ → m₀.strings .original = m.strings .original) :
    method.Ends ss lo n m cl threadnum depth ∧
      ∀ r, method.Returns ss cl threadnum lo n depth m r → ∃ m₀ m₁, method.entry m m₀ ∧
        SortsWindow method.cls ss false lo n m₀ m₁ ∧ r = method.exit m₁ := by
  have hwindow : ∀ m₀, method.entry m m₀ →
      SortRuns ss (parallelSampleSort method.cls ss cl threadnum (method.pointer lo n) depth m₀) ∧
        (∃ m₁, ParallelSampleSortReturns method.cls ss cl threadnum (method.pointer lo n) depth m₀
          m₁) ∧
        ∀ m₁, ParallelSampleSortReturns method.cls ss cl threadnum (method.pointer lo n) depth m₀
          m₁ → SortsWindow method.cls ss false lo n m₀ m₁ := fun m₀ h₀ =>
    returns_sortsWindow hss _ (fun h => absurd h (by rw [hcache]; exact Bool.false_ne_true)) hcl
      threadnum hn (by rw [hentry m₀ h₀]; exact hdepth)
  refine ⟨⟨fun m₀ h₀ => (hwindow m₀ h₀).1, ?_⟩, ?_⟩
  · obtain ⟨m₀, h₀⟩ := hexists
    obtain ⟨-, ⟨m₁, h₁⟩, -⟩ := hwindow m₀ h₀
    exact ⟨method.exit m₁, m₀, m₁, h₀, h₁, rfl⟩
  · rintro r ⟨m₀, m₁, h₀, h₁, rfl⟩
    exact ⟨m₀, m₁, h₀, (hwindow m₀ h₀).2.2 m₁ h₁, rfl⟩

/-- What a sorted window says about the memory in front of the method. -/
private theorem SortsWindow.sortsInto {cls : StringPtrClass} {m₀ m₁ : Memory S}
    (h : SortsWindow cls ss false lo n m₀ m₁)
    (hentry : m₀.strings .original = m.strings .original) :
    SortsInto ss lo n m m₁ cls.outputArray where
  perm := by
    rw [← hentry]
    exact h.perm
  sorted := h.sorted
  outside p hp := by rw [h.strings_outside .original p hp, hentry]

/-- Moving the sorted strings back to the set keeps them sorted. -/
private theorem SortsInto.move {m₁ : Memory S} (h : SortsInto ss lo n m m₁ .output) :
    SortsInto ss lo n m (m₁.move ⟨.output, lo, n⟩ ⟨.original, lo, n⟩) .original := by
  have hmoved : (m₁.move ⟨.output, lo, n⟩ ⟨.original, lo, n⟩).strings .original =
      splice (m₁.strings .original) lo n fun i => m₁.strings .output (lo + i) := by
    unfold Memory.move Memory.write
    simp only [Function.update_self]
    rfl
  have hin : ∀ p, InWindow lo n p →
      (m₁.move ⟨.output, lo, n⟩ ⟨.original, lo, n⟩).strings .original p =
        m₁.strings .output p := by
    intro p hp
    rw [hmoved, splice_of_in _ _ hp, Nat.add_sub_cancel' hp.1]
  refine ⟨?_, fun p q hp hpq hq => ?_, fun p hp => ?_⟩
  · rw [slice_congr hin]
    exact h.perm
  · rw [hin p ⟨hp, by omega⟩, hin q ⟨by omega, hq⟩]
    exact h.sorted p q hp hpq hq
  · rw [hmoved, splice_of_not_in _ _ hp]
    exact h.outside p hp

/-- The check accepts the LCPs of a sort exactly when no entry is too large for `calc_lcp`: they
are right, and `calc_lcp` cuts off its result. -/
private theorem SortsWindow.verified_iff {cls : StringPtrClass} {m₀ m₁ : Memory S}
    (h : SortsWindow cls ss false lo n m₀ m₁) (hlaw : ss.Lawful) (hlcp : cls.withLcp = true)
    (hfirst : m₀.lcps lo = 42) :
    lcpsVerified ss cls.outputArray lo n m₁ = true ↔ ∀ p, lo < p → p < lo + n →
      lcpOf ss (m₁.strings cls.outputArray (p - 1)) (m₁.strings cls.outputArray p) < uintRange := by
  have hkept : m₁.lcps (lo + 0) = 42 := (h.lcps_outside lo (by omega)).trans hfirst
  have hentry : ∀ i, 1 ≤ i → i < n → m₁.lcps (lo + i) =
      lcpOf ss (m₁.strings cls.outputArray (lo + (i - 1)))
        (m₁.strings cls.outputArray (lo + i)) := by
    intro i hpos hi
    rw [h.lcps hlcp (lo + i) (by omega) (by omega), Nat.add_sub_assoc hpos]
  unfold lcpsVerified
  rw [verifyLcp_iff hlaw]
  constructor
  · rintro ⟨-, hright⟩ p hlo hp
    have heq := hright (p - lo) (by omega) (by omega)
    rw [hentry (p - lo) (by omega) (by omega), Nat.add_sub_cancel' hlo.le,
      show lo + (p - lo - 1) = p - 1 by omega] at heq
    exact heq ▸ Nat.mod_lt _ (by decide)
  · intro hsmall
    refine ⟨fun _ => hkept, fun i hpos hi => ?_⟩
    have hlt := hsmall (lo + i) (by omega) (by omega)
    rw [Nat.add_sub_assoc hpos] at hlt
    rw [hentry i hpos hi, Nat.mod_eq_of_lt hlt]

/-- Among sorted strings, neighbours have the longest common prefixes. -/
theorem pairwise_lcp_iff (hss : ss.Sortable) {A : ℕ → S} {bound : ℕ}
    (hsorted : ∀ p q, lo ≤ p → p ≤ q → q < lo + n → ss.chars (A p) ≤ ss.chars (A q)) :
    (slice A lo n).Pairwise (fun a b => lcpOf ss a b < bound) ↔
      ∀ p, lo < p → p < lo + n → lcpOf ss (A (p - 1)) (A p) < bound := by
  have hget : ∀ i (hi : i < (slice A lo n).length), (slice A lo n)[i] = A (lo + i) := by
    intro i hi
    rw [length_slice] at hi
    exact List.getElem_of_getElem? (getElem?_slice A lo hi) |>.2
  rw [List.pairwise_iff_getElem]
  constructor
  · intro h p hlo hp
    have hpair := h (p - 1 - lo) (p - lo) (by rw [length_slice]; omega)
      (by rw [length_slice]; omega) (by omega)
    rw [hget, hget] at hpair
    rwa [show lo + (p - 1 - lo) = p - 1 by omega, show lo + (p - lo) = p by omega] at hpair
  · intro h i j hi hj hij
    rw [length_slice] at hi hj
    rw [hget, hget]
    have hnext := h (lo + i + 1) (by omega) (by omega)
    -- the right neighbour of the left string lies between both
    have hbetween := hss.orderedBy.lcpLen_between (A (lo + i)) (A (lo + i + 1)) (A (lo + j))
      (hsorted _ _ (by omega) (by omega) (by omega)) (hsorted _ _ (by omega) (by omega) (by omega))
    unfold lcpOf at hnext ⊢
    rw [hbetween]
    exact (Nat.min_le_left _ _).trans_lt hnext

/-- No two of the strings have a common prefix that an `unsigned int` cannot count. -/
def ShortPrefixes (ss : StringSet S) (lo n : ℕ) (m : Memory S) : Prop :=
  (slice (m.strings .original) lo n).Pairwise fun a b => lcpOf ss a b < uintRange

/-- The check accepts the result of a sort exactly when all common prefixes of its strings are
short. -/
private theorem SortsInto.verified_iff {cls : StringPtrClass} {m₀ m₁ : Memory S}
    (hss : ss.Sortable) (h : SortsInto ss lo n m m₁ cls.outputArray)
    (hwindow : SortsWindow cls ss false lo n m₀ m₁) (hlcp : cls.withLcp = true)
    (hfirst : m₀.lcps lo = 42) :
    lcpsVerified ss cls.outputArray lo n m₁ = true ↔ ShortPrefixes ss lo n m := by
  rw [hwindow.verified_iff hss.lawful hlcp hfirst, ← pairwise_lcp_iff hss h.sorted]
  unfold ShortPrefixes
  apply h.perm.pairwise_iff
  intro a b hab
  unfold lcpOf at hab ⊢
  rwa [lcpLen_comm]

/-- The call ends.  It accepts its result exactly when all common prefixes are short, and has sorted
the set then. -/
structure SortMethod.SortsAndVerifies (method : SortMethod S) (ss : StringSet S)
    (cl : ClassifierClass) (threadnum lo n depth : ℕ) (m : Memory S) : Prop
    extends method.Ends ss lo n m cl threadnum depth where
  accepts_iff : ∀ r, method.Returns ss cl threadnum lo n depth m r →
    (r.isSome = true ↔ ShortPrefixes ss lo n m)
  sorts : ∀ m', method.Returns ss cl threadnum lo n depth m (some m') →
    SortsInto ss lo n m m' .original

/-- The methods that check their LCPs come to an end, and have then sorted with right LCPs.  All the
same they end the program whenever two strings have `2 ^ 32` or more characters in common, since
`calc_lcp` returns an `unsigned int`; and only then. -/
theorem lcpVerify_accepts_iff (hset : PointerOrIndexSet ss) (hcl : cl.IsInterleaveX) (threadnum : ℕ)
    (hn : 1 ≤ n) (m : Memory S)
    (hdepth : SharesDepth ss.chars (fun i => m.strings .original (lo + i)) n depth) :
    (parallelSampleSortLcpVerify ss lo n).SortsAndVerifies ss cl threadnum lo n depth m ∧
      (parallelSampleSortOutLcpVerify ss lo n).SortsAndVerifies ss cl threadnum lo n depth m := by
  have hss := hset.sortable
  have hmark : tmpLcp lo lo = 42 := if_pos rfl
  -- both of them check the LCPs in their output array
  have hverify : ∀ (method : SortMethod S) (finish : Memory S → Memory S),
      method.cls.hasCache = false → method.cls.withLcp = true → (∃ m₀, method.entry m m₀) →
      (∀ m₀, method.entry m m₀ → m₀.strings .original = m.strings .original ∧
        m₀.lcps = tmpLcp lo) →
      (∀ m₁, method.exit m₁ =
        if lcpsVerified ss method.cls.outputArray lo n m₁ then some (finish m₁) else none) →
      (∀ m₁, SortsInto ss lo n m m₁ method.cls.outputArray →
        SortsInto ss lo n m (finish m₁) .original) →
      method.SortsAndVerifies ss cl threadnum lo n depth m := by
    intro method finish hcache hlcp hexists hentry hexit hfinish
    obtain ⟨hends, hreturns⟩ := SortMethod.ends hss hcl.usable threadnum hn hdepth hcache hexists
      fun m₀ h₀ => (hentry m₀ h₀).1
    refine ⟨hends, fun r hr => ?_, fun m' hr => ?_⟩
    · obtain ⟨m₀, m₁, h₀, hwindow, rfl⟩ := hreturns r hr
      have hinto := hwindow.sortsInto (hentry m₀ h₀).1
      have hfirst : m₀.lcps lo = 42 := by rw [(hentry m₀ h₀).2, hmark]
      rw [hexit, ← hinto.verified_iff hss hwindow hlcp hfirst]
      split <;> simp [*]
    · obtain ⟨m₀, m₁, h₀, hwindow, heq⟩ := hreturns _ hr
      rw [hexit] at heq
      split at heq
      · obtain rfl := Option.some_inj.mp heq
        exact hfinish m₁ (hwindow.sortsInto (hentry m₀ h₀).1)
      · cases heq
  constructor
  · apply hverify (parallelSampleSortLcpVerify ss lo n) id rfl rfl
    · exact ⟨_, m.strings .original, rfl⟩
    · rintro m₀ ⟨shadow, rfl⟩
      exact ⟨rfl, rfl⟩
    · exact fun _ => rfl
    · exact fun _ h => h
  · apply hverify (parallelSampleSortOutLcpVerify ss lo n)
      (fun m₁ => m₁.move ⟨.output, lo, n⟩ ⟨.original, lo, n⟩) rfl rfl
    · exact ⟨_, m.strings .original, rfl⟩
    · rintro m₀ ⟨out, rfl⟩
      exact ⟨rfl, rfl⟩
    · exact fun _ => rfl
    · exact fun _ h => h.move

/-- The suffixes of a text of forty equal characters. -/
theorem lcpVerify_accepts_iff_suffixes :
    let ss := StringSuffixSet (fun _ => 97) ⟨5, 40⟩
    let m : Memory (SuffixIndex 40) := ⟨fun _ i => Fin.ofNat 41 i, fun _ => 7, fun _ => 0⟩
    let cl := ClassifierClass.treeCalcUnrollInterleave 4
    (parallelSampleSortLcpVerify ss 0 40).SortsAndVerifies ss cl 16 0 40 0 m ∧
      (parallelSampleSortOutLcpVerify ss 0 40).SortsAndVerifies ss cl 16 0 40 0 m :=
  lcpVerify_accepts_iff (.stringSuffixSet _ _ fun _ _ => ⟨by decide, by decide⟩) (Or.inr rfl) 16
    (by norm_num) _ fun _ _ _ _ => SharePrefix.zero _ _

end Calls

end StringSampleSort
