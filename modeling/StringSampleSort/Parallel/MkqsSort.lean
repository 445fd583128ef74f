import StringSampleSort.Parallel.JobPlan
import StringSampleSort.Parallel.MkqsStep
import StringSampleSort.Sequential.SampleSort

/-!
# Multikey quicksort with cached keys

Model of `sort_mkqs_cache` of `src/parallel/bingmann-parallel_sample_sort.hpp` while no thread is
idle.  The recursion is an explicit stack of steps, and all of them keep their keys in one buffer.

What is left to do is covered by the areas that the steps on the stack have not dealt with, and
every entry that does not belong to one of them is right, or promised by a step on the stack.

## Main results

- `mkqsRound_spec`: a round keeps the invariant, and leaves fewer rounds
- `mkqsLoop_spec`: the loop empties the stack
- `sortMkqsCache_sorts`: the window is sorted, and keys are right wherever they are trusted
-/

namespace StringSampleSort

open Library Slice SortTask

/-! ## Model -/

/-- `enable_sequential_mkqs`. -/
def enableSequentialMkqs : Bool := true

/-- `g_inssort_threshold` of the parallel sample sort. -/
def parallelInssortThreshold : ℕ := 32

/-- What the constructor of `MKQSStep` or `insertion_sort_cache` has been entered with. -/
structure MkqsEntry (S : Type) where
  strptr : StringPtr
  cache : ℕ
  depth : ℕ
  CacheDirty : Bool
  memory : KeyMemory S

/-- The members of a `SmallsortJob` that `sort_mkqs_cache` works with.  The last step of the stack
comes first; `created` counts the steps of the job so far, and `history` lists what has been done
for them, latest first. -/
structure MkqsMembers where
  bktcache_size : ℕ
  ms_pop_front : ℕ
  ms_stack : List MKQSStep
  created : ℕ
  history : List (Event RangeCall)

/-- The memory, the members, and what the steps and the insertion sorts have been entered with. -/
structure MkqsState (S : Type) extends KeyMemory S, MkqsMembers where
  entries : List (MkqsEntry S)

section Model

variable {S : Type} (cls : StringPtrClass) (ss : StringSet S)

namespace MkqsState

/-- The state after an entry has been noted. -/
def enter (s : MkqsState S) (strptr : StringPtr) (cache depth : ℕ) (CacheDirty : Bool) :
    MkqsState S :=
  { s with entries := s.entries ++ [⟨strptr, cache, depth, CacheDirty, s.toKeyMemory⟩] }

/-- The state after an event has been noted. -/
def note (e : Event RangeCall) (s : MkqsState S) : MkqsState S :=
  { s with history := e :: s.history }

/-- `ms_stack.emplace_back(ctx, strptr, cache, depth, CacheDirty)`. -/
def emplaceBack (strptr : StringPtr) (cache depth : ℕ) (CacheDirty : Bool) (s : MkqsState S) :
    Option (MkqsState S) :=
  (mkqsStep ss s.created strptr cache depth CacheDirty s.toKeyMemory).map fun r =>
    ({ s.enter strptr cache depth CacheDirty with
      toKeyMemory := r.2
      ms_stack := r.1 :: s.ms_stack
      created := s.created + 1 } : MkqsState S).note (.create s.created r.1.shape)

/-- Part `i` of step `level`, which is not empty, goes to the insertion sort or becomes a step
itself. -/
def sortPart (level i : ℕ) (strptr : StringPtr) (cache depth : ℕ) (CacheDirty : Bool)
    (s : MkqsState S) : Option (MkqsState S) :=
  if strptr.size < parallelInssortThreshold then
    some (({ s.enter strptr cache depth CacheDirty with
      toKeyMemory := insertionSortCache cls ss CacheDirty strptr cache depth s.toKeyMemory } :
        MkqsState S).note (.deal level i (.sorted (strptr, depth))))
  else (s.note (.deal level i (.pushed s.created (strptr, depth)))).emplaceBack ss strptr cache
    depth CacheDirty

end MkqsState

/-- One round of the `while` loop of `sort_mkqs_cache`, up to the question whether a thread is
idle.  No result means that an assertion fails, or that there is no step. -/
def mkqsRound (s : MkqsState S) : Option (MkqsState S) :=
  match s.ms_stack with
  | [] => none
  | top :: rest =>
    -- increment here, because stack may change
    let ms := { top with idx := top.idx + 1 }
    let s := { s with ms_stack := ms :: rest }
    -- process the lt-subsequence
    if ms.idx = 1 then
      if ms.num_lt = 0 then some s
      else s.sortPart cls ss ms.level 0 (ms.strptr.sub 0 ms.num_lt) ms.cache ms.depth false
    -- process the eq-subsequence
    else if ms.idx = 2 then
      let sp := ms.strptr.sub ms.num_lt ms.num_eq
      if ms.num_eq > 0 then
        if !ms.eq_recurse then
          let spb := cls.copyBack sp s.mem
          some ({ s with mem := cls.fillLcp spb.1 (ms.depth + ms.lcp_eq) spb.2 }.note
            (.deal ms.level 1 .filled))
        else s.sortPart cls ss ms.level 1 sp (ms.cache + ms.num_lt) (ms.depth + 8) true
      else none
    -- process the gt-subsequence
    else if ms.idx = 3 then
      let sp := ms.strptr.sub (ms.num_lt + ms.num_eq) ms.num_gt
      if ms.num_gt = 0 then some s
      else s.sortPart cls ss ms.level 2 sp (ms.cache + (ms.num_lt + ms.num_eq)) ms.depth false
    -- calculate LCP after the three parts are sorted
    else some ({ s with mem := ms.calculateLcp cls s.mem, ms_stack := rest }.note
      (.calculate ms.level))

/-- The `while` loop of `sort_mkqs_cache`, for so many rounds at most. -/
def mkqsLoop : ℕ → MkqsState S → Option (MkqsState S)
  | 0, s => if s.ms_stack.length > s.ms_pop_front then none else some s
  | rounds + 1, s =>
    if s.ms_stack.length > s.ms_pop_front then (mkqsRound cls ss s).bind (mkqsLoop rounds)
    else some s

/-- A bucket that is sorted has been dealt with. -/
def MkqsState.dealt (bucket : Option (ℕ × ℕ)) (d : Deal RangeCall) (s : MkqsState S) :
    MkqsState S :=
  match bucket with
  | none => s
  | some (level, i) => s.note (.deal level i d)

/-- `sort_mkqs_cache(ctx, strptr, depth)` up to its loop, and whether it gets there.  `fresh` is
what a new buffer contains, and `bucket` the bucket that is sorted, if it is one. -/
def callMkqsCache (fresh : ℕ → KeyType) (bucket : Option (ℕ × ℕ)) (strptr : StringPtr) (depth : ℕ)
    (s : MkqsState S) : Option (Bool × MkqsState S) :=
  if !enableSequentialMkqs || strptr.size < parallelInssortThreshold then
    let r := cls.copyBack strptr s.mem
    some (false, { s with mem := cls.insertionSort ss r.1 depth r.2 }.dealt bucket
      (.sorted (strptr, depth)))
  else
    let s :=
      if s.bktcache_size < strptr.size * 8 then
        { s with keys := fresh, bktcache_size := strptr.size * 8 }
      else s
    if s.ms_pop_front = 0 ∧ s.ms_stack.length = 0 then
      ((s.dealt bucket (.pushed s.created (strptr, depth))).emplaceBack ss strptr 0 depth true).map
        fun s => (true, s)
    else none

/-- `sort_mkqs_cache(ctx, strptr, depth)`, while no thread is idle. -/
def sortMkqsCache (rounds : ℕ) (fresh : ℕ → KeyType) (strptr : StringPtr) (depth : ℕ)
    (s : MkqsState S) : Option (MkqsState S) :=
  (callMkqsCache cls ss fresh none strptr depth s).bind fun r =>
    if r.1 then mkqsLoop cls ss rounds r.2 else some r.2

/-- A job between two sorts: the stack is empty. -/
def MkqsState.idle (m : KeyMemory S) (bktcache_size : ℕ) : MkqsState S :=
  { toKeyMemory := m, bktcache_size, ms_pop_front := 0, ms_stack := [], created := 0, history := [],
    entries := [] }

/-- The keys in the buffer are those of the strings, unless they are not used. -/
def MkqsEntry.Exact (e : MkqsEntry S) : Prop :=
  e.CacheDirty = false → ∀ k < e.strptr.size,
    e.memory.keys (e.cache + k) = getUint64 ss (e.strptr.active.get e.memory.mem k) e.depth

/-- The strings that have been entered share the depth. -/
def MkqsEntry.Shares (e : MkqsEntry S) : Prop :=
  SharesDepth ss.chars (e.strptr.active.get e.memory.mem) e.strptr.size e.depth

/-- The strings of a window are sorted in the output array, with their common prefixes and
distinguishing characters as far as the class has them, and nothing else changes: neither outside
of the window, nor the first entry of the window. -/
structure SortsWindow (f : Bool) (lo n : ℕ) (m m' : Memory S) : Prop where
  perm : (slice (m'.strings cls.outputArray) lo n).Perm
    (slice (m.strings (cls.activeArray f)) lo n)
  sorted : ∀ p q, lo ≤ p → p ≤ q → q < lo + n →
    ss.chars (m'.strings cls.outputArray p) ≤ ss.chars (m'.strings cls.outputArray q)
  lcps : cls.withLcp = true → ∀ p, lo < p → p < lo + n →
    m'.lcps p = lcpOf ss (m'.strings cls.outputArray (p - 1)) (m'.strings cls.outputArray p)
  cache : cls.hasCache = true → ∀ p, lo < p → p < lo + n →
    m'.cache p = charOf ss (m'.strings cls.outputArray p) (m'.lcps p)
  strings_outside : ∀ arr p, ¬ InWindow lo n p → m'.strings arr p = m.strings arr p
  lcps_outside : ∀ p, ¬ (lo < p ∧ p < lo + n) → m'.lcps p = m.lcps p
  cache_outside : ∀ p, ¬ (lo < p ∧ p < lo + n) → m'.cache p = m.cache p

end Model

/-! ## The invariant -/

section Invariant

variable {S : Type}

/-- The levels of some steps, and those below. -/
def mkqsLevels (steps : List MKQSStep) (outer : List StepLevel) : List StepLevel :=
  steps.map MKQSStep.toLevel ++ outer

/-- The loop has the steps `live` on its stack, and has freed the steps below them; the levels
`outer` of the job that it is called from wait, and the levels `outerFreed` have been freed. -/
structure MkqsInv (T : SortTask S) (w : Window) (base : ℕ) (live freed : List MKQSStep)
    (outer outerFreed : List StepLevel) (subs : List WorkShare) (g : Ghost S) (s : MkqsState S) :
    Prop where
  mem : g.mem = s.mem
  stack : s.ms_stack = live ++ freed
  pop_front : s.ms_pop_front = freed.length
  steps : ∀ ms ∈ live ++ freed, ms.Ok T base
  idx : ∀ ms ∈ live, ms.idx ≤ 3
  keys : ∀ ms ∈ live, ms.KeysOk T g s.keys base
  plan : JobPlan T g w (mkqsLevels live outer) (mkqsLevels (freed.map .freed) outerFreed) subs
    s.created s.history
  entries : ∀ e ∈ s.entries, e.Exact T.ss ∧ e.Shares T.ss

variable {T : SortTask S} {g g' : Ghost S} {w u : Window} {base cache : ℕ}
  {live freed rest : List MKQSStep} {outer outerFreed : List StepLevel} {subs : List WorkShare}
  {s : MkqsState S} {top ms : MKQSStep} {P : Piece} {keys keys' : ℕ → KeyType} {CacheDirty : Bool}

/-- An entry with the right keys, or with keys that are not used. -/
theorem SortTask.PieceOk.entry (h : T.PieceOk g P)
    (hkeys : CacheDirty = false → T.KeysOk g keys base P.depth P.window)
    (hcache : base + cache = P.window.lo) (hmem : g.mem = s.mem) (hk : keys = s.keys) :
    let e : MkqsEntry S := ⟨T.pointer P, cache, P.depth, CacheDirty, s.toKeyMemory⟩
    e.Exact T.ss ∧ e.Shares T.ss := by
  subst hk
  refine ⟨fun hclean k hlt => ?_, ?_⟩
  · have hin : P.window.Mem (P.window.lo + k) := ⟨Nat.le_add_right .., Nat.add_lt_add_left hlt _⟩
    have hplace : base + (cache + k) = P.window.lo + k := by rw [← Nat.add_assoc, hcache]
    have hkey := hkeys hclean (cache + k) (hplace.symm ▸ hin)
    rw [hplace, ← h.getUint64_eq hin, h.value _ hin, hmem] at hkey
    exact hkey
  · have hshares := h.sharesDepth
    rw [hmem] at hshares
    exact hshares

/-- `emplace_back` turns a piece into a step. -/
theorem emplaceBack_spec (h : T.PieceOk g P) (hn : 3 ≤ P.window.size) (hmem : g.mem = s.mem)
    (hkeys : CacheDirty = false → T.KeysOk g s.keys base P.depth P.window)
    (hcache : base + cache = P.window.lo) :
    ∃ ms g' keys', s.emplaceBack T.ss (T.pointer P) cache P.depth CacheDirty = some
        ({ s.enter (T.pointer P) cache P.depth CacheDirty with
          toKeyMemory := ⟨g'.mem, keys'⟩
          ms_stack := ms :: s.ms_stack
          created := s.created + 1 }.note (.create s.created ms.shape)) ∧
      ms.level = s.created ∧ ms.idx = 0 ∧ ms.window = P.window ∧ ms.Ok T base ∧
      ms.toLevel.PiecesOk T g' ∧ ms.KeysOk T g' keys' base ∧
      ms.toLevel.rank T + T.total + 2 ^ 12 ≤ T.windowRank P.window P.depth ∧
      Effect P.window g g' ∧ KeysEffect base P.window s.keys keys' := by
  obtain ⟨ms, g', keys', heq, hlevel, hidx, hptr, hdepth, hok, hpieces, hkeysOk, he, hk⟩ :=
    mkqsStep_spec s.created h hn hkeys hcache
  have hwindow : ms.window = P.window := by rw [MKQSStep.window, hptr]; rfl
  have hrank := hok.rank_le hpieces hidx (by rw [hwindow, hdepth]; exact h.depth)
  rw [hwindow, hdepth] at hrank
  refine ⟨ms, g', keys', ?_, hlevel, hidx, hwindow, hok, hpieces, hkeysOk, hrank, he, hk⟩
  rw [MkqsState.emplaceBack, show s.toKeyMemory = ⟨g.mem, s.keys⟩ by rw [hmem], heq]
  rfl

namespace MkqsInv

/-- The plan, with the uppermost step in front. -/
theorem plan_cons (h : MkqsInv T w base (top :: rest) freed outer outerFreed subs g s) :
    JobPlan T g w (top.toLevel :: mkqsLevels rest outer)
      (mkqsLevels (freed.map .freed) outerFreed) subs s.created s.history := h.plan

/-- The steps that are left when the next part of the uppermost one has been dealt with. -/
theorem steps_next (h : MkqsInv T w base (top :: rest) freed outer outerFreed subs g s) :
    ∀ ms ∈ top.next :: rest ++ freed, ms.Ok T base := by
  rintro ms (_ | ⟨_, hms⟩)
  · exact (h.steps top (by simp)).next
  · exact h.steps ms (List.mem_cons_of_mem _ hms)

theorem idx_next (h : MkqsInv T w base (top :: rest) freed outer outerFreed subs g s)
    (hidx : top.idx < 3) : ∀ ms ∈ top.next :: rest, ms.idx ≤ 3 := by
  rintro ms (_ | ⟨_, hms⟩)
  · exact hidx
  · exact h.idx ms (List.mem_cons_of_mem _ hms)

/-- Work on the next area of the uppermost step leaves the other keys alone. -/
theorem keys_next (h : MkqsInv T w base (top :: rest) freed outer outerFreed subs g s)
    (hidx : top.idx < 3) (he : Effect (top.area top.idx) g g')
    (hk : KeysEffect base (top.area top.idx) s.keys keys') :
    ∀ ms ∈ top.next :: rest, ms.KeysOk T g' keys' base := by
  have hapart := h.plan_cons.area_apart hidx
  rintro ms (_ | ⟨_, hms⟩)
  · exact (h.keys top (by simp)).next.frame he hk (hapart _ (List.mem_cons_self ..))
  · refine (h.keys ms (List.mem_cons_of_mem _ hms)).frame he hk (hapart _ ?_)
    exact List.mem_cons_of_mem _ (by simp [mkqsLevels, List.mem_map_of_mem hms])

/-- What an area that is not empty costs at least. -/
theorem rank_next (T : SortTask S) (rest : List MKQSStep) (hidx : top.idx < 3) :
    levelsRank T ((top :: rest).map MKQSStep.toLevel) =
      1 + top.toLevel.partRank T top.idx +
        levelsRank T ((top.next :: rest).map MKQSStep.toLevel) := by
  rw [List.map_cons, List.map_cons, levelsRank_cons, levelsRank_cons,
    StepLevel.rank_next (l := top.toLevel) hidx, Nat.add_assoc]
  rfl

/-- The next area of the uppermost step is empty. -/
theorem skip (h : MkqsInv T w base (top :: rest) freed outer outerFreed subs g s)
    (hidx : top.idx < 3) (hsize : (top.area top.idx).size = 0) :
    MkqsInv T w base (top.next :: rest) freed outer outerFreed subs g
      { s with ms_stack := top.next :: (rest ++ freed) } where
  mem := h.mem
  stack := rfl
  pop_front := h.pop_front
  steps := h.steps_next
  idx := h.idx_next hidx
  keys := by
    rintro ms (_ | ⟨_, hms⟩)
    · exact (h.keys top (by simp)).next
    · exact h.keys ms (List.mem_cons_of_mem _ hms)
  plan := h.plan_cons.skip hidx hsize
  entries := h.entries

/-- The next area of the uppermost step is finished. -/
theorem deal (h : MkqsInv T w base (top :: rest) freed outer outerFreed subs g s)
    (hidx : top.idx < 3) (hpos : 0 < (top.area top.idx).size)
    (he : Effect (top.area top.idx) g g')
    (hk : KeysEffect base (top.area top.idx) s.keys keys')
    (hc : T.Covers g' (top.area top.idx) [] fun _ => False) {d : Deal RangeCall}
    (hd : d.call = top.shape.call top.idx) (hdone : d.DoneIn s.history top.level top.idx)
    {entries : List (MkqsEntry S)} (hentries : ∀ e ∈ entries, e.Exact T.ss ∧ e.Shares T.ss) :
    MkqsInv T w base (top.next :: rest) freed outer outerFreed subs g'
      ({ s with
        toKeyMemory := ⟨g'.mem, keys'⟩
        ms_stack := top.next :: (rest ++ freed)
        entries } |>.note (.deal top.level top.idx d)) where
  mem := rfl
  stack := rfl
  pop_front := h.pop_front
  steps := h.steps_next
  idx := h.idx_next hidx
  keys := h.keys_next hidx he hk
  plan := h.plan_cons.deal hidx hpos he hc hd hdone
  entries := hentries

/-- The next area of the uppermost step becomes a step. -/
theorem push (h : MkqsInv T w base (top :: rest) freed outer outerFreed subs g s)
    (hidx : top.idx < 3) (hpos : 0 < (top.area top.idx).size) {call : RangeCall}
    (hcall : top.shape.call top.idx = some call) (hlevel : ms.level = s.created)
    (hms : ms.idx = 0) (hwindow : ms.window = top.area top.idx) (hok : ms.Ok T base)
    (hpieces : ms.toLevel.PiecesOk T g') (hkeys : ms.KeysOk T g' keys' base)
    (he : Effect (top.area top.idx) g g')
    (hk : KeysEffect base (top.area top.idx) s.keys keys') {entries : List (MkqsEntry S)}
    (hentries : ∀ e ∈ entries, e.Exact T.ss ∧ e.Shares T.ss) :
    MkqsInv T w base (ms :: top.next :: rest) freed outer outerFreed subs g'
      ((({ s with
        toKeyMemory := ⟨g'.mem, keys'⟩
        ms_stack := ms :: top.next :: (rest ++ freed)
        created := s.created + 1
        entries } : MkqsState S).note (.deal top.level top.idx (.pushed s.created call))).note
          (.create s.created ms.shape)) where
  mem := rfl
  stack := rfl
  pop_front := h.pop_front
  steps := List.forall_mem_cons.mpr ⟨hok, h.steps_next⟩
  idx := List.forall_mem_cons.mpr ⟨by omega, h.idx_next hidx⟩
  keys := List.forall_mem_cons.mpr ⟨hkeys, h.keys_next hidx he hk⟩
  plan := by
    refine h.plan_cons.push (k := ms.toLevel) hidx hpos hcall hwindow ?_
      (by rw [show ms.toLevel.window = _ from hwindow]; exact he) (hok.covers g' hms) hpieces
    show Frame.mk ms.level ms.shape ms.idx = _
    rw [hlevel, hms]
    rfl
  entries := hentries

/-- The next area of the uppermost step goes to the insertion sort, or becomes a step. -/
theorem sortPart (h : MkqsInv T w base (top :: rest) freed outer outerFreed subs g s)
    (hidx : top.idx < 3) (hpos : 0 < (top.area top.idx).size)
    (hrec : ¬ (top.idx = 1 ∧ top.eq_recurse = false))
    (hcache : base + cache = (top.area top.idx).lo) :
    ∃ g' live' s', ({ s with ms_stack := top.next :: (rest ++ freed) } : MkqsState S).sortPart
        T.cls T.ss top.level top.idx (T.pointer (top.piece top.idx)) cache
        (top.areaDepth top.idx) (decide (top.idx = 1)) = some s' ∧
      MkqsInv T w base live' freed outer outerFreed subs g' s' ∧ Touches w subs g g' ∧
      levelsRank T (live'.map MKQSStep.toLevel) < levelsRank T ((top :: rest).map MKQSStep.toLevel) := by
  have hok := h.steps top (by simp)
  have hP : T.PieceOk g (top.piece top.idx) := h.plan_cons.piece hidx hpos
  have hcall : top.shape.call top.idx =
      some (T.pointer (top.piece top.idx), top.areaDepth top.idx) := by
    rw [hok.call_eq hidx, if_neg hrec]
  have hkeys : decide (top.idx = 1) = false →
      T.KeysOk g s.keys base (top.piece top.idx).depth (top.piece top.idx).window := by
    intro hclean
    have hi1 : top.idx ≠ 1 := of_decide_eq_false hclean
    have hdepth : (top.piece top.idx).depth = top.depth := if_neg fun h => hi1 h.1
    rw [hdepth]
    exact h.keys top (by simp) top.idx le_rfl hidx hi1
  have hentry := hP.entry (s := { s with ms_stack := top.next :: (rest ++ freed) }) hkeys hcache
    h.mem rfl
  have hentries := List.forall_mem_append.mpr ⟨h.entries, List.forall_mem_singleton.mpr hentry⟩
  have hrank := rank_next T rest hidx
  rw [MkqsState.sortPart]
  split
  · obtain ⟨g', keys', heq, he, hc, hk⟩ := insertionSortCache_finishes hP hkeys hcache
    rw [h.mem] at heq
    rw [show (top.piece top.idx).depth = top.areaDepth top.idx from rfl] at heq
    rw [show ({ s with ms_stack := top.next :: (rest ++ freed) } : MkqsState S).toKeyMemory =
      ⟨s.mem, s.keys⟩ from rfl, heq]
    exact ⟨g', _, _, rfl, h.deal hidx hpos he hk hc (d := .sorted _) hcall.symm trivial hentries,
      (h.plan_cons.plan.take hidx).hand_touches he, by omega⟩
  · next hlarge =>
    have hn : 32 ≤ (top.piece top.idx).window.size := not_lt.mp hlarge
    obtain ⟨ms, g', keys', heq, hlevel, hms, hwindow, hmsOk, hpieces, hkeysOk, hrank', he, hk⟩ :=
      emplaceBack_spec (s := ({ s with ms_stack := top.next :: (rest ++ freed) } : MkqsState S).note
        (.deal top.level top.idx (.pushed s.created (T.pointer (top.piece top.idx),
          top.areaDepth top.idx)))) hP (by omega) h.mem hkeys hcache
    refine ⟨g', ms :: top.next :: rest, _, heq, ?_, (h.plan_cons.plan.take hidx).hand_touches he, ?_⟩
    · exact h.push hidx hpos hcall hlevel hms hwindow hmsOk hpieces hkeysOk he hk hentries
    · have hpart : top.toLevel.partRank T top.idx =
          jobOverhead + T.windowRank (top.piece top.idx).window (top.piece top.idx).depth := by
        rw [StepLevel.partRank, if_neg]
        · rfl
        · rintro (hzero | hnone)
          · exact hpos.ne' hzero
          · exact absurd (hcall.symm.trans hnone) (by simp)
      rw [List.map_cons, levelsRank_cons]
      omega

/-- The strings that are equal to a pivot with the terminator in it are finished. -/
theorem fillEqual (h : MkqsInv T w base (top :: rest) freed outer outerFreed subs g s)
    (hidx : top.idx = 1) (hend : top.eq_recurse = false) :
    let spb := T.cls.copyBack (top.strptr.sub top.num_lt top.num_eq) s.mem
    ∃ g', MkqsInv T w base (top.next :: rest) freed outer outerFreed subs g'
        ({ s with
          mem := T.cls.fillLcp spb.1 (top.depth + top.lcp_eq) spb.2
          ms_stack := top.next :: (rest ++ freed) }.note (.deal top.level 1 .filled)) ∧
      Touches w subs g g' := by
  intro spb
  have hlt : top.idx < 3 := by omega
  have hok := h.steps top (by simp)
  have hpos : 0 < (top.area top.idx).size := hidx ▸ hok.eq_pos
  have hP : T.PieceOk g (top.piece top.idx) := h.plan_cons.piece hlt hpos
  have hconst := hok.const hend
  rw [← hidx] at hconst
  obtain ⟨g', hmem, he, hc⟩ := fillLcp_finishes hP hconst.1 hconst.2
  have hptr : top.strptr.sub top.num_lt top.num_eq = T.pointer (top.piece top.idx) := by
    rw [hidx]
    exact hok.sub_pointer rfl
  have hdeal := h.deal hlt hpos he (KeysEffect.refl base _ s.keys) hc (d := .filled)
    (by rw [hok.call_eq hlt, if_pos ⟨hidx, hend⟩]; rfl) trivial h.entries
  rw [hmem, h.mem, ← hptr, hidx] at hdeal
  exact ⟨g', hdeal, (h.plan_cons.plan.take hlt).hand_touches he⟩

/-- The uppermost step writes the entries it has promised, and leaves the stack. -/
theorem pop (h : MkqsInv T w base (top :: rest) freed outer outerFreed subs g s)
    (hidx : 3 ≤ top.idx) :
    ∃ g', MkqsInv T w base rest freed outer outerFreed subs g'
        ({ s with
          mem := top.calculateLcp T.cls s.mem
          ms_stack := rest ++ freed }.note (.calculate top.level)) ∧
      Touches w subs g g' := by
  have hcalc := (h.steps top (by simp)).calculated g
  refine ⟨⟨top.calculateLcp T.cls g.mem, g.value⟩, ?_, h.plan_cons.plan.close_touches hcalc⟩
  exact {
    mem := by rw [h.mem]; rfl
    stack := rfl
    pop_front := h.pop_front
    steps := fun ms hms => h.steps ms (List.mem_cons_of_mem _ hms)
    idx := fun ms hms => h.idx ms (List.mem_cons_of_mem _ hms)
    keys := fun ms hms => h.keys ms (List.mem_cons_of_mem _ hms)
    plan := h.plan_cons.close hidx hcalc
    entries := h.entries }

end MkqsInv

end Invariant

/-! ## A round -/

section Round

variable {S : Type} {T : SortTask S} {g : Ghost S} {w : Window} {base : ℕ}
  {live freed rest : List MKQSStep} {outer outerFreed : List StepLevel} {subs : List WorkShare}
  {s : MkqsState S} {top : MKQSStep}

/-- A round keeps the invariant, and leaves less to do. -/
theorem mkqsRound_spec (h : MkqsInv T w base (top :: rest) freed outer outerFreed subs g s) :
    ∃ g' live' s', mkqsRound T.cls T.ss s = some s' ∧
      MkqsInv T w base live' freed outer outerFreed subs g' s' ∧ Touches w subs g g' ∧
      levelsRank T (live'.map MKQSStep.toLevel) <
        levelsRank T ((top :: rest).map MKQSStep.toLevel) := by
  have hok := h.steps top (by simp)
  have hle := h.idx top (by simp)
  rw [mkqsRound, h.stack, List.cons_append]
  dsimp only
  rcases Nat.lt_or_ge top.idx 3 with hlt | hge
  · have hrank := MkqsInv.rank_next T rest hlt
    have hcases : top.idx = 0 ∨ top.idx = 1 ∨ top.idx = 2 := by omega
    rcases hcases with hidx | hidx | hidx
    · have harea : top.area top.idx = top.area 0 := by rw [hidx]
      rw [if_pos (by omega)]
      split
      · next hzero =>
        exact ⟨g, _, _, rfl, h.skip hlt (harea ▸ hzero), Touches.refl _ _ _, by omega⟩
      · next hpos =>
        have hptr : top.strptr.sub 0 top.num_lt = T.pointer (top.piece 0) := hok.sub_pointer rfl
        have hpart := h.sortPart hlt (harea ▸ Nat.pos_of_ne_zero hpos) (by omega)
          (show base + top.cache = _ from harea ▸ hok.cache)
        rw [hidx, ← hptr] at hpart
        exact hpart
    · have harea : top.area top.idx = top.area 1 := by rw [hidx]
      rw [if_neg (by omega), if_pos (by omega), if_pos hok.eq_pos]
      split
      · next hstop =>
        obtain ⟨g', hinv, htouch⟩ := h.fillEqual hidx (by simpa using hstop)
        exact ⟨g', _, _, rfl, hinv, htouch, by omega⟩
      · next hgo =>
        have hrec : top.eq_recurse = true := by simpa using hgo
        have hcache : base + (top.cache + top.num_lt) = (top.area 1).lo := by
          rw [← Nat.add_assoc, hok.cache]
          rfl
        have hptr : top.strptr.sub top.num_lt top.num_eq = T.pointer (top.piece 1) :=
          hok.sub_pointer rfl
        have hdepth : top.areaDepth 1 = top.depth + 8 := if_pos ⟨rfl, hrec⟩
        have hpart := h.sortPart hlt (harea ▸ hok.eq_pos) (by simp [hrec]) (harea ▸ hcache)
        rw [hidx, ← hptr, hdepth] at hpart
        exact hpart
    · have harea : top.area top.idx = top.area 2 := by rw [hidx]
      rw [if_neg (by omega), if_neg (by omega), if_pos (by omega)]
      split
      · next hzero =>
        exact ⟨g, _, _, rfl, h.skip hlt (harea ▸ hzero), Touches.refl _ _ _, by omega⟩
      · next hpos =>
        have hcache : base + (top.cache + (top.num_lt + top.num_eq)) = (top.area 2).lo := by
          rw [← Nat.add_assoc, hok.cache]
          rfl
        have hptr : top.strptr.sub (top.num_lt + top.num_eq) top.num_gt = T.pointer (top.piece 2) :=
          hok.sub_pointer rfl
        have hpart := h.sortPart hlt (harea ▸ Nat.pos_of_ne_zero hpos) (by omega) (harea ▸ hcache)
        rw [hidx, ← hptr] at hpart
        exact hpart
  · rw [if_neg (by omega), if_neg (by omega), if_neg (by omega)]
    obtain ⟨g', hinv, htouch⟩ := h.pop hge
    refine ⟨g', _, _, rfl, hinv, htouch, ?_⟩
    rw [List.map_cons, levelsRank_cons, StepLevel.rank]
    omega

end Round

/-! ## The loop -/

section Loop

variable {S : Type} {T : SortTask S} {g : Ghost S} {w : Window} {base : ℕ} {live : List MKQSStep}
  {s : MkqsState S}

/-- While no thread is idle, the loop empties the stack. -/
theorem mkqsLoop_spec {rounds : ℕ} (h : MkqsInv T w base live [] [] [] [] g s)
    (hrounds : levelsRank T (live.map MKQSStep.toLevel) ≤ rounds) :
    ∃ g' s', mkqsLoop T.cls T.ss rounds s = some s' ∧
      MkqsInv T w base [] [] [] [] [] g' s' ∧ Effect w g g' := by
  induction rounds generalizing g s live with
  | zero =>
    cases live with
    | nil =>
      exact ⟨g, s, by rw [mkqsLoop, if_neg (by simp [h.stack])], h, Effect.refl _ _⟩
    | cons top rest =>
      rw [List.map_cons, levelsRank_cons, StepLevel.rank] at hrounds
      omega
  | succ rounds ih =>
    rw [mkqsLoop, h.pop_front, h.stack, List.append_nil]
    cases live with
    | nil => exact ⟨g, s, by simp, h, Effect.refl _ _⟩
    | cons top rest =>
      obtain ⟨g₁, live₁, s₁, heq, hinv, htouch, hlt⟩ := mkqsRound_spec h
      obtain ⟨g', s', heq', hinv', he⟩ := ih hinv (by omega)
      rw [if_pos (by simp), heq]
      exact ⟨g', s', heq', hinv', htouch.effect.trans he⟩


end Loop

/-! ## Calls -/

section Calls

variable {S : Type} {T : SortTask S} {g : Ghost S} {P : Piece} {s : MkqsState S}
  {fresh : ℕ → KeyType} {bucket : Option (ℕ × ℕ)}

@[simp] theorem dealt_mem (d : Deal RangeCall) : (s.dealt bucket d).mem = s.mem := by
  cases bucket <;> rfl

@[simp] theorem dealt_created (d : Deal RangeCall) : (s.dealt bucket d).created = s.created := by
  cases bucket <;> rfl

@[simp] theorem dealt_ms_stack (d : Deal RangeCall) : (s.dealt bucket d).ms_stack = s.ms_stack := by
  cases bucket <;> rfl

@[simp] theorem dealt_ms_pop_front (d : Deal RangeCall) :
    (s.dealt bucket d).ms_pop_front = s.ms_pop_front := by
  cases bucket <;> rfl

@[simp] theorem dealt_entries (d : Deal RangeCall) : (s.dealt bucket d).entries = s.entries := by
  cases bucket <;> rfl

/-- A small piece is sorted at once. -/
theorem callMkqsCache_small (fresh : ℕ → KeyType) (bucket : Option (ℕ × ℕ)) (h : T.PieceOk g P)
    (hn : P.window.size < 32) (hmem : g.mem = s.mem) :
    ∃ g', callMkqsCache T.cls T.ss fresh bucket (T.pointer P) P.depth s = some (false,
        { s with mem := g'.mem }.dealt bucket (.sorted (T.pointer P, P.depth))) ∧
      Effect P.window g g' ∧ T.Covers g' P.window [] fun _ => False := by
  obtain ⟨g', hmem', he, hc⟩ := copyBack_insertionSort_finishes h
  refine ⟨g', ?_, he, hc⟩
  have hsmall : (T.pointer P).size < parallelInssortThreshold := hn
  rw [callMkqsCache, hmem', hmem, if_pos (by simp [hsmall])]

/-- A large piece becomes the first step of the stack. -/
theorem callMkqsCache_large (fresh : ℕ → KeyType) (bucket : Option (ℕ × ℕ)) (h : T.PieceOk g P)
    (hn : 32 ≤ P.window.size) (hmem : g.mem = s.mem)
    (hstack : s.ms_stack = []) (hpop : s.ms_pop_front = 0)
    (hentries : ∀ e ∈ s.entries, e.Exact T.ss ∧ e.Shares T.ss) :
    ∃ ms g' s', callMkqsCache T.cls T.ss fresh bucket (T.pointer P) P.depth s = some (true, s') ∧
      g'.mem = s'.mem ∧ s'.ms_stack = [ms] ∧ s'.ms_pop_front = 0 ∧ s'.created = s.created + 1 ∧
      s'.history = .create s.created ms.shape ::
        (s.dealt bucket (.pushed s.created (T.pointer P, P.depth))).history ∧
      (∀ e ∈ s'.entries, e.Exact T.ss ∧ e.Shares T.ss) ∧
      ms.level = s.created ∧ ms.idx = 0 ∧ ms.window = P.window ∧ ms.Ok T P.window.lo ∧
      ms.toLevel.PiecesOk T g' ∧ ms.KeysOk T g' s'.keys P.window.lo ∧
      ms.toLevel.rank T + T.total + 2 ^ 12 ≤ T.windowRank P.window P.depth ∧
      Effect P.window g g' := by
  -- whatever the buffer holds, the first step fills it
  set s₁ : MkqsState S := if s.bktcache_size < (T.pointer P).size * 8 then
    { s with keys := fresh, bktcache_size := (T.pointer P).size * 8 } else s with hs₁
  have hsame : ∃ k size, s₁ = { s with keys := k, bktcache_size := size } := by
    rw [hs₁]
    split
    · exact ⟨_, _, rfl⟩
    · exact ⟨s.keys, s.bktcache_size, rfl⟩
  obtain ⟨k, size, hk⟩ := hsame
  set s₂ := s₁.dealt bucket (.pushed s₁.created (T.pointer P, P.depth)) with hs₂
  have hmem₂ : g.mem = s₂.mem := by rw [hs₂, dealt_mem, hk, hmem]
  have hkeys₂ : true = false → T.KeysOk g s₂.keys P.window.lo P.depth P.window := by simp
  obtain ⟨ms, g', keys', heq, hlevel, hidx, hwindow, hok, hpieces, hkeys, hrank, he, -⟩ :=
    emplaceBack_spec h (by omega) hmem₂ hkeys₂ (Nat.add_zero P.window.lo)
  have hcreated : s₂.created = s.created := by rw [hs₂, dealt_created, hk]
  have hhistory : s₂.history =
      (s.dealt bucket (.pushed s.created (T.pointer P, P.depth))).history := by
    rw [hs₂, hk]
    cases bucket <;> rfl
  have hentry := h.entry hkeys₂ (Nat.add_zero P.window.lo) hmem₂ rfl
  have hlarge : ¬ (T.pointer P).size < parallelInssortThreshold := not_lt.mpr hn
  refine ⟨ms, g', ({ s₂.enter (T.pointer P) 0 P.depth true with
      toKeyMemory := ⟨g'.mem, keys'⟩
      ms_stack := ms :: s₂.ms_stack
      created := s₂.created + 1 } : MkqsState S).note (.create s₂.created ms.shape),
    ?_, rfl, ?_, ?_, ?_, ?_, ?_, hlevel.trans hcreated, hidx, hwindow, hok,
    hpieces, hkeys, hrank, he⟩
  · rw [callMkqsCache, if_neg (by simp [enableSequentialMkqs, hlarge])]
    dsimp only
    rw [← hs₁, if_pos (by rw [hk]; exact ⟨hpop, by rw [hstack]; rfl⟩), ← hs₂, heq]
    rfl
  · show ms :: s₂.ms_stack = [ms]
    rw [hs₂, dealt_ms_stack, hk, hstack]
  · show s₂.ms_pop_front = 0
    rw [hs₂, dealt_ms_pop_front, hk, hpop]
  · show s₂.created + 1 = _
    rw [hcreated]
  · show Event.create s₂.created ms.shape :: s₂.history = _
    rw [hcreated, hhistory]
  · refine List.forall_mem_append.mpr ⟨?_, List.forall_mem_singleton.mpr hentry⟩
    show ∀ e ∈ s₂.entries, _
    rw [hs₂, dealt_entries, hk]
    exact hentries

/-- The sort of a window starts. -/
theorem callMkqsCache_first (fresh : ℕ → KeyType) (h : T.PieceOk g P) (hmem : g.mem = s.mem)
    (hstack : s.ms_stack = []) (hpop : s.ms_pop_front = 0) (hcreated : s.created = 0)
    (hhistory : s.history = []) (hentries : ∀ e ∈ s.entries, e.Exact T.ss ∧ e.Shares T.ss) :
    ∃ loop live g' s', callMkqsCache T.cls T.ss fresh none (T.pointer P) P.depth s =
        some (loop, s') ∧
      MkqsInv T P.window P.window.lo live [] [] [] [] g' s' ∧ Effect P.window g g' ∧
      (loop = false → live = []) ∧
      levelsRank T (live.map MKQSStep.toLevel) ≤ T.windowRank P.window P.depth := by
  rcases Nat.lt_or_ge P.window.size 32 with hn | hn
  · obtain ⟨g', heq, he, hc⟩ :=
      callMkqsCache_small fresh none h hn hmem
    refine ⟨false, [], g', _, heq, ?_, he, fun _ => rfl, Nat.zero_le _⟩
    refine ⟨rfl, hstack, hpop, by simp, by simp, by simp, ?_, hentries⟩
    have hplan := JobPlan.sorted he hc
    rw [← hcreated, ← hhistory] at hplan
    exact hplan
  · obtain ⟨ms, g', s', heq, hmem', hstack', hpop', hcreated', hhistory', hentries', hlevel, hidx,
      hwindow, hok, hpieces, hkeys, hrank, he⟩ :=
      callMkqsCache_large fresh none h hn hmem hstack hpop hentries
    refine ⟨true, [ms], g', s', heq, ?_, he, by simp, ?_⟩
    · refine ⟨hmem', hstack', hpop', by simpa using hok, by simp [hidx], by simpa using hkeys, ?_,
        hentries'⟩
      have hframe : ms.toLevel.frame = ⟨0, ms.toLevel.frame.shape, 0⟩ := by
        show Frame.mk ms.level ms.shape ms.idx = _
        rw [hlevel, hidx, hcreated]
        rfl
      have hplan := JobPlan.first (k := ms.toLevel) (g := g) (T := T)
        (by rw [show ms.toLevel.window = _ from hwindow]; exact he) hframe (hok.covers g' hidx)
        hpieces
      rw [show ms.toLevel.window = _ from hwindow] at hplan
      rw [hcreated', hhistory', hcreated]
      simp only [MkqsState.dealt, hhistory]
      exact hplan
    · rw [List.map_singleton, levelsRank_cons, levelsRank_nil]
      omega

end Calls

/-! ## The sort -/

section Sorted

variable {S : Type} {T : SortTask S} {g₀ g : Ghost S} {P : Piece}

/-- A covered window of which nothing is left is sorted. -/
theorem SortTask.Covers.sortsWindow {P : Piece} (hP : T.PieceOk g₀ P) (he : Effect P.window g₀ g)
    (hc : T.Covers g P.window [] fun _ => False) :
    SortsWindow T.cls T.ss P.flipped P.window.lo P.window.size g₀.mem g.mem := by
  have hfin : ∀ p, P.window.Mem p → g.mem.strings T.cls.outputArray p = g.value p ∧
      T.ss.chars (g.value p) = T.target p := fun p hp => hc.finished hp
  have hchars : ∀ p, P.window.Mem p →
      T.ss.chars (g.mem.strings T.cls.outputArray p) = T.target p := fun p hp => by
    rw [(hfin p hp).1, (hfin p hp).2]
  have hlcp : ∀ p, P.window.Interior p → T.LcpOk g p := fun p hp => by
    rcases hc.lcps p hp with hok | ⟨u, hu, -⟩ | hf
    · exact hok
    · exact absurd hu List.not_mem_nil
    · exact hf.elim
  have hprev : ∀ p, P.window.Interior p → T.lcpAt p = lcpOf T.ss
      (g.mem.strings T.cls.outputArray (p - 1)) (g.mem.strings T.cls.outputArray p) := by
    intro p hp
    rw [lcpOf, hchars p hp.mem, hchars (p - 1) ⟨by have := hp.1; omega, by have := hp.2; omega⟩]
    rfl
  refine ⟨?_, fun p q hp hpq hq => ?_, fun hl p hlo hhi => ?_, fun hca p hlo hhi => ?_,
    he.strings, he.lcps, he.cache⟩
  · have hout : slice (g.mem.strings T.cls.outputArray) P.window.lo P.window.size =
        slice g.value P.window.lo P.window.size := slice_congr fun p hp => (hfin p hp).1
    have hin : slice g₀.value P.window.lo P.window.size =
        slice (g₀.mem.strings (T.cls.activeArray P.flipped)) P.window.lo P.window.size :=
      slice_congr hP.value
    rw [hout, ← hin]
    exact he.perm
  · have hp' : P.window.Mem p := ⟨hp, by omega⟩
    have hq' : P.window.Mem q := ⟨by omega, hq⟩
    rw [hchars p hp', hchars q hq']
    exact T.monotone hP.bound p q hp' hq' hpq
  · rw [(hlcp p ⟨hlo, hhi⟩).1 hl, hprev p ⟨hlo, hhi⟩]
  · have hint : P.window.Interior p := ⟨hlo, hhi⟩
    rw [(hlcp p hint).2 hca, (hlcp p hint).1 (hasCache_le_withLcp _ hca), charOf,
      hchars p hint.mem]

/-- `sort_mkqs_cache` sorts a piece. -/
theorem sortMkqsCache_spec (h : T.PieceOk g P) (keys fresh : ℕ → KeyType) (bktcache_size : ℕ)
    {rounds : ℕ} (hrounds : T.windowRank P.window P.depth ≤ rounds) :
    ∃ g' s', sortMkqsCache T.cls T.ss rounds fresh (T.pointer P) P.depth
        (.idle ⟨g.mem, keys⟩ bktcache_size) = some s' ∧ g'.mem = s'.mem ∧
      Effect P.window g g' ∧ T.Covers g' P.window [] (fun _ => False) ∧ s'.ms_stack = [] ∧
      s'.ms_pop_front = 0 ∧ ∀ e ∈ s'.entries, e.Exact T.ss := by
  obtain ⟨loop, live, g₁, s₁, heq, hinv, he, hloop, hrank⟩ :=
    callMkqsCache_first fresh (s := .idle ⟨g.mem, keys⟩ bktcache_size) h rfl rfl rfl rfl
      rfl (by simp [MkqsState.idle])
  have hrest : ∃ g' s', (if loop then mkqsLoop T.cls T.ss rounds s₁ else some s₁) = some s' ∧
      MkqsInv T P.window P.window.lo [] [] [] [] [] g' s' ∧ Effect P.window g₁ g' := by
    cases loop with
    | false =>
      rw [hloop rfl] at hinv
      exact ⟨g₁, s₁, rfl, hinv, Effect.refl _ _⟩
    | true => exact mkqsLoop_spec hinv (by omega)
  obtain ⟨g', s', heq', hinv', he'⟩ := hrest
  refine ⟨g', s', ?_, hinv'.mem, he.trans he', hinv'.plan.done.1, hinv'.stack, hinv'.pop_front,
    fun e hin => (hinv'.entries e hin).1⟩
  rw [sortMkqsCache, heq, Option.bind_some, heq']

/-- Strings that agree on their first `depth` characters, none of which ends before, are sorted in
the output window of a pointer of any class, flipped or not, with their common prefixes and
distinguishing characters; and every step and every insertion sort that trusts the keys in the
buffer finds those of its strings there. -/
theorem sortMkqsCache_sorts {mem : ℕ → CharType} (cls : StringPtrClass) (flipped : Bool)
    {lo n depth : ℕ} (hn : 0 < n) (m : KeyMemory (CString mem))
    (hshare : SharesDepth (UCharStringSet mem).chars
      ((cls.pointer flipped lo n).active.get m.mem) n depth)
    (fresh : ℕ → KeyType) (bktcache_size : ℕ) :
    ∃ bound, ∀ rounds ≥ bound, ∃ s', sortMkqsCache cls (UCharStringSet mem) rounds fresh
        (cls.pointer flipped lo n) depth (.idle m bktcache_size) = some s' ∧
      SortsWindow cls (UCharStringSet mem) flipped lo n m.mem s'.mem ∧
      s'.ms_stack = [] ∧ s'.ms_pop_front = 0 ∧
      ∀ e ∈ s'.entries, e.Exact (UCharStringSet mem) := by
  have hpairs : ∀ p q, InWindow lo n p → InWindow lo n q → SharePrefix depth
      ((UCharStringSet mem).chars (m.mem.strings (cls.activeArray flipped) p))
      ((UCharStringSet mem).chars (m.mem.strings (cls.activeArray flipped) q)) := by
    rintro p q ⟨hlo, hp⟩ ⟨hlo', hq⟩
    obtain ⟨i, rfl⟩ := Nat.exists_eq_add_of_le hlo
    obtain ⟨j, rfl⟩ := Nat.exists_eq_add_of_le hlo'
    exact hshare i (by omega) j (by omega)
  obtain ⟨T, g, hss, rfl, hm, hP⟩ := exists_sortTask (UCharStringSet.sortable mem)
    (fun _ => UCharStringSet.readsEnd mem) m.mem flipped lo depth hn hpairs
  refine ⟨T.windowRank ⟨lo, n⟩ depth, fun rounds hrounds => ?_⟩
  obtain ⟨g', s', heq, hmem, he, hc, hstack, hpop, hentries⟩ :=
    sortMkqsCache_spec hP m.keys fresh bktcache_size hrounds
  have hsorts := SortTask.Covers.sortsWindow hP he hc
  rw [hss] at heq hsorts hentries
  rw [hm] at heq hsorts
  rw [hmem] at hsorts
  exact ⟨s', heq, hsorts, hstack, hpop, hentries⟩

/-- Forty words, in a pointer with LCPs whose strings are in the shadow array. -/
theorem sortMkqsCache_sorts_words :
    let ss := UCharStringSet wordMem
    let m : KeyMemory (CString wordMem) :=
      ⟨⟨fun _ => word, fun _ => 7, fun _ => 0⟩, fun _ => 0⟩
    ∃ bound, ∀ rounds ≥ bound, ∃ s', sortMkqsCache .StringShadowLcpPtr ss rounds (fun _ => 1)
        (StringPtrClass.StringShadowLcpPtr.pointer true 5 40) 0 (.idle m 0) = some s' ∧
      SortsWindow .StringShadowLcpPtr ss true 5 40 m.mem s'.mem ∧
      s'.ms_stack = [] ∧ s'.ms_pop_front = 0 ∧ ∀ e ∈ s'.entries, e.Exact ss :=
  sortMkqsCache_sorts _ true (by norm_num) _ (fun _ _ _ _ => SharePrefix.zero _ _) _ 0

end Sorted

end StringSampleSort
