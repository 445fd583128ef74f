import StringSampleSort.Library.Transition
import Mathlib.Data.List.Nodup
import Mathlib.Data.List.Count

/-!
# A stack of levels that is consumed from both ends

A worker takes levels of work from the top of a stack.  A level has parts, which it deals with one
after the other: it finishes them, or pushes a level for them.  When others are idle, the parts
that are left of the lowest levels are handed over, and these levels wait until all of that work has
been reported as finished.  Every level is closed at the end.

A history lists all that has happened, latest first.  It is valid when no part is dealt with twice
and no level is closed before its parts are finished.  `Accounts` relates the stack to its history.

## Main results

- `Accounts.push`, `Accounts.deal`, `Accounts.close`: what the worker does at the top
- `Accounts.free`, `Accounts.dealFreed`, `Accounts.notify`, `Accounts.closeFreed`: handed over work
- `Accounts.exactlyOnce`: when the stack is empty every part has been dealt with exactly once
- `WorkStack.reachable_ok`: so it is in every run of such a worker
-/

namespace StringSampleSort.Library

variable {κ : Type*}

/-! ## Histories -/

/-- The parts of a level, and the call that sorts a part; no call is needed for a part that is
finished at once. -/
structure Shape (κ : Type*) where
  parts : ℕ
  size : ℕ → ℕ
  call : ℕ → Option κ

/-- How a part is dealt with. -/
inductive Deal (κ : Type*)
  | filled
  | sorted (c : κ)
  | pushed (level : ℕ) (c : κ)
  | enqueued (c : κ)

/-- The call that has been made for a part. -/
def Deal.call : Deal κ → Option κ
  | .filled => none
  | .sorted c => some c
  | .pushed _ c => some c
  | .enqueued c => some c

/-- What happens to levels and their parts. -/
inductive Event (κ : Type*)
  | create (level : ℕ) (sh : Shape κ)
  | deal (level part : ℕ) (d : Deal κ)
  | notify (level part : ℕ)
  | calculate (level : ℕ)

/-- The event deals with the part. -/
def Event.deals (l p : ℕ) : Event κ → Bool
  | .deal l' p' _ => decide (l' = l ∧ p' = p)
  | _ => false

/-- The event closes the level. -/
def Event.calculates (l : ℕ) : Event κ → Bool
  | .calculate l' => decide (l' = l)
  | _ => false

/-- A part that has been dealt with so is finished. -/
def Deal.DoneIn (h : List (Event κ)) (l p : ℕ) : Deal κ → Prop
  | .filled => True
  | .sorted _ => True
  | .pushed l' _ => .calculate l' ∈ h
  | .enqueued _ => .notify l p ∈ h

/-- The event may happen after the history `h`. -/
def Allowed (h : List (Event κ)) : Event κ → Prop
  | .create l _ => ∀ sh, .create l sh ∉ h
  | .deal l p d => (∃ sh, .create l sh ∈ h ∧ p < sh.parts ∧ sh.size p ≠ 0 ∧ d.call = sh.call p) ∧
      .calculate l ∉ h ∧ ∀ d', .deal l p d' ∉ h
  | .notify l p => (∃ c, .deal l p (.enqueued c) ∈ h) ∧ .notify l p ∉ h
  | .calculate l => .calculate l ∉ h ∧ ∃ sh, .create l sh ∈ h ∧
      ∀ p < sh.parts, sh.size p ≠ 0 → ∃ d, .deal l p d ∈ h ∧ d.DoneIn h l p

/-- Every event was allowed when it happened. -/
def Valid : List (Event κ) → Prop
  | [] => True
  | e :: h => Allowed h e ∧ Valid h

/-- All levels have been closed, and every part has been dealt with exactly once, if there is
anything in it. -/
structure ExactlyOnce (h : List (Event κ)) : Prop where
  parts : ∀ l sh, .create l sh ∈ h → ∀ p < sh.parts,
    h.countP (Event.deals l p) = if sh.size p = 0 then 0 else 1
  closed : ∀ l sh, .create l sh ∈ h → h.countP (Event.calculates l) = 1

section Valid

variable {h : List (Event κ)} {l p : ℕ}

theorem Deal.DoneIn.mono {h' : List (Event κ)} {d : Deal κ} (hd : d.DoneIn h l p) (hsub : h ⊆ h') :
    d.DoneIn h' l p := by
  cases d with
  | filled => trivial
  | sorted c => trivial
  | pushed l' c => exact hsub hd
  | enqueued c => exact hsub hd

namespace Valid

theorem create_unique (hv : Valid h) {sh sh' : Shape κ} (h₁ : .create l sh ∈ h)
    (h₂ : .create l sh' ∈ h) : sh = sh' := by
  induction h with
  | nil => simp at h₁
  | cons e h ih =>
    obtain ⟨hall, hv⟩ := hv
    -- the later of two such events would not have been allowed
    rcases List.mem_cons.mp h₁ with rfl | hin₁
    · rcases List.mem_cons.mp h₂ with heq | hin₂
      · exact (Event.create.inj heq).2.symm
      · exact absurd hin₂ (hall sh')
    · rcases List.mem_cons.mp h₂ with rfl | hin₂
      · exact absurd hin₁ (hall sh)
      · exact ih hv hin₁ hin₂

theorem deal_unique (hv : Valid h) {d d' : Deal κ} (h₁ : .deal l p d ∈ h)
    (h₂ : .deal l p d' ∈ h) : d = d' := by
  induction h with
  | nil => simp at h₁
  | cons e h ih =>
    obtain ⟨hall, hv⟩ := hv
    -- a second event for the part would not have been allowed
    rcases List.mem_cons.mp h₁ with rfl | hin₁
    · rcases List.mem_cons.mp h₂ with heq | hin₂
      · exact (Event.deal.inj heq).2.2.symm
      · exact absurd hin₂ (hall.2.2 d')
    · rcases List.mem_cons.mp h₂ with rfl | hin₂
      · exact absurd hin₁ (hall.2.2 d)
      · exact ih hv hin₁ hin₂

theorem deal_iff_count : (∃ d, .deal l p d ∈ h) ↔ 0 < h.countP (Event.deals l p) := by
  rw [List.countP_pos_iff]
  constructor
  · rintro ⟨d, hd⟩
    exact ⟨_, hd, by simp [Event.deals]⟩
  · rintro ⟨e, he, hdeals⟩
    cases e with
    | deal l' p' d =>
      obtain ⟨rfl, rfl⟩ := of_decide_eq_true hdeals
      exact ⟨d, he⟩
    | create l' sh => simp [Event.deals] at hdeals
    | notify l' p' => simp [Event.deals] at hdeals
    | calculate l' => simp [Event.deals] at hdeals

/-- No part is dealt with twice. -/
theorem count_deals_le (hv : Valid h) : h.countP (Event.deals l p) ≤ 1 := by
  induction h with
  | nil => simp
  | cons e h ih =>
    rw [List.countP_cons]
    by_cases he : Event.deals l p e = true
    · cases e with
      | deal l' p' d =>
        obtain ⟨rfl, rfl⟩ := of_decide_eq_true he
        -- the newest event deals with the part, so no earlier one does
        have hzero : ¬ 0 < h.countP (Event.deals l' p') := fun hpos => by
          obtain ⟨d', hd'⟩ := deal_iff_count.mpr hpos
          exact hv.1.2.2 d' hd'
        rw [if_pos he]
        omega
      | create l' sh => simp [Event.deals] at he
      | notify l' p' => simp [Event.deals] at he
      | calculate l' => simp [Event.deals] at he
    · rw [if_neg he]
      exact ih hv.2

theorem calculate_iff_count :
    .calculate l ∈ h ↔ 0 < h.countP (Event.calculates l : Event κ → Bool) := by
  rw [List.countP_pos_iff]
  constructor
  · exact fun hc => ⟨_, hc, by simp [Event.calculates]⟩
  · rintro ⟨e, he, hcalc⟩
    cases e with
    | calculate l' => exact of_decide_eq_true hcalc ▸ he
    | create l' sh => simp [Event.calculates] at hcalc
    | notify l' p' => simp [Event.calculates] at hcalc
    | deal l' p' d => simp [Event.calculates] at hcalc

/-- No level is closed twice. -/
theorem count_calculates_le (hv : Valid h) : h.countP (Event.calculates l) ≤ 1 := by
  induction h with
  | nil => simp
  | cons e h ih =>
    rw [List.countP_cons]
    by_cases he : Event.calculates l e = true
    · cases e with
      | calculate l' =>
        obtain rfl := of_decide_eq_true he
        -- the newest event closes the level, so no earlier one does
        have hzero : ¬ 0 < h.countP (Event.calculates l') := fun hpos =>
          hv.1.1 (calculate_iff_count.mpr hpos)
        rw [if_pos he]
        omega
      | create l' sh => simp [Event.calculates] at he
      | notify l' p' => simp [Event.calculates] at he
      | deal l' p' d => simp [Event.calculates] at he
    · rw [if_neg he]
      exact ih hv.2

/-- Only what is in a part is dealt with. -/
theorem size_ne_zero (hv : Valid h) {d : Deal κ} (hd : .deal l p d ∈ h) {sh : Shape κ}
    (hsh : .create l sh ∈ h) : sh.size p ≠ 0 := by
  -- the level was created with one shape only, so any shape will do
  have hmain : ∃ sh, .create l sh ∈ h ∧ sh.size p ≠ 0 := by
    clear hsh
    induction h with
    | nil => simp at hd
    | cons e h ih =>
      rcases List.mem_cons.mp hd with rfl | hd
      · obtain ⟨sh, hsh, -, hsize, -⟩ := hv.1.1
        exact ⟨sh, List.mem_cons_of_mem _ hsh, hsize⟩
      · obtain ⟨sh, hsh, hsize⟩ := ih hv.2 hd
        exact ⟨sh, List.mem_cons_of_mem _ hsh, hsize⟩
  obtain ⟨sh', hsh', hsize⟩ := hmain
  rwa [hv.create_unique hsh hsh']

/-- The parts of a closed level have been dealt with. -/
theorem dealt_of_calculate (hv : Valid h) (hc : .calculate l ∈ h) {sh : Shape κ}
    (hsh : .create l sh ∈ h) (hp : p < sh.parts) (hsize : sh.size p ≠ 0) :
    ∃ d, .deal l p d ∈ h := by
  have hmain : ∃ sh, .create l sh ∈ h ∧
      ∀ p < sh.parts, sh.size p ≠ 0 → ∃ d, .deal l p d ∈ h := by
    clear hsh
    -- what `calculate` was allowed on stays true behind it
    induction h with
    | nil => simp at hc
    | cons e h ih =>
      rcases List.mem_cons.mp hc with rfl | hc
      · obtain ⟨-, sh, hsh, hparts⟩ := hv.1
        refine ⟨sh, List.mem_cons_of_mem _ hsh, fun p hp hsize => ?_⟩
        obtain ⟨d, hd, -⟩ := hparts p hp hsize
        exact ⟨d, List.mem_cons_of_mem _ hd⟩
      · obtain ⟨sh, hsh, hparts⟩ := ih hv.2 hc
        refine ⟨sh, List.mem_cons_of_mem _ hsh, fun p hp hsize => ?_⟩
        obtain ⟨d, hd⟩ := hparts p hp hsize
        exact ⟨d, List.mem_cons_of_mem _ hd⟩
  obtain ⟨sh', hsh', hparts⟩ := hmain
  obtain rfl := hv.create_unique hsh hsh'
  exact hparts p hp hsize

/-- Only parts of levels that have been created are dealt with. -/
theorem created_of_deal (hv : Valid h) {d : Deal κ} (hd : .deal l p d ∈ h) :
    ∃ sh, Event.create l sh ∈ h := by
  induction h with
  | nil => simp at hd
  | cons e h ih =>
    rcases List.mem_cons.mp hd with rfl | hd
    · obtain ⟨sh, hsh, -⟩ := hv.1.1
      exact ⟨sh, List.mem_cons_of_mem _ hsh⟩
    · obtain ⟨sh, hsh⟩ := ih hv.2 hd
      exact ⟨sh, List.mem_cons_of_mem _ hsh⟩

/-- Only levels that have been created are closed. -/
theorem created_of_calculate (hv : Valid h) (hc : .calculate l ∈ h) :
    ∃ sh, Event.create l sh ∈ h := by
  induction h with
  | nil => simp at hc
  | cons e h ih =>
    rcases List.mem_cons.mp hc with rfl | hc
    · obtain ⟨-, sh, hsh, -⟩ := hv.1
      exact ⟨sh, List.mem_cons_of_mem _ hsh⟩
    · obtain ⟨sh, hsh⟩ := ih hv.2 hc
      exact ⟨sh, List.mem_cons_of_mem _ hsh⟩

/-- Only parts that have been handed over are reported as finished. -/
theorem deal_of_notify (hv : Valid h) (hn : .notify l p ∈ h) :
    ∃ c, Event.deal l p (.enqueued c) ∈ h := by
  induction h with
  | nil => simp at hn
  | cons e h ih =>
    rcases List.mem_cons.mp hn with rfl | hn
    · obtain ⟨c, hc⟩ := hv.1.1
      exact ⟨c, List.mem_cons_of_mem _ hc⟩
    · obtain ⟨c, hc⟩ := ih hv.2 hn
      exact ⟨c, List.mem_cons_of_mem _ hc⟩

/-- When all levels have been closed, everything has been dealt with. -/
theorem exactlyOnce (hv : Valid h) (hclosed : ∀ l sh, .create l sh ∈ h → .calculate l ∈ h) :
    ExactlyOnce h where
  parts l sh hsh p hp := by
    by_cases hsize : sh.size p = 0
    · rw [if_pos hsize]
      by_contra hne
      obtain ⟨d, hd⟩ := deal_iff_count.mpr (Nat.pos_of_ne_zero hne)
      exact hv.size_ne_zero hd hsh hsize
    · rw [if_neg hsize]
      -- once because the level is closed, and not twice
      have hpos := deal_iff_count.mp (hv.dealt_of_calculate (hclosed l sh hsh) hsh hp hsize)
      have hle := hv.count_deals_le (l := l) (p := p)
      omega
  closed l sh hsh := by
    have hpos := calculate_iff_count.mp (hclosed l sh hsh)
    have hle := hv.count_calculates_le (l := l)
    omega

end Valid

end Valid

/-! ## The stack -/

/-- A level on the stack: its parts before `idx` have been dealt with. -/
structure Frame (κ : Type*) where
  level : ℕ
  shape : Shape κ
  idx : ℕ

/-- The parts of a level before `idx` are finished, or the level above has been pushed for them,
or they are outstanding. -/
def FrameOk (h : List (Event κ)) (out : List (ℕ × ℕ)) (above : Option ℕ) (f : Frame κ) : Prop :=
  ∀ p < f.idx, p < f.shape.parts → f.shape.size p ≠ 0 → ∃ d, .deal f.level p d ∈ h ∧
    (d.DoneIn h f.level p ∨ (∃ l c, above = some l ∧ d = .pushed l c) ∨ (f.level, p) ∈ out)

/-- All levels of a list, top first, are as they should be below the level `above`. -/
def FramesOk (h : List (Event κ)) (out : List (ℕ × ℕ)) : Option ℕ → List (Frame κ) → Prop
  | _, [] => True
  | above, f :: fs => FrameOk h out above f ∧ FramesOk h out (some f.level) fs

/-- The lowest level of a list. -/
def lastLevel : Option ℕ → List (Frame κ) → Option ℕ
  | above, [] => above
  | _, f :: fs => lastLevel (some f.level) fs

/-- The levels on the stack are those of the history that have not been closed. -/
structure Ledger (frames : List (Frame κ)) (created : ℕ) (h : List (Event κ)) : Prop where
  valid : Valid h
  fresh : ∀ l sh, .create l sh ∈ h → l < created
  nodup : (frames.map Frame.level).Nodup
  known : ∀ f ∈ frames, .create f.level f.shape ∈ h
  unclosed : ∀ f ∈ frames, .calculate f.level ∉ h
  todo : ∀ f ∈ frames, ∀ p d, f.idx ≤ p → .deal f.level p d ∉ h
  gone : ∀ l sh, .create l sh ∈ h → (∃ f ∈ frames, f.level = l) ∨ .calculate l ∈ h

/-- The stack of the worker, the levels that have been freed below it, the outstanding parts and the
history fit together. -/
structure Accounts (run freed : List (Frame κ)) (out : List (ℕ × ℕ)) (created : ℕ)
    (h : List (Event κ)) : Prop where
  ledger : Ledger (run ++ freed) created h
  runOk : FramesOk h [] none run
  freedOk : FramesOk h out (lastLevel none run) freed
  waiting : ∀ x ∈ out, (∃ c, .deal x.1 x.2 (.enqueued c) ∈ h) ∧ .notify x.1 x.2 ∉ h
  waiting_nodup : out.Nodup

section Frames

variable {h h' : List (Event κ)} {out out' : List (ℕ × ℕ)} {above : Option ℕ} {f : Frame κ}
  {fs gs : List (Frame κ)}

theorem FrameOk.mono (hf : FrameOk h out above f) (hsub : h ⊆ h') (hout : out ⊆ out') :
    FrameOk h' out' above f := by
  intro p hp hparts hsize
  obtain ⟨d, hd, hdone⟩ := hf p hp hparts hsize
  refine ⟨d, hsub hd, ?_⟩
  rcases hdone with hdone | habove | hmem
  · exact Or.inl (hdone.mono hsub)
  · exact Or.inr (Or.inl habove)
  · exact Or.inr (Or.inr (hout hmem))

theorem FramesOk.mono (hf : FramesOk h out above fs) (hsub : h ⊆ h') (hout : out ⊆ out') :
    FramesOk h' out' above fs := by
  induction fs generalizing above with
  | nil => trivial
  | cons f fs ih => exact ⟨hf.1.mono hsub hout, ih hf.2⟩

/-- The level above has been closed. -/
theorem FramesOk.closed {l : ℕ} (hf : FramesOk h out (some l) fs) (hsub : h ⊆ h')
    (hc : .calculate l ∈ h') : FramesOk h' out none fs := by
  -- only the uppermost frame waits for the level above
  cases fs with
  | nil => trivial
  | cons f fs =>
    refine ⟨fun p hp hparts hsize => ?_, hf.2.mono hsub (List.Subset.refl _)⟩
    obtain ⟨d, hd, hdone⟩ := hf.1 p hp hparts hsize
    refine ⟨d, hsub hd, ?_⟩
    rcases hdone with hdone | ⟨l', c, habove, rfl⟩ | hmem
    · exact Or.inl (hdone.mono hsub)
    · -- the part that this level was pushed for is finished now
      rw [Option.some_inj] at habove
      exact Or.inl (habove ▸ hc)
    · exact Or.inr (Or.inr hmem)

/-- An outstanding part is reported as finished. -/
theorem FramesOk.notify (hf : FramesOk h out above fs) (hv : Valid h) {l p : ℕ} {c : κ}
    (hc : .deal l p (.enqueued c) ∈ h) :
    FramesOk (.notify l p :: h) (out.erase (l, p)) above fs := by
  induction fs generalizing above with
  | nil => trivial
  | cons f fs ih =>
    refine ⟨fun q hq hparts hsize => ?_, ih hf.2⟩
    obtain ⟨d, hd, hdone⟩ := hf.1 q hq hparts hsize
    refine ⟨d, List.mem_cons_of_mem _ hd, ?_⟩
    rcases hdone with hdone | hpushed | hmem
    · exact Or.inl (hdone.mono (List.subset_cons_self _ _))
    · exact Or.inr (Or.inl hpushed)
    · -- an outstanding part: this one, or another one
      by_cases heq : (f.level, q) = (l, p)
      · obtain ⟨rfl, rfl⟩ := Prod.mk.inj heq
        obtain rfl := hv.deal_unique hd hc
        exact Or.inl (List.mem_cons_self ..)
      · exact Or.inr (Or.inr ((List.mem_erase_of_ne heq).mpr hmem))

theorem framesOk_append :
    FramesOk h out above (fs ++ gs) ↔
      FramesOk h out above fs ∧ FramesOk h out (lastLevel above fs) gs := by
  induction fs generalizing above with
  | nil => simp [FramesOk, lastLevel]
  | cons f fs ih => simp only [List.cons_append, FramesOk, lastLevel, ih, and_assoc]

theorem lastLevel_append : lastLevel above (fs ++ gs) = lastLevel (lastLevel above fs) gs := by
  induction fs generalizing above with
  | nil => rfl
  | cons f fs ih => exact ih

end Frames

/-! ## The ledger -/

namespace Ledger

variable {frames pre post : List (Frame κ)} {f : Frame κ} {created : ℕ} {h : List (Event κ)}

/-- A level is created. -/
theorem create (hl : Ledger frames created h) (sh : Shape κ) :
    Ledger (⟨created, sh, 0⟩ :: frames) (created + 1) (.create created sh :: h) := by
  -- the number of the new level is used nowhere
  have hnew : ∀ sh', .create created sh' ∉ h := fun sh' hmem =>
    Nat.lt_irrefl _ (hl.fresh _ _ hmem)
  have hlevel : ∀ f ∈ frames, f.level ≠ created := fun f hf heq =>
    hnew _ (heq ▸ hl.known f hf)
  refine ⟨⟨hnew, hl.valid⟩, fun l sh' hmem => ?_, ?_, fun f hf => ?_, fun f hf hc => ?_,
    fun f hf p d hp hd => ?_, fun l sh' hmem => ?_⟩
  · rcases List.mem_cons.mp hmem with heq | hmem
    · rw [(Event.create.inj heq).1]
      exact Nat.lt_succ_self _
    · exact Nat.lt_succ_of_lt (hl.fresh l sh' hmem)
  · rw [List.map_cons, List.nodup_cons]
    refine ⟨fun hmem => ?_, hl.nodup⟩
    obtain ⟨f, hf, heq⟩ := List.mem_map.mp hmem
    exact hlevel f hf heq
  · rcases List.mem_cons.mp hf with rfl | hf
    · exact List.mem_cons_self ..
    · exact List.mem_cons_of_mem _ (hl.known f hf)
  · have hc : .calculate f.level ∈ h := by simpa using hc
    rcases List.mem_cons.mp hf with rfl | hf
    · -- a level that does not exist yet has not been closed
      obtain ⟨sh', hsh'⟩ := hl.valid.created_of_calculate hc
      exact hnew sh' hsh'
    · exact hl.unclosed f hf hc
  · have hd : .deal f.level p d ∈ h := by simpa using hd
    rcases List.mem_cons.mp hf with rfl | hf
    · -- nor have its parts been dealt with
      obtain ⟨sh', hsh'⟩ := hl.valid.created_of_deal hd
      exact hnew sh' hsh'
    · exact hl.todo f hf p d hp hd
  · rcases List.mem_cons.mp hmem with heq | hmem
    · exact Or.inl ⟨_, List.mem_cons_self .., (Event.create.inj heq).1.symm⟩
    · rcases hl.gone l sh' hmem with ⟨f, hf, heq⟩ | hc
      · exact Or.inl ⟨f, List.mem_cons_of_mem _ hf, heq⟩
      · exact Or.inr (List.mem_cons_of_mem _ hc)

/-- A part without contents is passed over. -/
theorem skip (hl : Ledger (pre ++ f :: post) created h) :
    Ledger (pre ++ { f with idx := f.idx + 1 } :: post) created h where
  valid := hl.valid
  fresh := hl.fresh
  nodup := by simpa using hl.nodup
  -- the frame keeps its level and shape, and only has a part less to do
  known g hg := by
    rw [List.mem_append, List.mem_cons] at hg
    rcases hg with hg | rfl | hg
    · exact hl.known g (by simp [hg])
    · exact hl.known f (by simp)
    · exact hl.known g (by simp [hg])
  unclosed g hg := by
    rw [List.mem_append, List.mem_cons] at hg
    rcases hg with hg | rfl | hg
    · exact hl.unclosed g (by simp [hg])
    · exact hl.unclosed f (by simp)
    · exact hl.unclosed g (by simp [hg])
  todo g hg p d hp := by
    rw [List.mem_append, List.mem_cons] at hg
    rcases hg with hg | rfl | hg
    · exact hl.todo g (by simp [hg]) p d hp
    · exact hl.todo f (by simp) p d (Nat.le_of_succ_le hp)
    · exact hl.todo g (by simp [hg]) p d hp
  gone l sh hmem := by
    rcases hl.gone l sh hmem with ⟨g, hg, heq⟩ | hc
    · rw [List.mem_append, List.mem_cons] at hg
      rcases hg with hg | rfl | hg
      · exact Or.inl ⟨g, by simp [hg], heq⟩
      · exact Or.inl ⟨{ g with idx := g.idx + 1 }, by simp, heq⟩
      · exact Or.inl ⟨g, by simp [hg], heq⟩
    · exact Or.inr hc

/-- The next part of a level is dealt with. -/
theorem deal (hl : Ledger (pre ++ f :: post) created h) (hparts : f.idx < f.shape.parts)
    (hsize : f.shape.size f.idx ≠ 0) {d : Deal κ} (hd : d.call = f.shape.call f.idx) :
    Ledger (pre ++ { f with idx := f.idx + 1 } :: post) created (.deal f.level f.idx d :: h) := by
  have hs := hl.skip
  have hmem : f ∈ pre ++ f :: post := by simp
  -- no frame has this part still to do, as no other frame has the level
  have hother : ∀ g ∈ pre ++ { f with idx := f.idx + 1 } :: post, ∀ p d', g.idx ≤ p →
      Event.deal g.level p d' ≠ .deal f.level f.idx d := by
    intro g hg p d' hp heq
    obtain ⟨hlevel, rfl, -⟩ := Event.deal.inj heq
    rw [List.mem_append, List.mem_cons] at hg
    have hnodup := hl.nodup
    rw [List.map_append, List.map_cons, List.nodup_append, List.nodup_cons] at hnodup
    obtain ⟨-, ⟨hnot, -⟩, hdisj⟩ := hnodup
    rcases hg with hg | rfl | hg
    · exact hdisj _ (List.mem_map_of_mem hg) _ (List.mem_cons_self ..) hlevel
    · exact absurd hp (Nat.not_succ_le_self _)
    · exact hnot (hlevel ▸ List.mem_map_of_mem hg)
  refine ⟨⟨⟨⟨f.shape, hl.known f hmem, hparts, hsize, hd⟩, hl.unclosed f hmem,
    fun d' => hl.todo f hmem _ d' (Nat.le_refl _)⟩, hl.valid⟩, fun l sh hc => hs.fresh l sh ?_,
    hs.nodup, fun g hg => List.mem_cons_of_mem _ (hs.known g hg),
    fun g hg hc => hs.unclosed g hg ?_, fun g hg p d' hp hmem' => ?_, fun l sh hc => ?_⟩
  · simpa using hc
  · simpa using hc
  · rcases List.mem_cons.mp hmem' with heq | hmem'
    · exact hother g hg p d' hp heq
    · exact hs.todo g hg p d' hp hmem'
  · exact (hs.gone l sh (by simpa using hc)).imp_right (List.mem_cons_of_mem _)

theorem skip_top (hl : Ledger (f :: post) created h) :
    Ledger ({ f with idx := f.idx + 1 } :: post) created h := by
  rw [← List.nil_append (f :: post)] at hl
  exact hl.skip

theorem deal_top (hl : Ledger (f :: post) created h) (hparts : f.idx < f.shape.parts)
    (hsize : f.shape.size f.idx ≠ 0) {d : Deal κ} (hd : d.call = f.shape.call f.idx) :
    Ledger ({ f with idx := f.idx + 1 } :: post) created (.deal f.level f.idx d :: h) := by
  rw [← List.nil_append (f :: post)] at hl
  exact hl.deal hparts hsize hd

/-- A level whose parts are finished is closed. -/
theorem close (hl : Ledger (f :: post) created h)
    (hdone : ∀ p < f.shape.parts, f.shape.size p ≠ 0 →
      ∃ d, .deal f.level p d ∈ h ∧ d.DoneIn h f.level p) :
    Ledger post created (.calculate f.level :: h) := by
  have hmem : f ∈ f :: post := List.mem_cons_self ..
  have hnodup := hl.nodup
  rw [List.map_cons, List.nodup_cons] at hnodup
  have hpost : ∀ g ∈ post, g ∈ f :: post := fun g hg => List.mem_cons_of_mem _ hg
  refine ⟨⟨⟨hl.unclosed f hmem, f.shape, hl.known f hmem, hdone⟩, hl.valid⟩,
    fun l sh hc => hl.fresh l sh (by simpa using hc), hnodup.2,
    fun g hg => List.mem_cons_of_mem _ (hl.known g (hpost g hg)), fun g hg hc => ?_,
    fun g hg p d hp hd => hl.todo g (hpost g hg) p d hp (by simpa using hd), fun l sh hc => ?_⟩
  · rcases List.mem_cons.mp hc with heq | hc
    · exact hnodup.1 (Event.calculate.inj heq ▸ List.mem_map_of_mem hg)
    · exact hl.unclosed g (hpost g hg) hc
  -- every other level is where it was
  · rcases hl.gone l sh (by simpa using hc) with ⟨g, hg, rfl⟩ | hc
    · rcases List.mem_cons.mp hg with rfl | hg
      · exact Or.inr (List.mem_cons_self ..)
      · exact Or.inl ⟨g, hg, rfl⟩
    · exact Or.inr (List.mem_cons_of_mem _ hc)

/-- A part that has been handed over is reported as finished. -/
theorem notify (hl : Ledger frames created h) {l p : ℕ} {c : κ}
    (hd : .deal l p (.enqueued c) ∈ h) (hnot : .notify l p ∉ h) :
    Ledger frames created (.notify l p :: h) where
  valid := ⟨⟨⟨c, hd⟩, hnot⟩, hl.valid⟩
  fresh l sh hc := hl.fresh l sh (by simpa using hc)
  nodup := hl.nodup
  known f hf := List.mem_cons_of_mem _ (hl.known f hf)
  unclosed f hf hc := hl.unclosed f hf (by simpa using hc)
  todo f hf p d hp hd := hl.todo f hf p d hp (by simpa using hd)
  gone l sh hc := (hl.gone l sh (by simpa using hc)).imp_right (List.mem_cons_of_mem _)

end Ledger

/-! ## What happens to the stack -/

namespace Accounts

variable {run freed fs : List (Frame κ)} {out : List (ℕ × ℕ)} {created : ℕ} {h : List (Event κ)}
  {f : Frame κ}

/-- Nothing has happened. -/
theorem empty : Accounts ([] : List (Frame κ)) [] [] 0 [] where
  ledger := ⟨trivial, by simp, List.nodup_nil, by simp, by simp, by simp, by simp⟩
  runOk := trivial
  freedOk := trivial
  waiting := by simp
  waiting_nodup := List.nodup_nil

/-- The first level of a worker. -/
theorem first (ha : Accounts [] [] out created h) (sh : Shape κ) :
    Accounts [⟨created, sh, 0⟩] [] out (created + 1) (.create created sh :: h) where
  ledger := ha.ledger.create sh
  -- the new level has dealt with nothing
  runOk := ⟨fun p hp => absurd hp (Nat.not_lt_zero p), trivial⟩
  freedOk := trivial
  waiting x hx := by
    obtain ⟨⟨c, hc⟩, hnot⟩ := ha.waiting x hx
    exact ⟨⟨c, List.mem_cons_of_mem _ hc⟩, by simpa using hnot⟩
  waiting_nodup := ha.waiting_nodup

/-- The worker passes over a part without contents. -/
theorem skip (ha : Accounts (f :: fs) freed out created h) (hsize : f.shape.size f.idx = 0) :
    Accounts ({ f with idx := f.idx + 1 } :: fs) freed out created h where
  ledger := ha.ledger.skip_top
  runOk := by
    refine ⟨fun p hp hparts hne => ha.runOk.1 p ?_ hparts hne, ha.runOk.2⟩
    -- the part passed over is empty, and needs no event
    rcases Nat.lt_succ_iff_lt_or_eq.mp hp with hp | rfl
    · exact hp
    · exact absurd hsize hne
  freedOk := ha.freedOk
  waiting := ha.waiting
  waiting_nodup := ha.waiting_nodup

/-- The parts waited for, after an event that is none of theirs. -/
theorem waiting_cons (ha : Accounts run freed out created h) {e : Event κ}
    (he : ∀ x ∈ out, e ≠ .notify x.1 x.2) (x : ℕ × ℕ) (hx : x ∈ out) :
    (∃ c, .deal x.1 x.2 (.enqueued c) ∈ e :: h) ∧ .notify x.1 x.2 ∉ e :: h := by
  obtain ⟨⟨c, hc⟩, hnot⟩ := ha.waiting x hx
  refine ⟨⟨c, List.mem_cons_of_mem _ hc⟩, fun hmem => ?_⟩
  rcases List.mem_cons.mp hmem with heq | hmem
  · exact he x hx heq.symm
  · exact hnot hmem

/-- The worker finishes a part. -/
theorem deal (ha : Accounts (f :: fs) freed out created h) (hparts : f.idx < f.shape.parts)
    (hsize : f.shape.size f.idx ≠ 0) {d : Deal κ} (hd : d.call = f.shape.call f.idx)
    (hdone : d.DoneIn h f.level f.idx) :
    Accounts ({ f with idx := f.idx + 1 } :: fs) freed out created
      (.deal f.level f.idx d :: h) where
  ledger := ha.ledger.deal_top hparts hsize hd
  runOk := by
    have hrun := ha.runOk.mono (List.subset_cons_self (.deal f.level f.idx d) h)
      (List.Subset.refl _)
    refine ⟨fun p hp hparts hne => ?_, hrun.2⟩
    -- the part dealt with is finished by its event
    rcases Nat.lt_succ_iff_lt_or_eq.mp hp with hp | rfl
    · exact hrun.1 p hp hparts hne
    · exact ⟨d, List.mem_cons_self .., Or.inl (hdone.mono (List.subset_cons_self _ _))⟩
  freedOk := ha.freedOk.mono (List.subset_cons_self _ _) (List.Subset.refl _)
  waiting := ha.waiting_cons (by simp)
  waiting_nodup := ha.waiting_nodup

/-- The worker pushes a level for a part. -/
theorem push (ha : Accounts (f :: fs) freed out created h) (hparts : f.idx < f.shape.parts)
    (hsize : f.shape.size f.idx ≠ 0) {c : κ} (hc : f.shape.call f.idx = some c) (sh : Shape κ) :
    Accounts (⟨created, sh, 0⟩ :: { f with idx := f.idx + 1 } :: fs) freed out (created + 1)
      (.create created sh :: .deal f.level f.idx (.pushed created c) :: h) where
  ledger := (ha.ledger.deal_top hparts hsize (d := .pushed created c) hc.symm).create sh
  runOk := by
    have hsub : h ⊆ .create created sh :: .deal f.level f.idx (.pushed created c) :: h :=
      List.Subset.trans (List.subset_cons_self _ _) (List.subset_cons_self _ _)
    have hrun := ha.runOk.mono hsub (List.Subset.refl _)
    refine ⟨fun p hp => absurd hp (Nat.not_lt_zero p), fun p hp hparts hne => ?_, hrun.2⟩
    -- there was no level above before, so only the new part waits for the level pushed
    rcases Nat.lt_succ_iff_lt_or_eq.mp hp with hp | rfl
    · obtain ⟨d, hd, hdone⟩ := hrun.1 p hp hparts hne
      refine ⟨d, hd, ?_⟩
      rcases hdone with hdone | ⟨l, c, habove, -⟩ | hmem
      · exact Or.inl hdone
      · exact absurd habove (by simp)
      · exact absurd hmem List.not_mem_nil
    · exact ⟨_, by simp, Or.inr (Or.inl ⟨created, c, rfl, rfl⟩)⟩
  freedOk := ha.freedOk.mono (List.Subset.trans (List.subset_cons_self _ _) (List.subset_cons_self _ _))
    (List.Subset.refl _)
  waiting x hx := by
    obtain ⟨⟨c', hc'⟩, hnot⟩ := ha.waiting x hx
    exact ⟨⟨c', List.mem_cons_of_mem _ (List.mem_cons_of_mem _ hc')⟩, by simpa using hnot⟩
  waiting_nodup := ha.waiting_nodup

/-- The worker closes its top level. -/
theorem close (ha : Accounts (f :: fs) freed out created h) (hidx : f.shape.parts ≤ f.idx) :
    Accounts fs freed out created (.calculate f.level :: h) where
  ledger := Ledger.close ha.ledger fun p hp hne => by
    obtain ⟨d, hd, hdone⟩ := ha.runOk.1 p (Nat.lt_of_lt_of_le hp hidx) hp hne
    refine ⟨d, hd, ?_⟩
    -- the top has no level above, and the worker's own frames wait for no other
    rcases hdone with hdone | ⟨l, c, habove, -⟩ | hmem
    · exact hdone
    · exact absurd habove (by simp)
    · exact absurd hmem List.not_mem_nil
  runOk := ha.runOk.2.closed (List.subset_cons_self _ _) (List.mem_cons_self ..)
  freedOk := by
    -- the frame below the closed one is a freed one if the worker has no more
    cases fs with
    | nil => exact FramesOk.closed ha.freedOk (List.subset_cons_self _ _) (List.mem_cons_self ..)
    | cons g fs => exact ha.freedOk.mono (List.subset_cons_self _ _) (List.Subset.refl _)
  waiting := ha.waiting_cons (by simp)
  waiting_nodup := ha.waiting_nodup

/-- The lowest level of the worker is freed. -/
theorem free (ha : Accounts (fs ++ [f]) freed out created h) :
    Accounts fs (f :: freed) out created h where
  ledger := by
    have hl := ha.ledger
    rwa [List.append_assoc, List.singleton_append] at hl
  runOk := (framesOk_append.mp ha.runOk).1
  freedOk := by
    -- its parts may be handed over from now on, none is outstanding yet
    refine ⟨(framesOk_append.mp ha.runOk).2.1.mono (List.Subset.refl _) (List.nil_subset _), ?_⟩
    have hfreed := ha.freedOk
    rwa [lastLevel_append] at hfreed
  waiting := ha.waiting
  waiting_nodup := ha.waiting_nodup

/-- A part of a freed level without contents is passed over. -/
theorem skipFreed (ha : Accounts run (f :: fs) out created h) (hsize : f.shape.size f.idx = 0) :
    Accounts run ({ f with idx := f.idx + 1 } :: fs) out created h where
  ledger := ha.ledger.skip
  runOk := ha.runOk
  freedOk := by
    refine ⟨fun p hp hparts hne => ha.freedOk.1 p ?_ hparts hne, ha.freedOk.2⟩
    rcases Nat.lt_succ_iff_lt_or_eq.mp hp with hp | rfl
    · exact hp
    · exact absurd hsize hne
  waiting := ha.waiting
  waiting_nodup := ha.waiting_nodup

/-- A part of a freed level is finished. -/
theorem dealFreed (ha : Accounts run (f :: fs) out created h) (hparts : f.idx < f.shape.parts)
    (hsize : f.shape.size f.idx ≠ 0) {d : Deal κ} (hd : d.call = f.shape.call f.idx)
    (hdone : d.DoneIn h f.level f.idx) :
    Accounts run ({ f with idx := f.idx + 1 } :: fs) out created
      (.deal f.level f.idx d :: h) where
  ledger := ha.ledger.deal hparts hsize hd
  runOk := ha.runOk.mono (List.subset_cons_self _ _) (List.Subset.refl _)
  freedOk := by
    have hfreed := ha.freedOk.mono (List.subset_cons_self (.deal f.level f.idx d) h)
      (List.Subset.refl _)
    refine ⟨fun p hp hparts hne => ?_, hfreed.2⟩
    rcases Nat.lt_succ_iff_lt_or_eq.mp hp with hp | rfl
    · exact hfreed.1 p hp hparts hne
    · exact ⟨d, List.mem_cons_self .., Or.inl (hdone.mono (List.subset_cons_self _ _))⟩
  waiting := ha.waiting_cons (by simp)
  waiting_nodup := ha.waiting_nodup

/-- A part of a freed level is handed over. -/
theorem enqueue (ha : Accounts run (f :: fs) out created h) (hparts : f.idx < f.shape.parts)
    (hsize : f.shape.size f.idx ≠ 0) {c : κ} (hc : f.shape.call f.idx = some c) :
    Accounts run ({ f with idx := f.idx + 1 } :: fs) (out ++ [(f.level, f.idx)]) created
      (.deal f.level f.idx (.enqueued c) :: h) := by
  have hmem : f ∈ run ++ f :: fs := by simp
  -- the part was still to do, so it is neither outstanding nor reported
  have hfresh : (f.level, f.idx) ∉ out := fun hin => by
    obtain ⟨⟨c', hc'⟩, -⟩ := ha.waiting _ hin
    exact ha.ledger.todo f hmem _ _ (Nat.le_refl _) hc'
  have hnotify : .notify f.level f.idx ∉ h := fun hin => by
    obtain ⟨c', hd⟩ := ha.ledger.valid.deal_of_notify hin
    exact ha.ledger.todo f hmem _ _ (Nat.le_refl _) hd
  refine ⟨ha.ledger.deal hparts hsize (d := .enqueued c) hc.symm,
    ha.runOk.mono (List.subset_cons_self _ _) (List.Subset.refl _), ?_, fun x hx => ?_,
    List.nodup_append.mpr ⟨ha.waiting_nodup, List.nodup_singleton _, fun x hx y hy heq => ?_⟩⟩
  · have hfreed := ha.freedOk.mono (List.subset_cons_self (.deal f.level f.idx (.enqueued c)) h)
      (List.subset_append_left out [(f.level, f.idx)])
    refine ⟨fun p hp hparts hne => ?_, hfreed.2⟩
    rcases Nat.lt_succ_iff_lt_or_eq.mp hp with hp | rfl
    · exact hfreed.1 p hp hparts hne
    · exact ⟨_, List.mem_cons_self .., Or.inr (Or.inr (by simp))⟩
  · rcases List.mem_append.mp hx with hx | hx
    · exact ha.waiting_cons (by simp) x hx
    · rw [List.mem_singleton.mp hx]
      exact ⟨⟨c, List.mem_cons_self ..⟩, by simpa using hnotify⟩
  · exact hfresh (List.mem_singleton.mp hy ▸ heq ▸ hx)

/-- A part that has been handed over is reported as finished. -/
theorem notify {pre post : List (ℕ × ℕ)} {l p : ℕ}
    (ha : Accounts run freed (pre ++ (l, p) :: post) created h) :
    Accounts run freed (pre ++ post) created (.notify l p :: h) := by
  obtain ⟨⟨c, hc⟩, hnot⟩ := ha.waiting (l, p) (by simp)
  have hpre : (l, p) ∉ pre := fun hin =>
    (List.nodup_append.mp ha.waiting_nodup).2.2 _ hin _ (List.mem_cons_self ..) rfl
  -- the parts outstanding are pairwise different, so just this one goes
  have herase : pre ++ post = (pre ++ (l, p) :: post).erase (l, p) := by
    rw [List.erase_append_right _ hpre, List.erase_cons_head]
  rw [herase]
  refine ⟨ha.ledger.notify hc hnot,
    ha.runOk.mono (List.subset_cons_self _ _) (List.Subset.refl _),
    ha.freedOk.notify ha.ledger.valid hc, fun x hx => ?_, ha.waiting_nodup.erase _⟩
  obtain ⟨hne, hx⟩ := ha.waiting_nodup.mem_erase_iff.mp hx
  obtain ⟨⟨c', hc'⟩, hnot'⟩ := ha.waiting x hx
  refine ⟨⟨c', List.mem_cons_of_mem _ hc'⟩, fun hin => ?_⟩
  rcases List.mem_cons.mp hin with heq | hin
  · obtain ⟨rfl, rfl⟩ := Event.notify.inj heq
    exact hne rfl
  · exact hnot' hin

/-- Nothing is outstanding: the uppermost freed level is closed. -/
theorem closeFreed (ha : Accounts [] (f :: fs) [] created h) (hidx : f.shape.parts ≤ f.idx) :
    Accounts [] fs [] created (.calculate f.level :: h) where
  ledger := Ledger.close ha.ledger fun p hp hne => by
    obtain ⟨d, hd, hdone⟩ := ha.freedOk.1 p (Nat.lt_of_lt_of_le hp hidx) hp hne
    refine ⟨d, hd, ?_⟩
    -- nothing is outstanding and no level stands above
    rcases hdone with hdone | ⟨l, c, habove, -⟩ | hmem
    · exact hdone
    · exact absurd habove (by simp [lastLevel])
    · exact absurd hmem List.not_mem_nil
  runOk := trivial
  freedOk := ha.freedOk.2.closed (List.subset_cons_self _ _) (List.mem_cons_self ..)
  waiting := by simp
  waiting_nodup := List.nodup_nil

/-- When the stack is empty, everything has been dealt with exactly once. -/
theorem exactlyOnce (ha : Accounts [] [] out created h) : ExactlyOnce h :=
  ha.ledger.valid.exactlyOnce fun l sh hsh => (ha.ledger.gone l sh hsh).resolve_left (by simp)

end Accounts

/-! ## Runs of a worker -/

/-- The level after the next of its parts has been dealt with. -/
def Frame.next (f : Frame κ) : Frame κ := { f with idx := f.idx + 1 }

/-- The part is finished at once. -/
def Deal.Inline : Deal κ → Prop
  | .filled => True
  | .sorted _ => True
  | _ => False

theorem Deal.Inline.doneIn {d : Deal κ} (hd : d.Inline) (h : List (Event κ)) (l p : ℕ) :
    d.DoneIn h l p := by
  cases d with
  | filled => trivial
  | sorted c => trivial
  | _ => exact hd.elim

/-- A worker: its stack, the levels that have been freed below it, the parts that have been handed
over, with their calls, and what has happened so far. -/
structure WorkStack (κ : Type*) where
  run : List (Frame κ)
  freed : List (Frame κ)
  out : List ((ℕ × ℕ) × κ)
  created : ℕ
  history : List (Event κ)

namespace WorkStack

/-- What a worker does, and what others report to it. -/
inductive Step : WorkStack κ → WorkStack κ → Prop
  | first {out : List ((ℕ × ℕ) × κ)} {n : ℕ} {h : List (Event κ)} (sh : Shape κ) :
      Step ⟨[], [], out, n, h⟩ ⟨[⟨n, sh, 0⟩], [], out, n + 1, .create n sh :: h⟩
  | skip {f : Frame κ} {fs freed : List (Frame κ)} {out : List ((ℕ × ℕ) × κ)} {n : ℕ}
      {h : List (Event κ)} :
      f.shape.size f.idx = 0 → Step ⟨f :: fs, freed, out, n, h⟩ ⟨f.next :: fs, freed, out, n, h⟩
  | deal {f : Frame κ} {fs freed : List (Frame κ)} {out : List ((ℕ × ℕ) × κ)} {n : ℕ}
      {h : List (Event κ)} {d : Deal κ} :
      f.idx < f.shape.parts → f.shape.size f.idx ≠ 0 → d.call = f.shape.call f.idx → d.Inline →
      Step ⟨f :: fs, freed, out, n, h⟩ ⟨f.next :: fs, freed, out, n, .deal f.level f.idx d :: h⟩
  | push {f : Frame κ} {fs freed : List (Frame κ)} {out : List ((ℕ × ℕ) × κ)} {n : ℕ}
      {h : List (Event κ)} {c : κ} (sh : Shape κ) :
      f.idx < f.shape.parts → f.shape.size f.idx ≠ 0 → f.shape.call f.idx = some c →
      Step ⟨f :: fs, freed, out, n, h⟩ ⟨⟨n, sh, 0⟩ :: f.next :: fs, freed, out, n + 1,
        .create n sh :: .deal f.level f.idx (.pushed n c) :: h⟩
  | close {f : Frame κ} {fs freed : List (Frame κ)} {out : List ((ℕ × ℕ) × κ)} {n : ℕ}
      {h : List (Event κ)} :
      f.shape.parts ≤ f.idx →
      Step ⟨f :: fs, freed, out, n, h⟩ ⟨fs, freed, out, n, .calculate f.level :: h⟩
  | free {f : Frame κ} {fs freed : List (Frame κ)} {out : List ((ℕ × ℕ) × κ)} {n : ℕ}
      {h : List (Event κ)} : Step ⟨fs ++ [f], freed, out, n, h⟩ ⟨fs, f :: freed, out, n, h⟩
  | skipFreed {f : Frame κ} {run fs : List (Frame κ)} {out : List ((ℕ × ℕ) × κ)} {n : ℕ}
      {h : List (Event κ)} :
      f.shape.size f.idx = 0 → Step ⟨run, f :: fs, out, n, h⟩ ⟨run, f.next :: fs, out, n, h⟩
  | dealFreed {f : Frame κ} {run fs : List (Frame κ)} {out : List ((ℕ × ℕ) × κ)} {n : ℕ}
      {h : List (Event κ)} {d : Deal κ} :
      f.idx < f.shape.parts → f.shape.size f.idx ≠ 0 → d.call = f.shape.call f.idx → d.Inline →
      Step ⟨run, f :: fs, out, n, h⟩ ⟨run, f.next :: fs, out, n, .deal f.level f.idx d :: h⟩
  | enqueue {f : Frame κ} {run fs : List (Frame κ)} {out : List ((ℕ × ℕ) × κ)} {n : ℕ}
      {h : List (Event κ)} {c : κ} :
      f.idx < f.shape.parts → f.shape.size f.idx ≠ 0 → f.shape.call f.idx = some c →
      Step ⟨run, f :: fs, out, n, h⟩ ⟨run, f.next :: fs, out ++ [((f.level, f.idx), c)], n,
        .deal f.level f.idx (.enqueued c) :: h⟩
  | notify {run freed : List (Frame κ)} {pre post : List ((ℕ × ℕ) × κ)} {x : (ℕ × ℕ) × κ} {n : ℕ}
      {h : List (Event κ)} : Step ⟨run, freed, pre ++ x :: post, n, h⟩
        ⟨run, freed, pre ++ post, n, .notify x.1.1 x.1.2 :: h⟩
  | closeFreed {f : Frame κ} {fs : List (Frame κ)} {n : ℕ} {h : List (Event κ)} :
      f.shape.parts ≤ f.idx →
      Step ⟨[], f :: fs, [], n, h⟩ ⟨[], fs, [], n, .calculate f.level :: h⟩

/-- All runs of a worker. -/
def system (κ : Type*) : Transition (WorkStack κ) Unit where
  init s := s = ⟨[], [], [], 0, []⟩
  step s _ s' := Step s s'

/-- The calls that have been handed over are those of the history that have not been reported as
finished. -/
structure HandedOver (out : List ((ℕ × ℕ) × κ)) (h : List (Event κ)) : Prop where
  noted : ∀ x ∈ out, .deal x.1.1 x.1.2 (.enqueued x.2) ∈ h
  known : ∀ l p c, .deal l p (.enqueued c) ∈ h → ((l, p), c) ∈ out ∨ .notify l p ∈ h

namespace HandedOver

variable {out pre post : List ((ℕ × ℕ) × κ)} {h : List (Event κ)} {x : (ℕ × ℕ) × κ}

/-- Nothing is handed over. -/
theorem note (hh : HandedOver out h) {e : Event κ} (he : ∀ l p c, e ≠ .deal l p (.enqueued c)) :
    HandedOver out (e :: h) where
  noted y hy := List.mem_cons_of_mem _ (hh.noted y hy)
  known l p c hc := by
    rcases List.mem_cons.mp hc with heq | hc
    · exact absurd heq.symm (he l p c)
    · exact (hh.known l p c hc).imp_right (List.mem_cons_of_mem _)

theorem enqueue (hh : HandedOver out h) (l p : ℕ) (c : κ) :
    HandedOver (out ++ [((l, p), c)]) (.deal l p (.enqueued c) :: h) where
  noted y hy := by
    rcases List.mem_append.mp hy with hy | hy
    · exact List.mem_cons_of_mem _ (hh.noted y hy)
    · rw [List.mem_singleton.mp hy]
      exact List.mem_cons_self ..
  known l' p' c' hc := by
    rcases List.mem_cons.mp hc with heq | hc
    · obtain ⟨rfl, rfl, hd⟩ := Event.deal.inj heq
      obtain rfl := Deal.enqueued.inj hd
      exact Or.inl (by simp)
    · exact (hh.known l' p' c' hc).imp (List.mem_append_left _) (List.mem_cons_of_mem _)

theorem notify (hh : HandedOver (pre ++ x :: post) h) :
    HandedOver (pre ++ post) (.notify x.1.1 x.1.2 :: h) where
  noted y hy := List.mem_cons_of_mem _ (hh.noted y (by
    rcases List.mem_append.mp hy with hy | hy
    · exact List.mem_append_left _ hy
    · exact List.mem_append_right _ (List.mem_cons_of_mem _ hy)))
  known l p c hc := by
    have hc : .deal l p (.enqueued c) ∈ h := by simpa using hc
    rcases hh.known l p c hc with hin | hin
    · rcases List.mem_append.mp hin with hin | hin
      · exact Or.inl (List.mem_append_left _ hin)
      · rcases List.mem_cons.mp hin with rfl | hin
        · exact Or.inr (List.mem_cons_self ..)
        · exact Or.inl (List.mem_append_right _ hin)
    · exact Or.inr (List.mem_cons_of_mem _ hin)

end HandedOver

/-- The stack fits the history, and so does what has been handed over. -/
structure Ok (s : WorkStack κ) : Prop where
  accounts : Accounts s.run s.freed (s.out.map Prod.fst) s.created s.history
  handedOver : HandedOver s.out s.history

theorem Step.ok {s s' : WorkStack κ} (hstep : Step s s') (hs : s.Ok) : s'.Ok := by
  obtain ⟨ha, hh⟩ := hs
  cases hstep with
  | first sh => exact ⟨ha.first sh, hh.note (by simp)⟩
  | skip hsize => exact ⟨ha.skip hsize, hh⟩
  -- one lemma of `Accounts` and one of `HandedOver` for each step
  | deal hidx hsize hcall hd =>
    refine ⟨ha.deal hidx hsize hcall (hd.doneIn _ _ _), hh.note fun l p c heq => ?_⟩
    rw [(Event.deal.inj heq).2.2] at hd
    exact hd
  | push sh hidx hsize hcall =>
    exact ⟨ha.push hidx hsize hcall sh, (hh.note (by simp)).note (by simp)⟩
  | close hidx => exact ⟨ha.close hidx, hh.note (by simp)⟩
  | free => exact ⟨ha.free, hh⟩
  | skipFreed hsize => exact ⟨ha.skipFreed hsize, hh⟩
  | dealFreed hidx hsize hcall hd =>
    refine ⟨ha.dealFreed hidx hsize hcall (hd.doneIn _ _ _), hh.note fun l p c heq => ?_⟩
    rw [(Event.deal.inj heq).2.2] at hd
    exact hd
  | enqueue hidx hsize hcall =>
    refine ⟨?_, hh.enqueue _ _ _⟩
    rw [List.map_append]
    exact ha.enqueue hidx hsize hcall
  | notify =>
    rw [List.map_append, List.map_cons] at ha
    refine ⟨?_, hh.notify⟩
    rw [List.map_append]
    exact ha.notify
  | closeFreed hidx => exact ⟨ha.closeFreed hidx, hh.note (by simp)⟩

/-- In every run, stack and history fit together. -/
theorem reachable_ok {s : WorkStack κ} (hs : (system κ).Reachable s) : s.Ok := by
  refine hs.invariant (P := Ok) ?_ fun _ _ _ _ hok hstep => Step.ok hstep hok
  rintro s rfl
  exact ⟨.empty, by simp, by simp⟩

end WorkStack

end StringSampleSort.Library
