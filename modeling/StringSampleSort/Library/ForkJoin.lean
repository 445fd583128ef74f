import StringSampleSort.Library.Transition

/-!
# Fork-join processes over a shared memory

A process owns a footprint of the memory and may create subprocesses for parts of it.  A
finished subprocess is joined by its parent.  All processes of the tree take their steps in any
order.

The proof rule is that of separation: each process has a condition on the memory of its own
footprint, a process changes nothing outside of its footprint, and the footprints of the
subprocesses of a process lie apart from each other.  What remains to be shown for a system is
about a single process and the step that it takes.

## Main results

- `ForkJoin.Logic.step_holds`: a step keeps the conditions of all processes
- `ForkJoin.Logic.reachable_holds`, `ForkJoin.Logic.run_safe`: so they hold in all reachable
  states, and all labels are safe
- `ForkJoin.Logic.exists_step`: while the root is not finished some process can go on
- `ForkJoin.Logic.run_length_le`: all runs end
- `ForkJoin.Logic.everywhere`: what every process keeps by itself holds of all of them
-/

namespace StringSampleSort.Library

/-- A process and the subprocesses that it has not joined yet. -/
inductive ProcessTree (L : Type*)
  | node (root : L) (subs : List (ProcessTree L))

namespace ProcessTree

variable {L : Type*}

/-- The process at the root. -/
def root : ProcessTree L → L
  | node l _ => l

/-- A process without subprocesses. -/
def leaf (l : L) : ProcessTree L := node l []

@[simp] theorem root_node (l : L) (ts : List (ProcessTree L)) : (node l ts).root = l := rfl

@[simp] theorem root_leaf (l : L) : (leaf l).root = l := rfl

mutual

/-- The sum over all processes of a tree. -/
def total (f : L → ℕ) : ProcessTree L → ℕ
  | node l ts => f l + totals f ts

/-- The sum over all processes of some trees. -/
def totals (f : L → ℕ) : List (ProcessTree L) → ℕ
  | [] => 0
  | t :: ts => total f t + totals f ts

end

theorem totals_append (f : L → ℕ) (ts us : List (ProcessTree L)) :
    totals f (ts ++ us) = totals f ts + totals f us := by
  induction ts with
  | nil => simp [totals]
  | cons t ts ih => simp [totals, ih, Nat.add_assoc]

theorem totals_leaf (f : L → ℕ) (ls : List L) : totals f (ls.map leaf) = (ls.map f).sum := by
  induction ls with
  | nil => simp [totals]
  | cons l ls ih => simp [totals, total, leaf, ih]

/-- Every process of a tree has a property. -/
inductive Everywhere (I : L → Prop) : ProcessTree L → Prop
  | mk {l : L} {ts : List (ProcessTree L)} :
      I l → (∀ t ∈ ts, Everywhere I t) → Everywhere I (node l ts)

namespace Everywhere

variable {I : L → Prop} {l : L} {ts : List (ProcessTree L)}

theorem root (h : Everywhere I (node l ts)) : I l := by
  cases h with
  | mk hroot _ => exact hroot

theorem subs (h : Everywhere I (node l ts)) : ∀ t ∈ ts, Everywhere I t := by
  cases h with
  | mk _ hsubs => exact hsubs

end Everywhere

end ProcessTree

open ProcessTree

/-- What a single process can do.  An action is labelled, changes the memory and the process,
and creates further subprocesses. -/
structure ForkJoin (M L κ : Type*) where
  act : M → L → κ → M → L → List L → Prop
  finished : L → Prop
  /-- what a process does when the second process, a subprocess, has finished -/
  join : M → L → L → M → L → Prop

namespace ForkJoin

variable {M L κ : Type*} (sys : ForkJoin M L κ)

/-- A step of some process in the tree.  Joins carry no label. -/
inductive Step : M → ProcessTree L → Option κ → M → ProcessTree L → Prop
  | act {m m' : M} {l l' : L} {a : κ} {new : List L} (ts : List (ProcessTree L)) :
      sys.act m l a m' l' new → Step m (node l ts) (some a) m' (node l' (ts ++ new.map leaf))
  | sub {m m' : M} {t t' : ProcessTree L} {a : Option κ} (l : L) (us vs : List (ProcessTree L)) :
      Step m t a m' t' → Step m (node l (us ++ t :: vs)) a m' (node l (us ++ t' :: vs))
  | join {m m' : M} {l l' : L} {t : ProcessTree L} (us vs : List (ProcessTree L)) :
      sys.finished t.root → sys.join m l t.root m' l' →
      Step m (node l (us ++ t :: vs)) none m' (node l' (us ++ vs))

/-- All interleavings of the processes, from one process on. -/
def system (m : M) (l : L) : Transition (M × ProcessTree L) (Option κ) where
  init s := s = (m, leaf l)
  step s a s' := sys.Step s.1 s.2 a s'.1 s'.2

/-- A proof that processes keep apart.  The memory is extended by ghost state in `G`.
`effect w g g'` means that `g` has changed to `g'` within `w` only, and `agree w g g'` that
nothing has changed there. -/
structure Logic (G W : Type*) where
  mem : G → M
  foot : L → W
  /-- what holds of a process with these subprocesses -/
  holds : G → L → List L → Prop
  effect : W → G → G → Prop
  agree : W → G → G → Prop
  /-- what holds of a label -/
  safe : κ → Prop
  /-- how much a process and its subprocesses in the future can still do -/
  rank : L → ℕ
  effect_refl : ∀ w g, effect w g g
  effect_trans : ∀ {w g₁ g₂ g₃}, effect w g₁ g₂ → effect w g₂ g₃ → effect w g₁ g₃
  agree_holds : ∀ {g g' l ls}, holds g l ls → agree (foot l) g g' → holds g' l ls
  agree_sub : ∀ {g g' l ls}, holds g l ls → agree (foot l) g g' → ∀ c ∈ ls, agree (foot c) g g'
  effect_sub : ∀ {g g' l ls}, holds g l ls → ∀ c ∈ ls, effect (foot c) g g' →
    effect (foot l) g g'
  effect_agree : ∀ {g g' l us c vs}, holds g l (us ++ c :: vs) → effect (foot c) g g' →
    ∀ o ∈ us ++ vs, agree (foot o) g g'
  sub_step : ∀ {g g' l us c c' vs}, holds g l (us ++ c :: vs) → effect (foot c) g g' →
    foot c' = foot c → holds g' l (us ++ c' :: vs)
  act_step : ∀ {g l ls a m' l' new}, holds g l ls → sys.act (mem g) l a m' l' new →
    safe a ∧ ∃ g', mem g' = m' ∧ effect (foot l) g g' ∧ foot l' = foot l ∧
      holds g' l' (ls ++ new) ∧ (∀ o ∈ new, holds g' o []) ∧ (∀ o ∈ ls, agree (foot o) g g') ∧
      rank l' + (new.map rank).sum < rank l
  join_step : ∀ {g l us c vs ls m' l'}, holds g l (us ++ c :: vs) → sys.finished c →
    holds g c ls → sys.join (mem g) l c m' l' →
    ∃ g', mem g' = m' ∧ effect (foot l) g g' ∧ foot l' = foot l ∧ holds g' l' (us ++ vs) ∧
      (∀ o ∈ us ++ vs, agree (foot o) g g') ∧ rank l' < rank l
  progress : ∀ {g l ls}, holds g l ls → ¬ sys.finished l →
    (∃ a m' l' new, sys.act (mem g) l a m' l' new) ∨
      ls ≠ [] ∧ ∀ c ∈ ls, sys.finished c → ∃ m' l', sys.join (mem g) l c m' l'

namespace Logic

variable {sys} {G W : Type*} (P : Logic sys G W)

/-- Every process of the tree meets its condition. -/
inductive Holds (g : G) : ProcessTree L → Prop
  | node {l : L} {ts : List (ProcessTree L)} :
      P.holds g l (ts.map root) → (∀ t ∈ ts, Holds g t) → Holds g (node l ts)

variable {P}

theorem Holds.root {g : G} {l : L} {ts : List (ProcessTree L)} (h : P.Holds g (.node l ts)) :
    P.holds g l (ts.map ProcessTree.root) := by
  cases h with
  | node hroot _ => exact hroot

theorem Holds.subs {g : G} {l : L} {ts : List (ProcessTree L)} (h : P.Holds g (.node l ts)) :
    ∀ t ∈ ts, P.Holds g t := by
  cases h with
  | node _ hsubs => exact hsubs

/-- The frame rule: what happens elsewhere does not touch a process and its subprocesses. -/
theorem Holds.frame {g g' : G} {t : ProcessTree L} (h : P.Holds g t)
    (hagree : P.agree (P.foot t.root) g g') : P.Holds g' t := by
  induction h with
  | node hroot _ ih =>
    refine .node (P.agree_holds hroot hagree) fun t ht => ih t ht ?_
    exact P.agree_sub hroot hagree _ (List.mem_map_of_mem ht)

/-- A step keeps all conditions, and its effect stays within the footprint of the root. -/
theorem step_holds {g : G} {m m' : M} {t t' : ProcessTree L} {a : Option κ} (hm : P.mem g = m)
    (h : P.Holds g t) (hstep : sys.Step m t a m' t') :
    (∀ k, a = some k → P.safe k) ∧ ∃ g', P.mem g' = m' ∧ P.effect (P.foot t.root) g g' ∧
      P.foot t'.root = P.foot t.root ∧ P.Holds g' t' := by
  induction hstep with
  | act ts hact =>
    subst hm
    obtain ⟨hsafe, g', hm', heffect, hfoot, hroot, hnew, hagree, -⟩ := P.act_step h.root hact
    refine ⟨fun k hk => Option.some_inj.mp hk ▸ hsafe, g', hm', heffect, hfoot, .node ?_ ?_⟩
    · rwa [List.map_append, List.map_map, show root ∘ leaf = id from rfl, List.map_id]
    · intro t ht
      rcases List.mem_append.mp ht with hold | hleaf
      · exact (h.subs t hold).frame (hagree _ (List.mem_map_of_mem hold))
      · obtain ⟨o, ho, rfl⟩ := List.mem_map.mp hleaf
        exact .node (hnew o ho) (by simp)
  | @sub _ t t' _ l us vs _ ih =>
    have hroot := h.root
    rw [List.map_append, List.map_cons] at hroot
    obtain ⟨hsafe, g', hm', heffect, hfoot, ht'⟩ := ih (h.subs t (by simp))
    refine ⟨hsafe, g', hm', P.effect_sub hroot _ (by simp) heffect, rfl, .node ?_ ?_⟩
    · rw [List.map_append, List.map_cons]
      exact P.sub_step hroot heffect hfoot
    · intro u hu
      have hothers := P.effect_agree hroot heffect
      rw [← List.map_append] at hothers
      -- the process that moved, and the others, which it leaves alone
      rcases List.mem_append.mp hu with hu | hu
      · exact (h.subs u (by simp [hu])).frame
          (hothers _ (List.mem_map_of_mem (List.mem_append_left _ hu)))
      · rcases List.mem_cons.mp hu with rfl | hu
        · exact ht'
        · exact (h.subs u (by simp [hu])).frame
            (hothers _ (List.mem_map_of_mem (List.mem_append_right _ hu)))
  | @join _ l l' t us vs hfin hjoin =>
    subst hm
    have hroot := h.root
    rw [List.map_append, List.map_cons] at hroot
    have hsub : P.Holds g t := h.subs t (by simp)
    obtain ⟨c, cs⟩ := t
    obtain ⟨g', hm', heffect, hfoot, hrest, hagree, -⟩ := P.join_step hroot hfin hsub.root hjoin
    rw [← List.map_append] at hrest hagree
    refine ⟨by simp, g', hm', heffect, hfoot, .node hrest fun u hu => ?_⟩
    refine (h.subs u ?_).frame (hagree _ (List.mem_map_of_mem hu))
    rcases List.mem_append.mp hu with hu | hu
    · simp [hu]
    · simp [hu]

/-- A step leaves less to do. -/
theorem step_rank {g : G} {m m' : M} {t t' : ProcessTree L} {a : Option κ} (hm : P.mem g = m)
    (h : P.Holds g t) (hstep : sys.Step m t a m' t') : t'.total P.rank < t.total P.rank := by
  induction hstep with
  | act ts hact =>
    subst hm
    obtain ⟨-, _, -, -, -, -, -, -, hrank⟩ := P.act_step h.root hact
    rw [total, total, totals_append, totals_leaf]
    omega
  | @sub _ _ _ _ _ us _ _ ih =>
    have hsub := ih (h.subs _ (by simp))
    rw [total, total, totals_append, totals_append, totals, totals]
    omega
  | @join _ _ _ t us vs hfin hjoin =>
    subst hm
    have hroot := h.root
    rw [List.map_append, List.map_cons] at hroot
    have hsub : P.Holds g t := h.subs t (by simp)
    obtain ⟨c, cs⟩ := t
    obtain ⟨_, -, -, -, -, -, hrank⟩ := P.join_step hroot hfin hsub.root hjoin
    rw [total, total, totals_append, totals_append, totals]
    omega

/-- The conditions hold in all reachable states, and the whole run has had its effect within
the footprint of the root. -/
theorem reachable_holds {g : G} {l : L} (hl : P.holds g l []) {s : M × ProcessTree L}
    (hs : (sys.system (P.mem g) l).Reachable s) :
    ∃ g', P.mem g' = s.1 ∧ P.effect (P.foot l) g g' ∧ P.foot s.2.root = P.foot l ∧
      P.Holds g' s.2 := by
  refine Transition.Reachable.invariant (P := fun s => ∃ g', P.mem g' = s.1 ∧
    P.effect (P.foot l) g g' ∧ P.foot s.2.root = P.foot l ∧ P.Holds g' s.2) ?_ ?_ hs
  · rintro s rfl
    exact ⟨g, rfl, P.effect_refl _ _, rfl, .node hl (by simp)⟩
  · rintro s a s' - ⟨g', hm, heffect, hfoot, hholds⟩ hstep
    obtain ⟨-, g'', hm', heffect', hfoot', hholds'⟩ := step_holds hm hholds hstep
    exact ⟨g'', hm', P.effect_trans heffect (hfoot ▸ heffect'), hfoot'.trans hfoot, hholds'⟩

/-- All labels of a run are safe. -/
theorem run_safe {g : G} {l : L} (hl : P.holds g l []) {s s' : M × ProcessTree L} {k : κ}
    (hs : (sys.system (P.mem g) l).Reachable s) (hstep : sys.Step s.1 s.2 (some k) s'.1 s'.2) :
    P.safe k := by
  obtain ⟨g', hm, -, -, hholds⟩ := reachable_holds hl hs
  exact (step_holds hm hholds hstep).1 k rfl

/-- A run has no more steps than the rank of its first process. -/
theorem run_length_le {g : G} {l : L} (hl : P.holds g l [])
    {tr : List ((M × ProcessTree L) × Option κ)} {s : M × ProcessTree L}
    (h : (sys.system (P.mem g) l).Run tr s) : tr.length ≤ P.rank l := by
  have hle : tr.length + s.2.total P.rank ≤ P.rank l := by
    apply h.length_le fun s => s.2.total P.rank
    · rintro s rfl
      simp [total, totals, leaf]
    · intro s a s' hs hstep
      obtain ⟨g', hm, -, -, hholds⟩ := reachable_holds hl hs
      exact step_rank hm hholds hstep
  exact Nat.le_of_add_right_le hle

/-- While the root is not finished, some process can take a step. -/
theorem exists_step {g : G} {t : ProcessTree L} (h : P.Holds g t)
    (hfin : ¬ sys.finished t.root) : ∃ a m' t', sys.Step (P.mem g) t a m' t' := by
  induction h with
  | @node l ts hroot _ ih =>
    rcases P.progress hroot hfin with ⟨a, m', l', new, hact⟩ | ⟨hne, hjoin⟩
    · exact ⟨_, _, _, .act ts hact⟩
    · obtain ⟨c, cs, rfl⟩ : ∃ c cs, ts = c :: cs := by
        cases ts with
        | nil => exact absurd rfl hne
        | cons c cs => exact ⟨c, cs, rfl⟩
      -- a subprocess is joined when it has finished, and goes on otherwise
      by_cases hc : sys.finished c.root
      · obtain ⟨m', l', hjoin⟩ := hjoin c.root (by simp) hc
        exact ⟨_, _, _, .join [] cs hc hjoin⟩
      · obtain ⟨a, m', t', hstep⟩ := ih c (List.mem_cons_self ..) hc
        exact ⟨_, _, _, .sub l [] cs hstep⟩

/-- What every process keeps in its own actions and joins holds of all processes at all times. -/
theorem everywhere {I : L → Prop} {g : G} {l : L} (hl : P.holds g l []) (hI : I l)
    (hact : ∀ {g l ls a m' l' new}, P.holds g l ls → I l → sys.act (P.mem g) l a m' l' new →
      I l' ∧ ∀ o ∈ new, I o)
    (hjoin : ∀ {m l c m' l'}, I l → sys.finished c → sys.join m l c m' l' → I l')
    {s : M × ProcessTree L} (hs : (sys.system (P.mem g) l).Reachable s) : s.2.Everywhere I := by
  apply hs.invariant (P := fun s => s.2.Everywhere I)
  · rintro s rfl
    exact .mk hI (by simp)
  · rintro ⟨m, t⟩ a ⟨m', t'⟩ hreach hbefore hstep
    obtain ⟨g', hm, -, -, hholds⟩ := reachable_holds hl hreach
    change P.mem g' = m at hm
    change sys.Step m t a m' t' at hstep
    change t.Everywhere I at hbefore
    change P.Holds g' t at hholds
    show t'.Everywhere I
    clear hreach
    induction hstep with
    | act ts hstep =>
      subst hm
      obtain ⟨hroot, hnew⟩ := hact hholds.root hbefore.root hstep
      refine .mk hroot fun t ht => ?_
      rcases List.mem_append.mp ht with hold | hleaf
      · exact hbefore.subs t hold
      · obtain ⟨o, ho, rfl⟩ := List.mem_map.mp hleaf
        exact .mk (hnew o ho) (by simp)
    | @sub _ t t' _ l us vs _ ih =>
      have ht := ih (hbefore.subs t (by simp)) (hholds.subs t (by simp))
      refine .mk hbefore.root fun u hu => ?_
      rcases List.mem_append.mp hu with hu | hu
      · exact hbefore.subs u (by simp [hu])
      · rcases List.mem_cons.mp hu with rfl | hu
        · exact ht
        · exact hbefore.subs u (by simp [hu])
    | join us vs hfin hstep =>
      refine .mk (hjoin hbefore.root hfin hstep) fun u hu => hbefore.subs u ?_
      rcases List.mem_append.mp hu with hu | hu
      · simp [hu]
      · simp [hu]

end Logic

end ForkJoin

end StringSampleSort.Library
