import StringSampleSort.Tbb.Linearizable
import StringSampleSort.Tbb.Progress

/-!
# The end of the concurrent queue

The functions that are not thread-safe: `unsafe_size`, `clear` and the destructor.  They are
called while no other thread is in a call.  The destructor empties the queue with the
operations of a thread that runs alone, and then `internal_finish_clear` gives back the pages
that are left, of which there is at most one in each micro queue.

## Main results

- `ConcurrentQueue.callAlone_eq`: a thread that runs alone gets what the list says
- `ConcurrentQueue.destroy_frees`: the destructor ends, its assertions hold, and it leaves no
  page allocated
-/

namespace StringSampleSort.Tbb

open Library

/-- When all items of a micro queue have been popped, it has one page or none. -/
theorem QueueOk.lastPage {τ π α : Type*} {n h : ℕ} {item : ℕ → Option α} {page : ℕ → π}
    {heap : π → Option (Page π α)} {m : MicroQueue τ π}
    (hok : QueueOk n item page heap m h h .before .before) :
    m.headPage = m.tailPage ∧
      ∀ p, m.tailPage = some p ↔ ∃ x, (h / n ≤ x ∧ x < reach n h 0) ∧ page x = p := by
  rw [hok.list.head_page, hok.list.tail_page]
  simp only [span, PopPhase.headStep, PopPhase.tailStep, PushPhase.linkStep, PushPhase.tailStep,
    Nat.add_zero]
  by_cases hmod : h % n = 0
  · -- the last page was full, and is out of the list
    simp only [reach_of_mod_eq hmod, Nat.add_zero, lt_irrefl, if_false, true_and]
    intro p
    simp only [reduceCtorEq, false_iff]
    rintro ⟨x, ⟨hle, hlt⟩, -⟩
    exact absurd hlt (not_lt.mpr hle)
  · simp only [reach_of_mod_ne hmod, Nat.lt_succ_self, if_true, Nat.add_sub_cancel, true_and]
    intro p
    simp only [Option.some_inj, Nat.lt_succ_iff]
    constructor
    · exact fun hp => ⟨h / n, ⟨le_rfl, le_rfl⟩, hp⟩
    · rintro ⟨x, ⟨hle, hle'⟩, hp⟩
      rwa [le_antisymm hle hle']

namespace ConcurrentQueue

variable {τ π α : Type*} [DecidableEq τ] [DecidableEq π] {s s' : ConcurrentQueue τ π α}
  {itemSize : ℕ} {g g' : Ghost τ π α} {t : τ} {fresh : π}

/-! ## Model -/

/-- `internal_size`. -/
def internalSize (s : ConcurrentQueue τ π α) : ℕ :=
  ((s.tailCounter : ℤ) - s.headCounter - s.nInvalidEntries).toNat

/-- Thread `t` takes up to `n` steps while no other thread takes any. -/
def alone (itemSize : ℕ) (t : τ) (fresh : π) : ℕ → ConcurrentQueue τ π α → ConcurrentQueue τ π α
  | 0, s => s
  | n + 1, s =>
    match s.threadStep itemSize t fresh with
    | some s' => s'.alone itemSize t fresh n
    | none => s

/-- A call that returns within `n` steps. -/
def callAlone (itemSize : ℕ) (t : τ) (fresh : π) (n : ℕ) (op : Op α)
    (s : ConcurrentQueue τ π α) : Option (Result α × ConcurrentQueue τ π α) :=
  let s' := (s.goto t (entry op)).alone itemSize t fresh n
  match s'.pc t with
  | .returned r => some (r, s'.goto t .idle)
  | _ => none

/-- `clear`, which ends within `rounds` rounds. -/
def clear (itemSize : ℕ) (t : τ) (fresh : π) (n : ℕ) :
    ℕ → ConcurrentQueue τ π α → Option (ConcurrentQueue τ π α)
  | 0, _ => none
  | rounds + 1, s => do
    let (r, s) ← s.callAlone itemSize t fresh n .empty
    match r with
    | .isEmpty true => some s
    | _ =>
      let (_, s) ← s.callAlone itemSize t fresh n .tryPop
      s.clear itemSize t fresh n rounds

/-- The loop body of `internal_finish_clear`, without result if an assertion fails or the page
is not allocated. -/
def finishMicro (s : ConcurrentQueue τ π α) (i : Fin nQueue) : Option (ConcurrentQueue τ π α) :=
  match (s.array i).tailPage with
  | some tp =>
    if (s.array i).headPage = some tp ∧ (s.heap tp).isSome then
      some { s.setPage tp none with
        array := Function.update s.array i { s.array i with tailPage := none } }
    else none
  | none => if (s.array i).headPage = none then some s else none

/-- `internal_finish_clear`. -/
def finishClear (s : ConcurrentQueue τ π α) : Option (ConcurrentQueue τ π α) :=
  (List.finRange nQueue).foldlM finishMicro s

/-- `~concurrent_queue`. -/
def destroy (itemSize : ℕ) (t : τ) (fresh : π) (n rounds : ℕ) (s : ConcurrentQueue τ π α) :
    Option (ConcurrentQueue τ π α) := do
  let s ← s.clear itemSize t fresh n rounds
  s.finishClear

/-! ## A thread that runs alone -/

/-- These are steps of the queue. -/
theorem alone_path (t : τ) (fresh : π) (n : ℕ) : (system τ π α itemSize).Path Label.visible s []
    (s.alone itemSize t fresh n) := by
  induction n generalizing s with
  | zero => exact .refl s
  | succ n ih =>
    unfold alone
    split
    · -- thread `t` takes one step, and the path goes on behind it
      next s' hs => exact (Transition.Path.single (T := system τ π α itemSize)
        (l := .step t fresh) hs).trans ih
    · exact .refl s

omit [DecidableEq π] in
theorem Advances.rank_lt (h : Advances 0 s s' t) :
    (s'.pc t).rank 0 s'.headCounter < (s.pc t).rank 0 s.headCounter := by
  obtain ⟨p, hpc, ⟨hhead, hlt⟩ | ⟨hhead, hcas, rfl⟩⟩ := h
  · simpa [hpc, hhead] using hlt
  · simp [hpc, hcas, Pc.rank]

/-- Thread `t` alone has called `op` on the items `items`. -/
structure Solo (itemSize : ℕ) (t : τ) (op : Op α) (items : List α) (s : ConcurrentQueue τ π α)
    (g : Ghost τ π α) : Prop where
  invariant : Invariant itemSize s g
  alone : (fifo α).Alone (s.view g.log) t op items

section Solo

variable {op : Op α} {items : List α}

omit [DecidableEq π] [DecidableEq τ] in
/-- The other threads are idle, and thread `t` is not. -/
theorem Solo.pc (h : Solo itemSize t op items s g) :
    (∀ u, u ≠ t → s.pc u = .idle) ∧ s.pc t ≠ .idle := by
  constructor
  · exact fun u hu => h.invariant.idle_of_status (h.alone.others u hu)
  · intro hidle
    have hstatus : (s.view g.log).calls t = .idle := by simp [view, hidle, Pc.status]
    -- an idle thread has neither called nor returned
    obtain ⟨hcalled, -⟩ | ⟨hdone, -⟩ := h.alone.self
    · simp [hstatus] at hcalled
    · simp [hstatus] at hdone

omit [DecidableEq π] in
/-- A thread that is not pushing needs no memory. -/
theorem Solo.hasMemory (h : Solo itemSize t op items s g) (hop : ∀ item, op ≠ .push item)
    (fresh : π) : HasMemory s fresh := by
  intro u item k hu
  obtain rfl : u = t := by
    by_contra hne
    simp [h.pc.1 u hne] at hu
  -- a thread that is to allocate a page has taken effect as a push
  have hstatus : (s.view g.log).calls u = .done .pushed := by simp [view, hu, Pc.status]
  obtain ⟨hcalled, -⟩ | ⟨hdone, -⟩ := h.alone.self
  · simp [hstatus] at hcalled
  · cases op with
    | push item => exact absurd rfl (hop item)
    | tryPop | empty => simp [hstatus, fifo] at hdone

/-- Until the call has returned, thread `t` can take another step. -/
theorem Solo.step [Finite τ] (h : Solo itemSize t op items s g)
    (hop : ∀ item, op ≠ .push item) (fresh : π) (hret : ∀ r, s.pc t ≠ .returned r) :
    ∃ s' g', s.threadStep itemSize t fresh = some s' ∧ Solo itemSize t op items s' g' ∧
      (s'.pc t).rank 0 s'.headCounter < (s.pc t).rank 0 s.headCounter := by
  have hcall : (s.pc t).inCall = true := by
    have hidle := h.pc.2
    have hok := h.invariant.pc_ne_fault t
    cases hp : s.pc t with
    | idle => exact absurd hp hidle
    | returned r => exact absurd hp (hret r)
    | fault => exact absurd hp hok
    | _ => rfl
  -- there is no deadlock, and only thread `t` can be the one that moves
  have hcan : CanStep itemSize s fresh := h.invariant.1.canStep (h.hasMemory hop fresh) hcall
  obtain ⟨u, s', hs⟩ := hcan
  obtain rfl : u = t := by
    by_contra hne
    simp [threadStep, h.pc.1 u hne] at hs
  obtain ⟨g', hg', hlog⟩ := h.invariant.next (l := .step u fresh) hs
  have hpath := view_step h.invariant hg' hlog hs
  exact ⟨s', g', hs, ⟨hg', h.alone.path hpath⟩,
    (step_advances 0 (h.invariant.2.fits u) hs (hg'.pc_ne_fault u)).rank_lt⟩

/-- A thread that runs alone returns. -/
theorem Solo.returns [Finite τ] (hop : ∀ item, op ≠ .push item) (fresh : π) {n : ℕ}
    (h : Solo itemSize t op items s g) (hn : (s.pc t).rank 0 s.headCounter ≤ n + 1) :
    ∃ g' r, Solo itemSize t op items (s.alone itemSize t fresh n) g' ∧
      (s.alone itemSize t fresh n).pc t = .returned r := by
  -- by induction on the number of steps: each one lowers the rank
  induction n generalizing s g with
  | zero =>
    by_cases hret : ∃ r, s.pc t = .returned r
    · obtain ⟨r, hr⟩ := hret
      exact ⟨g, r, h, hr⟩
    · -- one more step would be too much
      have hret' : ∀ r, s.pc t ≠ .returned r := fun r hr => hret ⟨r, hr⟩
      obtain ⟨s', g', -, hsolo, hlt⟩ := h.step hop fresh hret'
      have hpos := Pc.rank_pos 0 s'.headCounter hsolo.pc.2 (hsolo.invariant.pc_ne_fault t)
      omega
  | succ n ih =>
    by_cases hret : ∃ r, s.pc t = .returned r
    · -- a thread that has returned stays where it is
      obtain ⟨r, hr⟩ := hret
      have hstop : s.alone itemSize t fresh (n + 1) = s := by
        simp [ConcurrentQueue.alone, threadStep, hr]
      rw [hstop]
      exact ⟨g, r, h, hr⟩
    · have hret' : ∀ r, s.pc t ≠ .returned r := fun r hr => hret ⟨r, hr⟩
      obtain ⟨s', g', hs, hsolo, hlt⟩ := h.step hop fresh hret'
      have hgo : s.alone itemSize t fresh (n + 1) = s'.alone itemSize t fresh n := by
        simp [ConcurrentQueue.alone, hs]
      rw [hgo]
      exact ih hsolo (by omega)

end Solo

/-! ## Calls between which nothing happens -/

/-- No thread is in a call. -/
structure Quiescent (itemSize : ℕ) (s : ConcurrentQueue τ π α) (g : Ghost τ π α) : Prop where
  invariant : Invariant itemSize s g
  idle : ∀ t, s.pc t = .idle

/-- What is in the queue. -/
def items (s : ConcurrentQueue τ π α) (g : Ghost τ π α) : List α := g.log.drop s.headCounter

omit [DecidableEq τ] [DecidableEq π] in
/-- `unsafe_size` counts the items. -/
theorem Quiescent.length_items (h : Quiescent itemSize s g) :
    (s.items g).length = s.internalSize := by
  simp only [items, List.length_drop, h.invariant.2.log_length, internalSize,
    h.invariant.2.valid]
  omega

/-- The result of a call and what it leaves are those of the list. -/
theorem callAlone_eq [Finite τ] (h : Quiescent itemSize s g) (op : Op α)
    (hop : ∀ item, op ≠ .push item) (t : τ) (fresh : π) {n : ℕ} (hn : 15 ≤ n) :
    ∃ s' g', s.callAlone itemSize t fresh n op =
        some (((fifo α).apply op (s.items g)).1, s') ∧
      Quiescent itemSize s' g' ∧ s'.items g' = ((fifo α).apply op (s.items g)).2 := by
  obtain ⟨g₁, hg₁, hlog₁⟩ := h.invariant.next (l := .event (.call t op)) ⟨h.idle t, rfl⟩
  have hstart : Solo itemSize t op (s.items g) (s.goto t (entry op)) g₁ := by
    refine ⟨hg₁, fun u hu => ?_, Or.inl ⟨?_, ?_⟩⟩
    · simp [view, goto, Function.update_of_ne hu, h.idle u, Pc.status]
    · simp [view, goto]
    · rw [hlog₁]
      rfl
  -- no call has a rank above 16
  have hrank : ((s.goto t (entry op)).pc t).rank 0 (s.goto t (entry op)).headCounter ≤ n + 1 := by
    have hentry := Pc.rank_entry_le (π := π) 0 s.headCounter op
    rw [show (s.goto t (entry op)).pc t = entry op by simp [goto]]
    exact hentry.trans (by omega)
  obtain ⟨g₂, r, hsolo, hret⟩ := hstart.returns hop fresh hrank
  set s₂ := (s.goto t (entry op)).alone itemSize t fresh n with hs₂
  obtain ⟨g₃, hg₃, hlog₃⟩ := hsolo.invariant.next (l := .event (.ret t r)) ⟨hret, rfl⟩
  -- a call that nothing interferes with has the result of the list
  have hdone : (s₂.view g₂.log).calls t = .done r := by simp [view, hret, Pc.status]
  obtain ⟨hcalled, -⟩ | ⟨hr, hstate⟩ := hsolo.alone.self
  · simp [hdone] at hcalled
  · obtain rfl : r = ((fifo α).apply op (s.items g)).1 := by simpa [hdone] using hr
    refine ⟨s₂.goto t .idle, g₃, ?_, ⟨hg₃, fun u => ?_⟩, ?_⟩
    · simp only [callAlone, ← hs₂, hret]
    · rcases eq_or_ne u t with rfl | hne
      · simp [goto]
      · simpa [goto, Function.update_of_ne hne] using hsolo.pc.1 u hne
    · rw [← hstate, items, hlog₃]
      rfl

/-- `clear` takes out one item in each round. -/
theorem clear_eq [Finite τ] (t : τ) (fresh : π) {n : ℕ} (hn : 15 ≤ n) {rounds : ℕ}
    (h : Quiescent itemSize s g) (hrounds : (s.items g).length < rounds) :
    ∃ s' g', s.clear itemSize t fresh n rounds = some s' ∧ Quiescent itemSize s' g' ∧
      s'.items g' = [] := by
  -- by induction on the rounds: the item that is popped pays for its round
  induction rounds generalizing s g with
  | zero => simp at hrounds
  | succ rounds ih =>
    -- the test of the loop leaves the items as they are
    obtain ⟨s₁, g₁, hempty, hq₁, hitems₁⟩ :=
      callAlone_eq h .empty (by simp) t fresh hn
    cases hitems : s.items g with
    | nil =>
      refine ⟨s₁, g₁, ?_, hq₁, by rw [hitems₁, hitems]; rfl⟩
      simp [clear, hempty, hitems, fifo]
    | cons item rest =>
      have hstill : s₁.items g₁ = item :: rest := by rw [hitems₁, hitems]; rfl
      -- the body takes out the first one
      obtain ⟨s₂, g₂, hpop, hq₂, hitems₂⟩ :=
        callAlone_eq hq₁ .tryPop (by simp) t fresh hn
      have hrest : s₂.items g₂ = rest := by rw [hitems₂, hstill]; rfl
      have hlt : (s₂.items g₂).length < rounds := by
        rw [hitems, List.length_cons] at hrounds
        rw [hrest]
        omega
      obtain ⟨s', g', hclear, hq', hnil⟩ := ih hq₂ hlt
      refine ⟨s', g', ?_, hq', hnil⟩
      rw [← hclear]
      simp [clear, hempty, hitems, fifo, hpop]

/-! ## The pages that are left -/

section Pages

variable (h : Quiescent itemSize s g)

include h

omit [DecidableEq τ] [DecidableEq π]

/-- All tickets have been served, so an empty queue has given out all items of each micro
queue. -/
theorem Quiescent.pushed_eq (hempty : s.items g = []) : s.pushed = s.popped := by
  have hle : s.tailCounter ≤ s.headCounter := by
    rw [← h.invariant.2.log_length]
    exact List.drop_eq_nil_iff.mp hempty
  -- nothing is left of the log behind the head
  have heq : s.headCounter = s.tailCounter := le_antisymm h.invariant.1.head_le hle
  funext i
  apply eq_of_forall_lt_iff
  intro j
  -- without calls, a ticket has been served if and only if it has been drawn
  have hpush := h.invariant.1.push.lt_served_iff (fun t => by simp [h.idle, Pc.stage,
    Stage.pushTicket]) (ticket i j)
  have hpop := h.invariant.1.pop.lt_served_iff (fun t => by simp [h.idle, Pc.stage,
    Stage.popTicket]) (ticket i j)
  rw [← heq, ← hpop] at hpush
  simpa [lanes] using hpush

/-- In each micro queue of an empty queue, "at most one page should remain". -/
theorem Quiescent.lastPage (hempty : s.items g = []) (i : Fin nQueue) :
    (s.array i).headPage = (s.array i).tailPage ∧
      ∀ p, (s.array i).tailPage = some p ↔ ∃ x, g.owner p = some (.queue i x) := by
  have hpush : s.pushPhase i = .before := roleAt_idle fun t => by
    simp [h.idle, Pc.pushLane, Pc.stage, Stage.pushTurn]
  have hpop : s.popPhase i = .before := roleAt_idle fun t => by
    simp [h.idle, Pc.popLane, Pc.stage, Stage.popTurn]
  have hok := h.invariant.2.queue i
  -- both sides stand at the same item, so what they know of the pages meets
  rw [hpush, hpop, h.pushed_eq hempty] at hok
  refine ⟨hok.lastPage.1, fun p => ?_⟩
  rw [hok.lastPage.2]
  apply exists_congr
  intro x
  rw [h.invariant.2.owned_queue, InUse, hpush, h.pushed_eq hempty]
  rfl

end Pages

omit [DecidableEq τ] in
/-- The loop of `internal_finish_clear` gives back the page of each micro queue. -/
theorem foldlM_finishMicro (l : List (Fin nQueue)) (hnodup : l.Nodup)
    (hsame : ∀ i ∈ l, (s.array i).headPage = (s.array i).tailPage)
    (halloc : ∀ i ∈ l, ∀ p, (s.array i).tailPage = some p → s.heap p ≠ none)
    (hdistinct : ∀ i ∈ l, ∀ j ∈ l, i ≠ j → ∀ p, (s.array i).tailPage = some p →
      (s.array j).tailPage ≠ some p) :
    ∃ s', l.foldlM finishMicro s = some s' ∧
      ∀ p, s'.heap p = none ↔ s.heap p = none ∨ ∃ i ∈ l, (s.array i).tailPage = some p := by
  -- by induction on the micro queues that are left: the round for `i` leaves theirs alone
  induction l generalizing s with
  | nil => exact ⟨s, rfl, by simp⟩
  | cons i l ih =>
    obtain ⟨hi, hnodup'⟩ := List.nodup_cons.mp hnodup
    have hne : ∀ j ∈ l, j ≠ i := fun j hj heq => hi (heq ▸ hj)
    cases htail : (s.array i).tailPage with
    | none =>
      have hhead : (s.array i).headPage = none :=
        (hsame i List.mem_cons_self).trans htail
      obtain ⟨s', hs', hheap⟩ := ih hnodup' (fun j hj => hsame j (List.mem_cons_of_mem i hj))
        (fun j hj => halloc j (List.mem_cons_of_mem i hj))
        fun j hj k hk => hdistinct j (List.mem_cons_of_mem i hj) k (List.mem_cons_of_mem i hk)
      refine ⟨s', ?_, fun p => ?_⟩
      · simpa [List.foldlM_cons, finishMicro, htail, hhead] using hs'
      · rw [hheap]
        simp [htail]
    | some tp =>
      have hhead : (s.array i).headPage = some tp :=
        (hsame i List.mem_cons_self).trans htail
      have hsome : (s.heap tp).isSome = true :=
        Option.isSome_iff_ne_none.mpr (halloc i List.mem_cons_self tp htail)
      set u : ConcurrentQueue τ π α := { s.setPage tp none with
        array := Function.update s.array i { s.array i with tailPage := none } } with hu
      have harray : ∀ j ∈ l, u.array j = s.array j := fun j hj => by
        simp [hu, Function.update_of_ne (hne j hj)]
      -- no other micro queue has the page that is freed
      have hother : ∀ j ∈ l, (s.array j).tailPage ≠ some tp := fun j hj =>
        hdistinct i List.mem_cons_self j (List.mem_cons_of_mem i hj) (hne j hj).symm tp htail
      have hheap : ∀ p, p ≠ tp → u.heap p = s.heap p := fun p hp => by
        simp [hu, setPage, Function.update_of_ne hp]
      obtain ⟨s', hs', hheap'⟩ := ih (s := u) hnodup'
        (fun j hj => by
          rw [harray j hj]
          exact hsame j (List.mem_cons_of_mem i hj))
        (fun j hj p hp => by
          rw [harray j hj] at hp
          rw [hheap p fun heq => hother j hj (heq ▸ hp)]
          exact halloc j (List.mem_cons_of_mem i hj) p hp)
        (fun j hj k hk hjk p hp => by
          rw [harray j hj] at hp
          rw [harray k hk]
          exact hdistinct j (List.mem_cons_of_mem i hj) k (List.mem_cons_of_mem i hk) hjk p hp)
      refine ⟨s', ?_, fun p => ?_⟩
      · simpa [List.foldlM_cons, finishMicro, htail, hhead, hsome, hu] using hs'
      · rw [hheap']
        have hlist : (∃ j ∈ l, (u.array j).tailPage = some p) ↔
            ∃ j ∈ l, (s.array j).tailPage = some p :=
          exists_congr fun j => and_congr_right fun hj => by rw [harray j hj]
        rw [hlist, List.exists_mem_cons_iff, htail]
        rcases eq_or_ne p tp with rfl | hp
        · simp [hu, setPage]
        · simp [hheap p hp, Ne.symm hp]

/-! ## The destructor -/

/-- From a queue that no thread is using, the destructor takes all items and all pages. -/
theorem Quiescent.destroy_eq [Finite τ] (h : Quiescent itemSize s g) (t : τ) (fresh : π)
    {n rounds : ℕ} (hn : 15 ≤ n) (hrounds : (s.items g).length < rounds) :
    ∃ s', s.destroy itemSize t fresh n rounds = some s' ∧ ∀ p, s'.heap p = none := by
  obtain ⟨u, g', hclear, hq, hempty⟩ := clear_eq t fresh hn h hrounds
  have hlast := hq.lastPage hempty
  obtain ⟨s', hs', hheap⟩ := foldlM_finishMicro (s := u) (List.finRange nQueue)
    (List.nodup_finRange nQueue) (fun i _ => (hlast i).1)
    -- the last page of a micro queue is allocated
    (fun i _ p hp => by
      obtain ⟨x, hx⟩ := ((hlast i).2 p).mp hp
      rw [Ne, hq.invariant.2.owned, hx]
      simp)
    -- a page has one owner, so two micro queues have no page in common
    (fun i _ j _ hne p hp hp' => by
      obtain ⟨x, hx⟩ := ((hlast i).2 p).mp hp
      obtain ⟨y, hy⟩ := ((hlast j).2 p).mp hp'
      rw [hx] at hy
      simp [hne] at hy)
  refine ⟨s', by simp [destroy, hclear, finishClear, hs'], fun p => (hheap p).mpr ?_⟩
  by_cases hp : u.heap p = none
  · exact Or.inl hp
  · -- no thread has a page, so this one is the last page of a micro queue
    rw [hq.invariant.2.owned] at hp
    obtain ⟨o, ho⟩ := Option.ne_none_iff_exists'.mp hp
    cases o with
    | thread v =>
      have howns := (hq.invariant.2.owned_thread p v).mp ho
      simp [hq.idle v, Pc.owns, Pc.opens] at howns
    | queue i x => exact Or.inr ⟨i, List.mem_finRange i, ((hlast i).2 p).mpr ⟨x, ho⟩⟩

/-- Whatever the threads have done with the queue: when all have returned, the destructor ends
behind as many rounds as `unsafe_size` says, none of its assertions fails, and it leaves no
page allocated. -/
theorem destroy_frees [Finite τ] (h : (system τ π α itemSize).Reachable s)
    (hidle : ∀ t, s.pc t = .idle) (t : τ) (fresh : π) {n rounds : ℕ} (hn : 15 ≤ n)
    (hrounds : s.internalSize < rounds) :
    ∃ s', s.destroy itemSize t fresh n rounds = some s' ∧ ∀ p, s'.heap p = none := by
  have : Nonempty π := ⟨fresh⟩
  obtain ⟨g, hg⟩ := reachable_invariant h
  have hq : Quiescent itemSize s g := ⟨hg, hidle⟩
  exact hq.destroy_eq t fresh hn (by rwa [hq.length_items])

/-! ## A queue that has been used -/

theorem reachable_alone (h : (system τ π α itemSize).Reachable s) (t : τ) (fresh : π) (n : ℕ) :
    (system τ π α itemSize).Reachable (s.alone itemSize t fresh n) := by
  induction n generalizing s with
  | zero => exact h
  | succ n ih =>
    unfold alone
    split
    · next s' hs => exact ih (h.step (l := .step t fresh) hs)
    · exact h

/-- A call during which the other threads do nothing is part of a run. -/
theorem reachable_callAlone (h : (system τ π α itemSize).Reachable s) (hidle : s.pc t = .idle)
    {n : ℕ} {op : Op α} {r : Result α} (hcall : s.callAlone itemSize t fresh n op = some (r, s')) :
    (system τ π α itemSize).Reachable s' := by
  -- the call begins, the thread runs alone, and the call ends
  have hentered : (system τ π α itemSize).Reachable (s.goto t (entry op)) :=
    h.step (l := .event (.call t op)) ⟨hidle, rfl⟩
  unfold callAlone at hcall
  dsimp only at hcall
  split at hcall
  · next r' hr =>
    obtain ⟨rfl, rfl⟩ : r' = r ∧ _ = s' := by simpa using hcall
    exact (reachable_alone hentered t fresh n).step (l := .event (.ret t r')) ⟨hr, rfl⟩
  · simp at hcall

/-- Calls one after the other, each by its thread and with a page for it to allocate. -/
def callsAlone (itemSize n : ℕ) :
    List (τ × π × Op α) → ConcurrentQueue τ π α → Option (ConcurrentQueue τ π α)
  | [], s => some s
  | (t, fresh, op) :: rest, s =>
    match s.pc t with
    | .idle => (s.callAlone itemSize t fresh n op).bind fun p => callsAlone itemSize n rest p.2
    | _ => none

theorem reachable_callsAlone {n : ℕ} {ops : List (τ × π × Op α)}
    (h : (system τ π α itemSize).Reachable s) (hs : s.callsAlone itemSize n ops = some s') :
    (system τ π α itemSize).Reachable s' := by
  induction ops generalizing s with
  | nil =>
    obtain rfl := Option.some_inj.mp hs
    exact h
  | cons a rest ih =>
    obtain ⟨t, fresh, op⟩ := a
    rw [callsAlone] at hs
    split at hs
    case h_2 => simp at hs
    next hidle =>
    obtain ⟨⟨r, s₁⟩, hcall, hrest⟩ := Option.bind_eq_some_iff.mp hs
    exact ih (reachable_callAlone h hidle hcall) hrest

/-- Two threads, `false` and `true`, push three items.  The first one is popped. -/
def pushedThrice : Option (ConcurrentQueue Bool ℕ ℕ) :=
  (start : ConcurrentQueue Bool ℕ ℕ).callsAlone 8 15
    [(false, 0, .push 7), (true, 1, .push 8), (false, 2, .push 9), (true, 3, .tryPop)]

/-- The destructor takes the two items that are left, and gives back their pages. -/
theorem destroy_frees_pushedThrice : ∃ s s', pushedThrice = some s ∧ s.internalSize = 2 ∧
    (s.heap 1).isSome ∧ s.destroy 8 false 4 15 3 = some s' ∧ ∀ p, s'.heap p = none := by
  have hview : (pushedThrice.map fun s =>
      (s.internalSize, (s.heap 1).isSome, s.pc false, s.pc true)) =
        some (2, true, .idle, .idle) := by decide
  obtain ⟨s, hs, hview⟩ := Option.map_eq_some_iff.mp hview
  obtain ⟨hsize, hpage, hfalse, htrue⟩ : s.internalSize = 2 ∧ (s.heap 1).isSome = true ∧
      s.pc false = .idle ∧ s.pc true = .idle := by simpa using hview
  have hidle : ∀ t, s.pc t = .idle := by
    intro t
    cases t with
    | false => exact hfalse
    | true => exact htrue
  obtain ⟨s', hs', hfree⟩ := destroy_frees (reachable_callsAlone (.start rfl) hs) hidle false 4
    le_rfl (show s.internalSize < 3 by omega)
  exact ⟨s, s', hs, hsize, hpage, hs', hfree⟩

end ConcurrentQueue

end StringSampleSort.Tbb
