import StringSampleSort.Tbb.PageInvariant

/-!
# The steps of the concurrent queue

Every step of every thread keeps the invariant of the pages, and none of them ends in
`fault`.

## Main results

- `ConcurrentQueue.Pages.step`: a step keeps the invariant and does not fault
- `ConcurrentQueue.reachable_pages`: the invariant holds in every reachable state
- `ConcurrentQueue.noFault`: no thread ever accesses a page that is not allocated
-/

namespace StringSampleSort.Tbb

open Library

namespace ConcurrentQueue

variable {τ π α : Type*} {s s' : ConcurrentQueue τ π α} {itemSize : ℕ} {g : Ghost τ π α}
  {t : τ}

/-- An item that is copied has a ticket that has been drawn. -/
theorem Turns.ticket_lt (h : Turns s) {i : Fin nQueue} {j : ℕ}
    (hj : j < s.pushed i + (s.pushPhase i).copyStep) : ticket i j < s.tailCounter := by
  have hplace : lanes.place (ticket i j) = j := ticket_div i j
  have hlane : lanes.lane (ticket i j) = i := index_ticket i j
  rcases lt_or_ge j (s.pushed i) with hlt | hge
  · exact h.push.lt_drawn _ (by rw [hlane, hplace]; exact hlt)
  · -- the push in turn has the next ticket
    have hne : s.pushPhase i ≠ .before := by
      intro hbefore
      rw [hbefore] at hj
      exact absurd hj (not_lt.mpr hge)
    have hstep : (s.pushPhase i).copyStep ≤ 1 := by
      cases s.pushPhase i <;> simp [PushPhase.copyStep]
    obtain ⟨t, ht⟩ := exists_of_roleAt_ne hne
    obtain ⟨k, hk, rfl⟩ := Option.map_eq_some_iff.mp ht
    have hserved : s.pushed (index k) = k / nQueue := h.push.place_eq t k hk
    have hjk : j = k / nQueue := by omega
    rw [hjk, ticket_index]
    exact ((h.push.holds_iff k).mp ⟨t, h.push.holds_of_inTurn t k hk⟩).1

variable [DecidableEq τ] [DecidableEq π]

/-! ## Steps that change the ghosts -/

omit [DecidableEq π] in
/-- A push draws its ticket: its item is logged. -/
theorem Pages.fetchTail (P : Pages itemSize s g) (T : Turns s) {item : α}
    (ht : s.pc t = .fetchTail item)
    (T' : Turns ({ s with tailCounter := s.tailCounter + 1 }.goto t
      (.pushAllocate item s.tailCounter))) :
    Pages itemSize ({ s with tailCounter := s.tailCounter + 1 }.goto t
      (.pushAllocate item s.tailCounter)) { g with log := g.log ++ [item] } := by
  set p : Pc π α := .pushAllocate item s.tailCounter with hp
  set u : ConcurrentQueue τ π α := { s with tailCounter := s.tailCounter + 1 } with hu
  have hpush : ∀ i, (u.goto t p).pushPhase i = s.pushPhase i := fun i =>
    T.pushPhase_other T' rfl (by rw [ht]; simp [Pc.pushLane, Pc.stage, Stage.pushTurn])
      (by simp [hp, Pc.pushLane, Pc.stage, Stage.pushTurn])
  have hpop : ∀ i, (u.goto t p).popPhase i = s.popPhase i := fun i =>
    T.popPhase_other T' rfl (by rw [ht]; simp [Pc.popLane, Pc.stage, Stage.popTurn])
      (by simp [hp, Pc.popLane, Pc.stage, Stage.popTurn])
  have hframe := fun i => P.frame (u.goto t p) (i := i) rfl (hpush i) (hpop i)
    fun x _ => rfl
  constructor
  · simp [hu, goto, P.log_length]
  · intro i
    refine (hframe i).1.congr_item fun j _ hj => ?_
    -- the items that are there have tickets below the new one
    have hlt : ticket i j < g.log.length := by
      rw [P.log_length]
      rw [hpush] at hj
      exact T.ticket_lt hj
    exact List.getElem?_append_left hlt
  · intro v
    rcases eq_or_ne v t with rfl | hne
    · simp [goto, hp, Pc.Fits, ← P.log_length]
    · simpa [goto, Function.update_of_ne hne] using (P.fits v).append item
  · intro v q hv
    rcases eq_or_ne v t with rfl | hne
    · simp [goto, hp, Pc.opens] at hv
    · exact P.fresh v q (by simpa [goto, Function.update_of_ne hne] using hv)
  · exact P.owned
  · intro q i x
    rw [P.owned_queue, (hframe i).2]
  · intro q v
    rw [P.owned_thread]
    rcases eq_or_ne v t with rfl | hne
    · simp [goto, hp, ht, Pc.owns, Pc.opens]
    · simp [goto, Function.update_of_ne hne, hu]
  · exact P.valid

/-- A push gets a page that nobody has. -/
theorem Pages.allocate (P : Pages itemSize s g) (T : Turns s) {item : α} {k : ℕ} {fresh : π}
    (ht : s.pc t = .pushAllocate item k) (hfresh : s.heap fresh = none)
    (hmod : k / nQueue % itemsPerPage itemSize = 0)
    (T' : Turns ((s.setPage fresh (some freshPage)).goto t (.pushTurn item k (some fresh)))) :
    Pages itemSize ((s.setPage fresh (some freshPage)).goto t (.pushTurn item k (some fresh)))
      { g with owner := Function.update g.owner fresh (some (.thread t)) } := by
  set p : Pc π α := .pushTurn item k (some fresh) with hp
  set u := s.setPage fresh (some freshPage) with hu
  have hfree : g.owner fresh = none := (P.owned fresh).mp hfresh
  have hpush : ∀ i, (u.goto t p).pushPhase i = s.pushPhase i := fun i =>
    T.pushPhase_other T' rfl (by rw [ht]; simp [Pc.pushLane, Pc.stage, Stage.pushTurn])
      (by simp [hp, Pc.pushLane, Pc.stage, Stage.pushTurn])
  have hpop : ∀ i, (u.goto t p).popPhase i = s.popPhase i := fun i =>
    T.popPhase_other T' rfl (by rw [ht]; simp [Pc.popLane, Pc.stage, Stage.popTurn])
      (by simp [hp, Pc.popLane, Pc.stage, Stage.popTurn])
  have hframe := fun i => P.frame (u.goto t p) (i := i) rfl (hpush i) (hpop i)
    fun x hx => by
      have hne : g.page i x ≠ fresh := fun heq => by
        have howner := P.owner_page hx
        simp [heq, hfree] at howner
      exact Function.update_of_ne hne ..
  constructor
  · exact P.log_length
  · exact fun i => (hframe i).1
  · intro v
    rcases eq_or_ne v t with rfl | hne
    · have hfits := P.fits v
      rw [ht] at hfits
      simpa [goto, hp, Pc.Fits, hmod] using hfits
    · simpa [goto, Function.update_of_ne hne, hu, setPage] using P.fits v
  · intro v q hv
    change Function.update s.heap fresh (some freshPage) q = some freshPage
    rcases eq_or_ne q fresh with rfl | hq
    · exact Function.update_self ..
    · rw [Function.update_of_ne hq]
      rcases eq_or_ne v t with rfl | hne
      · simp only [goto, hp, Function.update_self, Pc.opens, Option.some_inj] at hv
        exact absurd hv.symm hq
      · exact P.fresh v q (by simpa [goto, Function.update_of_ne hne, hu, setPage] using hv)
  · intro q
    change Function.update s.heap fresh (some freshPage) q = none ↔
      Function.update g.owner fresh (some (.thread t)) q = none
    rcases eq_or_ne q fresh with rfl | hq
    · simp
    · rw [Function.update_of_ne hq, Function.update_of_ne hq]
      exact P.owned q
  · intro q i x
    change Function.update g.owner fresh (some (.thread t)) q = some (.queue i x) ↔ _
    rw [(hframe i).2]
    rcases eq_or_ne q fresh with rfl | hq
    · -- no page in use is the new one
      rw [Function.update_self, ← P.owned_queue, hfree]
      simp
    · rw [Function.update_of_ne hq, P.owned_queue]
  · intro q v
    change Function.update g.owner fresh (some (.thread t)) q = some (.thread v) ↔ _
    rcases eq_or_ne q fresh with rfl | hq
    · rw [Function.update_self]
      rcases eq_or_ne v t with rfl | hne
      · simp [goto, hp, Pc.owns, Pc.opens]
      · have hnot : ¬ (s.pc v).owns = some q := by
          rw [← P.owned_thread, hfree]
          simp
        simpa [goto, Function.update_of_ne hne, hu, setPage, hne.symm] using hnot
    · rw [Function.update_of_ne hq, P.owned_thread]
      rcases eq_or_ne v t with rfl | hne
      · simp [goto, hp, ht, Pc.owns, Pc.opens, hq.symm]
      · simp [goto, Function.update_of_ne hne, hu, setPage]
  · exact P.valid

omit [DecidableEq π] in
/-- A push is in turn at one micro queue and pops at none. -/
private theorem lanes_of_pushes {p : Pc π α} {k : ℕ} (h : p.stage = .pushes k) :
    p.pushLane = some (index k) ∧ p.popLane = none := by
  simp [Pc.pushLane, Pc.popLane, h, Stage.pushTurn, Stage.popTurn]

omit [DecidableEq π] in
private theorem lanes_of_pops {p : Pc π α} {k : ℕ} (h : p.stage = .pops k) :
    p.pushLane = none ∧ p.popLane = some (index k) := by
  simp [Pc.pushLane, Pc.popLane, h, Stage.pushTurn, Stage.popTurn]

omit [DecidableEq π] in
private theorem lanes_of_outside {p : Pc π α} (h : p.stage = .outside) :
    p.pushLane = none ∧ p.popLane = none := by
  simp [Pc.pushLane, Pc.popLane, h, Stage.pushTurn, Stage.popTurn]

/-- A push links its page, which now belongs to the micro queue. -/
theorem Pages.link (P : Pages itemSize s g) (T : Turns s) {item : α} {k : ℕ} {p : π}
    {q : Option π} (ht : s.pc t = .pushLink item k p q)
    (T' : Turns (s'.goto t (.pushSetTail item k p))) (hlocal : Local s s' g (index k))
    (hok : QueueOk (itemsPerPage itemSize) (fun j => g.log[ticket (index k) j]?)
      (Function.update (g.page (index k)) (k / nQueue / itemsPerPage itemSize) p) s'.heap
      (s'.array (index k)) (s.popped (index k)) (k / nQueue) (.linked p)
      (s.popPhase (index k))) :
    Pages itemSize (s'.goto t (.pushSetTail item k p))
      { g with
        page := Function.update g.page (index k)
          (Function.update (g.page (index k)) (k / nQueue / itemsPerPage itemSize) p)
        owner := Function.update g.owner p
          (some (.queue (index k) (k / nQueue / itemsPerPage itemSize))) } := by
  set n := itemsPerPage itemSize with hn
  set i₀ := index k with hi₀
  set x₀ := k / nQueue / n with hx₀
  obtain ⟨hlane, hpopLane⟩ := lanes_of_pushes (p := s.pc t) (k := k) (by rw [ht]; rfl)
  obtain ⟨hlane', hpopLane'⟩ :=
    lanes_of_pushes (p := (.pushSetTail item k p : Pc π α)) (k := k) rfl
  obtain ⟨hlog, hmod⟩ : g.log[k]? = some item ∧ k / nQueue % n = 0 := by
    simpa [ht, Pc.Fits] using P.fits t
  have hplace : s.pushed i₀ = k / nQueue :=
    T.push.place_eq t k (by rw [ht]; rfl)
  have howner : g.owner p = some (.thread t) := (P.owned_thread p t).mpr (by rw [ht]; rfl)
  have hpopped : (s'.goto t (.pushSetTail item k p)).popped = s.popped := hlocal.popped
  have hpushed : (s'.goto t (.pushSetTail item k p)).pushed = s.pushed := hlocal.pushed
  have hphase : (s'.goto t (.pushSetTail item k p)).pushPhase i₀ = .linked p :=
    T'.pushPhase_self hlane'
  have hphase' : s.pushPhase i₀ = .linking p q := by
    rw [T.pushPhase_eq hlane, ht]
    rfl
  have hpopPhase : ∀ i, (s'.goto t (.pushSetTail item k p)).popPhase i = s.popPhase i :=
    fun i => T.popPhase_other T' hlocal.pc (by simp [hpopLane]) (by simp [hpopLane'])
  have hframe : ∀ i, i ≠ i₀ → _ := fun i hi =>
    P.frame (s'.goto t (.pushSetTail item k p)) (i := i) (hlocal.array i hi)
      (T.pushPhase_other T' hlocal.pc (by simpa [hlane] using hi.symm)
        (by simpa [hlane'] using hi.symm)) (hpopPhase i) fun x hx => hlocal.heap _ fun y => by
          rw [P.owner_page hx]
          simp [hi]
  -- one more page is in use
  have huse : ∀ x, (s'.goto t (.pushSetTail item k p)).InUse n i₀ x ↔
      s.InUse n i₀ x ∨ x = x₀ := by
    intro x
    have hle : s.popped i₀ / n ≤ x₀ := by
      rw [hx₀, ← hplace]
      exact Nat.div_le_div_right (T.popped_le i₀)
    unfold InUse
    rw [hpopped, hpushed, hphase, hphase', hplace]
    change _ ∧ x < reach n (k / nQueue) 1 ↔ (_ ∧ x < reach n (k / nQueue) 0) ∨ _
    rw [reach_one, reach_of_mod_eq hmod, ← hx₀]
    omega
  have hnot : ¬ s.InUse n i₀ x₀ := by
    unfold InUse
    rw [hphase', hplace]
    change ¬ (_ ∧ x₀ < reach n (k / nQueue) 0)
    rw [reach_of_mod_eq hmod, ← hx₀]
    simp
  constructor
  · exact P.log_length.trans hlocal.tail.symm
  · intro i
    rcases eq_or_ne i i₀ with rfl | hi
    · dsimp only
      rw [Function.update_self, hpopped, hpushed, hplace, hphase, hpopPhase]
      exact hok
    · dsimp only
      rw [Function.update_of_ne hi]
      exact (hframe i hi).1
  · intro v
    rcases eq_or_ne v t with rfl | hne
    · simpa [goto, Pc.Fits] using hlog
    · simpa [goto, Function.update_of_ne hne, hlocal.pc] using P.fits v
  · intro v r hv
    rcases eq_or_ne v t with rfl | hne
    · simp [goto, Pc.opens] at hv
    · have hv' : (s.pc v).opens = some r := by
        simpa [goto, Function.update_of_ne hne, hlocal.pc] using hv
      have hr := (P.owned_thread r v).mpr (Pc.owns_of_opens hv')
      exact (hlocal.heap r fun x => by simp [hr]).trans (P.fresh v r hv')
  · intro r
    change s'.heap r = none ↔ Function.update g.owner p _ r = none
    rw [hlocal.alloc, P.owned]
    rcases eq_or_ne r p with rfl | hr
    · simp [howner]
    · rw [Function.update_of_ne hr]
  · intro r i x
    have howned : ∀ r i x, g.owner r = some (.queue i x) ↔ s.InUse n i x ∧ g.page i x = r :=
      P.owned_queue
    change Function.update g.owner p _ r = some (.queue i x) ↔
      _ ∧ Function.update g.page i₀ _ i x = r
    rcases eq_or_ne i i₀ with rfl | hi
    · rw [huse, Function.update_self]
      rcases eq_or_ne r p with rfl | hr
      · rw [Function.update_self]
        rcases eq_or_ne x x₀ with rfl | hx
        · simp
        · -- the page was in no list before
          have hne : ¬ (s.InUse n i₀ x ∧ g.page i₀ x = r) := by
            rw [← howned, howner]
            simp
          simpa [hx, hx.symm, Function.update_of_ne hx] using hne
      · rw [Function.update_of_ne hr, howned]
        rcases eq_or_ne x x₀ with rfl | hx
        · simp [hnot, hr.symm]
        · simp [hx]
    · rw [(hframe i hi).2, Function.update_of_ne hi]
      rcases eq_or_ne r p with rfl | hr
      · rw [Function.update_self, ← howned, howner]
        simp [hi.symm]
      · rw [Function.update_of_ne hr, howned]
  · intro r v
    change Function.update g.owner p _ r = some (.thread v) ↔ _
    have hgone : r = p → ¬ (s.pc v).owns = some r ∨ v = t := by
      rintro rfl
      rcases eq_or_ne v t with rfl | hne
      · exact Or.inr rfl
      · left
        rw [← P.owned_thread, howner]
        simpa using hne.symm
    rcases eq_or_ne v t with rfl | hne
    · rcases eq_or_ne r p with rfl | hr
      · simp [goto, Pc.owns, Pc.opens]
      · rw [Function.update_of_ne hr, P.owned_thread, ht]
        simp [goto, Pc.owns, Pc.opens, hr.symm]
    · rcases eq_or_ne r p with rfl | hr
      · simpa [goto, Function.update_of_ne hne, hlocal.pc, hne] using hgone rfl
      · rw [Function.update_of_ne hr, P.owned_thread]
        simp [goto, Function.update_of_ne hne, hlocal.pc]
  · exact hlocal.valid.trans P.valid

omit [DecidableEq π] in
/-- A push hands its turn on. -/
theorem Pages.publishPush (P : Pages itemSize s g) (T : Turns s) {k : ℕ}
    (ht : s.pc t = .pushPublish k)
    (T' : Turns ((s.setMicro k { s.choose k with
      tailCounter := (s.choose k).tailCounter + nQueue }).goto t (.returned .pushed))) :
    Pages itemSize ((s.setMicro k { s.choose k with
      tailCounter := (s.choose k).tailCounter + nQueue }).goto t (.returned .pushed)) g := by
  set p : Pc π α := .returned .pushed with hp
  set u := s.setMicro k { s.choose k with
    tailCounter := (s.choose k).tailCounter + nQueue } with hu
  have hpc : u.pc = s.pc := rfl
  have hstage : (s.pc t).stage = .pushes k := by rw [ht]; rfl
  obtain ⟨hlane, hpopLane⟩ := lanes_of_pushes hstage
  obtain ⟨hlane', hpopLane'⟩ := lanes_of_outside (p := p) rfl
  have hplace : s.pushed (index k) = k / nQueue :=
    T.push.place_eq t k (by rw [ht]; rfl)
  have hother : ∀ i, i ≠ index k → u.array i = s.array i := fun i hi =>
    Function.update_of_ne hi ..
  have hpopped : u.popped = s.popped := popped_setMicro_of_eq rfl
  have hpushed : u.pushed (index k) = k / nQueue + 1 := by
    rw [hu, pushed_setMicro, Function.update_self, ← hplace]
    exact Nat.add_div_right _ (by decide)
  have hpopPhase : ∀ i, (u.goto t p).popPhase i = s.popPhase i := fun i =>
    T.popPhase_other T' hpc (by simp [hpopLane]) (by simp [hpopLane'])
  have hleft : (u.goto t p).pushPhase (index k) = .before :=
    T.pushPhase_left hpc hlane hlane'
  have hframe : ∀ i, i ≠ index k → _ := fun i hi =>
    P.frame (u.goto t p) (i := i) (hother i hi)
      (T.pushPhase_other T' hpc (by simpa [hlane] using hi.symm) (by simp [hlane']))
      (hpopPhase i) fun x _ => rfl
  have hok := P.push_queue T hstage
  rw [ht] at hok
  refine P.keep hpc rfl rfl ?_ ?_ (fun _ => Iff.rfl) (fun _ _ _ => rfl) (by rw [ht]; rfl)
    (by simp [hp, Pc.opens]) trivial
  · intro i
    rcases eq_or_ne i (index k) with rfl | hi
    · rw [hpopped, hpushed, hleft, hpopPhase]
      refine hok.publishPush.congr_micro ?_ ?_ <;> simp [hu, setMicro, choose]
    · exact (hframe i hi).1
  · intro i x
    rcases eq_or_ne i (index k) with rfl | hi
    · change _ ≤ x ∧ x < reach _ (u.pushed _) _ ↔ _ ≤ x ∧ x < reach _ _ _
      rw [show (u.goto t p).popped = u.popped from rfl, hpopped, hpushed, hleft, hplace,
        T.pushPhase_eq hlane, ht]
      change _ ∧ x < reach _ _ 0 ↔ _ ∧ x < reach _ _ 1
      rw [reach_succ, reach_one]
    · exact (hframe i hi).2 x

omit [DecidableEq τ] [DecidableEq π] in
private theorem afterPublish_facts (n : ℕ) (log : List α) (p : Option π) {dst : Option α}
    (hdst : dst ≠ none) : (afterPublish p dst).Fits n log ∧ (afterPublish p dst).opens = none ∧
      (afterPublish p dst).owns = p := by
  obtain ⟨x, rfl⟩ := Option.ne_none_iff_exists'.mp hdst
  cases p with
  | none => exact ⟨trivial, rfl, rfl⟩
  | some p => exact ⟨hdst, rfl, rfl⟩

/-- A pop hands its turn on; a page that it has taken out is its own now. -/
theorem Pages.publishPop (P : Pages itemSize s g) (T : Turns s) {k : ℕ} {p : Option π}
    {dst : Option α} (ht : s.pc t = .popPublish k p dst)
    (T' : Turns ((s.setMicro k { s.choose k with headCounter := base k + nQueue }).goto t
      (afterPublish p dst))) :
    Pages itemSize ((s.setMicro k { s.choose k with headCounter := base k + nQueue }).goto t
      (afterPublish p dst))
      { g with owner := fun q => if p = some q then some (.thread t) else g.owner q } := by
  set u := s.setMicro k { s.choose k with headCounter := base k + nQueue } with hu
  have hpc : u.pc = s.pc := rfl
  have hstage : (s.pc t).stage = .pops k := by rw [ht]; rfl
  obtain ⟨hlane, hpopLane⟩ := lanes_of_pops hstage
  obtain ⟨hlane', hpopLane'⟩ := lanes_of_outside (p := afterPublish p dst) (by simp)
  have hplace : s.popped (index k) = k / nQueue :=
    T.pop.place_eq t k (by rw [ht]; rfl)
  have hdst : dst = g.log[k]? ∧ dst ≠ none := by simpa [ht, Pc.Fits] using P.fits t
  have hother : ∀ i, i ≠ index k → u.array i = s.array i := fun i hi =>
    Function.update_of_ne hi ..
  have hpushed : u.pushed = s.pushed := pushed_setMicro_of_eq rfl
  have hpopped : u.popped (index k) = k / nQueue + 1 := by
    rw [hu, popped_setMicro, Function.update_self, base_add_div]
  have hpushPhase : ∀ i, (u.goto t (afterPublish p dst)).pushPhase i = s.pushPhase i :=
    fun i => T.pushPhase_other T' hpc (by simp [hlane]) (by simp [hlane'])
  have hleft : (u.goto t (afterPublish p dst)).popPhase (index k) = .before :=
    T.popPhase_left hpc hpopLane hpopLane'
  have hframe : ∀ i, i ≠ index k → _ := fun i hi =>
    P.frame (u.goto t (afterPublish p dst)) (i := i) (hother i hi) (hpushPhase i)
      (T.popPhase_other T' hpc (by simpa [hpopLane] using hi.symm) (by simp [hpopLane']))
      fun x _ => rfl
  have hok := P.pop_queue T (k := k) (by rw [hstage]; rfl)
  rw [ht] at hok
  obtain ⟨hfits, hopens, howns⟩ :=
    afterPublish_facts (itemsPerPage itemSize) g.log p hdst.2
  set x₀ := k / nQueue / itemsPerPage itemSize with hx₀
  -- the page that has been taken out, and only this one, is not in use any more
  have hpage : ∀ q, p = some q → g.page (index k) x₀ = q ∧
      s.InUse (itemsPerPage itemSize) (index k) x₀ := by
    rintro q rfl
    refine ⟨hok.pop_ok.1.symm, ?_, ?_⟩
    · rw [hplace]
    · exact div_lt_reach (itemsPerPage_pos itemSize) (hok.lt (by simp [Pc.popPhase]))
  have huse : ∀ x, (u.goto t (afterPublish p dst)).InUse (itemsPerPage itemSize) (index k) x ↔
      s.InUse (itemsPerPage itemSize) (index k) x ∧ (p = none ∨ x ≠ x₀) := by
    intro x
    unfold InUse
    rw [show (u.goto t (afterPublish p dst)).popped = u.popped from rfl,
      show (u.goto t (afterPublish p dst)).pushed = u.pushed from rfl, hpopped, hpushed,
      hpushPhase, hplace, ← hx₀]
    cases p with
    | none =>
      rw [succ_div_of_mod_ne (itemsPerPage_pos itemSize) hok.pop_ok, ← hx₀]
      simp
    | some q =>
      rw [succ_div_of_mod_eq (itemsPerPage_pos itemSize) hok.pop_ok.2, ← hx₀]
      simp only [reduceCtorEq, false_or]
      omega
  constructor
  · exact P.log_length
  · intro i
    rcases eq_or_ne i (index k) with rfl | hi
    · dsimp only
      rw [show (u.goto t (afterPublish p dst)).popped = u.popped from rfl,
        show (u.goto t (afterPublish p dst)).pushed = u.pushed from rfl, hpopped, hpushed,
        hpushPhase, hleft]
      have hdone := hok.publishPop (p := p.getD (g.page (index k) x₀))
        (itemsPerPage_pos itemSize) (by cases p <;> simp [Pc.popPhase])
      refine hdone.congr_micro ?_ ?_ <;> simp [goto, hu, setMicro, choose]
    · exact (hframe i hi).1
  · intro v
    rcases eq_or_ne v t with rfl | hne
    · simpa [goto] using hfits
    · simpa [goto, Function.update_of_ne hne, hpc] using P.fits v
  · intro v q hv
    rcases eq_or_ne v t with rfl | hne
    · simp [goto, hopens] at hv
    · exact P.fresh v q (by simpa [goto, Function.update_of_ne hne, hpc] using hv)
  · intro q
    change s.heap q = none ↔ (if p = some q then _ else _) = none
    rw [P.owned]
    split
    · next hp =>
      obtain ⟨rfl, hin⟩ := hpage q hp
      simp [P.owner_page hin]
    · rfl
  · intro q i x
    change (if p = some q then some (.thread t) else g.owner q) = some (.queue i x) ↔ _
    split
    · next hp =>
      obtain ⟨rfl, hin⟩ := hpage q hp
      have hout : ¬ ((u.goto t (afterPublish p dst)).InUse (itemsPerPage itemSize) i x ∧
          g.page i x = g.page (index k) x₀) := by
        rintro ⟨hin', heq⟩
        rcases eq_or_ne i (index k) with rfl | hi
        · obtain ⟨hin'', hx⟩ := (huse x).mp hin'
          have howner := P.owner_page hin''
          rw [heq, P.owner_page hin] at howner
          simp only [Option.some_inj, Owner.queue.injEq, true_and] at howner
          simp [hp, howner] at hx
        · have howner := P.owner_page (((hframe i hi).2 x).mp hin')
          rw [heq, P.owner_page hin] at howner
          simp only [Option.some_inj, Owner.queue.injEq] at howner
          exact hi howner.1.symm
      simpa using hout
    · next hp =>
      rw [P.owned_queue]
      rcases eq_or_ne i (index k) with rfl | hi
      · rw [huse]
        constructor
        · rintro ⟨hin, rfl⟩
          refine ⟨⟨hin, ?_⟩, rfl⟩
          rcases p with _ | r
          · exact Or.inl rfl
          · right
            rintro rfl
            exact hp (by rw [(hpage r rfl).1])
        · rintro ⟨⟨hin, -⟩, rfl⟩
          exact ⟨hin, rfl⟩
      · rw [(hframe i hi).2]
  · intro q v
    change (if p = some q then some (.thread t) else g.owner q) = some (.thread v) ↔ _
    split
    · next hp =>
      obtain ⟨rfl, hin⟩ := hpage q hp
      rcases eq_or_ne v t with rfl | hne
      · have hself : ((u.goto v (afterPublish p dst)).pc v).owns = p := by
          simpa [goto] using howns
        rw [hself]
        simp [hp]
      · have hnot : ¬ (s.pc v).owns = some (g.page (index k) x₀) := by
          rw [← P.owned_thread, P.owner_page hin]
          simp
        simpa [goto, Function.update_of_ne hne, hpc, hne.symm] using hnot
    · next hp =>
      rw [P.owned_thread]
      rcases eq_or_ne v t with rfl | hne
      · have hself : ((u.goto v (afterPublish p dst)).pc v).owns = p := by
          simpa [goto] using howns
        rw [hself, ht]
        simpa [Pc.owns, Pc.opens] using hp
      · simp [goto, Function.update_of_ne hne, hpc]
  · exact P.valid

/-- A pop frees its page. -/
theorem Pages.free (P : Pages itemSize s g) (T : Turns s) {p : π} {dst : Option α}
    (ht : s.pc t = .popFree p dst) (T' : Turns ((s.setPage p none).goto t (afterPop dst))) :
    Pages itemSize ((s.setPage p none).goto t (afterPop dst))
      { g with owner := Function.update g.owner p none } := by
  set u := s.setPage p none with hu
  have hpc : u.pc = s.pc := rfl
  have howner : g.owner p = some (.thread t) := (P.owned_thread p t).mpr (by rw [ht]; rfl)
  obtain ⟨hlane, hpopLane⟩ := lanes_of_outside (p := s.pc t) (by rw [ht]; rfl)
  obtain ⟨hlane', hpopLane'⟩ :=
    lanes_of_outside (p := (afterPop dst : Pc π α)) (by simp)
  have hdst : dst ≠ none := by simpa [ht, Pc.Fits] using P.fits t
  obtain ⟨hfits, hopens, howns⟩ : (afterPop dst : Pc π α).Fits _ g.log ∧
      (afterPop dst : Pc π α).opens = none ∧ (afterPop dst : Pc π α).owns = none :=
    afterPublish_facts (itemsPerPage itemSize) g.log none hdst
  have hframe := fun i => P.frame (u.goto t (afterPop dst)) (i := i) rfl
    (T.pushPhase_other T' hpc (by simp [hlane]) (by simp [hlane']))
    (T.popPhase_other T' hpc (by simp [hpopLane]) (by simp [hpopLane'])) fun x hx => by
      have hne : g.page i x ≠ p := fun heq => by
        have hpage := P.owner_page hx
        simp [heq, howner] at hpage
      exact Function.update_of_ne hne ..
  constructor
  · exact P.log_length
  · exact fun i => (hframe i).1
  · intro v
    rcases eq_or_ne v t with rfl | hne
    · simpa [goto] using hfits
    · simpa [goto, Function.update_of_ne hne, hpc] using P.fits v
  · intro v q hv
    rcases eq_or_ne v t with rfl | hne
    · simp only [goto, Function.update_self] at hv
      simp [hopens] at hv
    · have hv' : (s.pc v).opens = some q := by
        simpa [goto, Function.update_of_ne hne, hpc] using hv
      have hq : q ≠ p := by
        rintro rfl
        have hq' := (P.owned_thread q v).mpr (Pc.owns_of_opens hv')
        rw [howner] at hq'
        simp only [Option.some_inj, Owner.thread.injEq] at hq'
        exact hne hq'.symm
      change Function.update s.heap p none q = some freshPage
      rw [Function.update_of_ne hq]
      exact P.fresh v q hv'
  · intro q
    change Function.update s.heap p none q = none ↔ Function.update g.owner p none q = none
    rcases eq_or_ne q p with rfl | hq
    · simp
    · rw [Function.update_of_ne hq, Function.update_of_ne hq]
      exact P.owned q
  · intro q i x
    change Function.update g.owner p none q = some (.queue i x) ↔ _
    rw [(hframe i).2]
    rcases eq_or_ne q p with rfl | hq
    · rw [Function.update_self, ← P.owned_queue, howner]
      simp
    · rw [Function.update_of_ne hq, P.owned_queue]
  · intro q v
    change Function.update g.owner p none q = some (.thread v) ↔ _
    rcases eq_or_ne v t with rfl | hne
    · have hnone : ((u.goto v (afterPop dst)).pc v).owns = none := by
        simpa [goto] using howns
      rw [hnone]
      rcases eq_or_ne q p with rfl | hq
      · simp
      · rw [Function.update_of_ne hq, P.owned_thread, ht]
        simpa [Pc.owns] using hq.symm
    · rcases eq_or_ne q p with rfl | hq
      · have hnot : ¬ (s.pc v).owns = some q := by
          rw [← P.owned_thread, howner]
          simpa using hne.symm
        simpa [goto, Function.update_of_ne hne, hpc] using hnot
      · rw [Function.update_of_ne hq, P.owned_thread]
        simp [goto, Function.update_of_ne hne, hpc]
  · exact P.valid

/-! ## All steps -/

omit [DecidableEq τ] [DecidableEq π] in
theorem Local.refl (s : ConcurrentQueue τ π α) (g : Ghost τ π α) (i : Fin nQueue) :
    Local s s g i :=
  ⟨rfl, rfl, rfl, fun _ _ => rfl, rfl, rfl, fun _ => Iff.rfl, fun _ _ => rfl⟩

omit [DecidableEq τ] [DecidableEq π] in
/-- Fields of one micro queue other than its counters change. -/
theorem local_setMicro {k : ℕ} {m : MicroQueue τ π}
    (hhead : m.headCounter = (s.choose k).headCounter)
    (htail : m.tailCounter = (s.choose k).tailCounter) :
    Local s (s.setMicro k m) g (index k) where
  pc := rfl
  tail := rfl
  valid := rfl
  array _ hi := Function.update_of_ne hi ..
  popped := popped_setMicro_of_eq hhead
  pushed := pushed_setMicro_of_eq htail
  alloc _ := Iff.rfl
  heap _ _ := rfl

omit [DecidableEq τ] in
/-- A page of one micro queue changes. -/
theorem local_setPage {k x : ℕ} {p : π} {page page' : Page π α}
    (howner : g.owner p = some (.queue (index k) x)) (hp : s.heap p = some page) :
    Local s (s.setPage p (some page')) g (index k) where
  pc := rfl
  tail := rfl
  valid := rfl
  array _ _ := rfl
  popped := rfl
  pushed := rfl
  alloc q := by
    rcases eq_or_ne q p with rfl | hq
    · simp [setPage, hp]
    · simp [setPage, Function.update_of_ne hq]
  heap q hq := by
    have hne : q ≠ p := by
      rintro rfl
      exact hq x howner
    exact Function.update_of_ne hne ..

omit [DecidableEq τ] [DecidableEq π] in
theorem array_setMicro (s : ConcurrentQueue τ π α) (k : ℕ) (m : MicroQueue τ π) :
    (s.setMicro k m).array (index k) = m := Function.update_self ..

omit [DecidableEq π] in
theorem access_of_some {p : π} {page : Page π α} {f : Page π α → ConcurrentQueue τ π α}
    (h : s.heap p = some page) : s.access t p f = f page := by
  unfold ConcurrentQueue.access
  rw [h]

omit [DecidableEq π] in
theorem goto_ne_fault {p : Pc π α} (h : p ≠ .fault) : (s.goto t p).pc t ≠ .fault := by
  simpa [goto] using h

omit [DecidableEq τ] [DecidableEq π] in
/-- While one thread at a micro queue has the mutex, no pop changes the list. -/
theorem Turns.popPhase_not_changing (T : Turns s) {i : Fin nQueue}
    (ht : (s.pc t).pushLane = some i) (hlocked : (s.pc t).locked = some i) :
    (s.popPhase i).changing = false := by
  by_contra hne
  obtain ⟨u, hu, hmutex⟩ := T.popPhase_changing (Bool.not_eq_false _ ▸ hne)
  rw [(T.mutex i t).mpr hlocked, Option.some_inj] at hmutex
  subst hmutex
  -- one thread cannot be in turn at both ends
  cases hp : s.pc t <;> simp_all [Pc.popLane, Pc.pushLane, Pc.stage, Stage.popTurn,
    Stage.pushTurn]

omit [DecidableEq τ] [DecidableEq π] in
theorem Turns.pushPhase_not_changing (T : Turns s) {i : Fin nQueue}
    (ht : (s.pc t).popLane = some i) (hlocked : (s.pc t).locked = some i) :
    (s.pushPhase i).changing = false := by
  by_contra hne
  obtain ⟨u, hu, hmutex⟩ := T.pushPhase_changing (Bool.not_eq_false _ ▸ hne)
  rw [(T.mutex i t).mpr hlocked, Option.some_inj] at hmutex
  subst hmutex
  cases hp : s.pc t <;> simp_all [Pc.popLane, Pc.pushLane, Pc.stage, Stage.popTurn,
    Stage.pushTurn]

omit [DecidableEq π] in
/-- A thread moves on without touching anything. -/
theorem Pages.move (P : Pages itemSize s g) (T : Turns s) {p : Pc π α}
    (T' : Turns (s.goto t p)) (hpush : (s.pc t).pushLane = none ∧ p.pushPhase = .before)
    (hpop : p.popLane = (s.pc t).popLane ∧ p.popPhase = (s.pc t).popPhase ∨
      (s.pc t).popLane = none ∧ p.popPhase = .before)
    (hpages : p.owns = (s.pc t).owns ∧ p.opens = (s.pc t).opens)
    (hfits : p.Fits (itemsPerPage itemSize) g.log) : Pages itemSize (s.goto t p) g :=
  P.idleStep T T' rfl rfl rfl rfl rfl hpush hpop hpages.1 hpages.2 hfits

omit [DecidableEq τ] [DecidableEq π] in
/-- The page into which a push writes belongs to its micro queue. -/
theorem Pages.tailed_owner (P : Pages itemSize s g) (T : Turns s) {k : ℕ} {p : π}
    (ht : (s.pc t).stage = .pushes k)
    (hphase : (s.pc t).pushPhase = .tailed p ∨ (s.pc t).pushPhase = .copied p) :
    g.owner p = some (.queue (index k) (k / nQueue / itemsPerPage itemSize)) := by
  have ok := P.push_queue T ht
  obtain ⟨hlane, -⟩ := lanes_of_pushes ht
  have hplace : s.pushed (index k) = k / nQueue :=
    T.push.place_eq t k (by rw [ht]; rfl)
  have hp : p = g.page (index k) (k / nQueue / itemsPerPage itemSize) := by
    have hpush := ok.push_ok
    rcases hphase with hphase | hphase <;> rw [hphase] at hpush <;> exact hpush
  have hstep : (s.pc t).pushPhase.linkStep = 1 := by
    rcases hphase with hphase | hphase <;> rw [hphase] <;> rfl
  rw [hp]
  refine P.owner_page ⟨Nat.div_le_div_right ok.le, ?_⟩
  rw [T.pushPhase_eq hlane, hplace, hstep, reach_one]
  exact Nat.lt_succ_self _

omit [DecidableEq τ] [DecidableEq π] in
/-- The page from which a pop reads belongs to its micro queue. -/
theorem Pages.reading_owner (P : Pages itemSize s g) (T : Turns s) {k : ℕ} {p : π}
    (ht : (s.pc t).stage = .pops k) (hphase : (s.pc t).popPhase = .reading p) :
    g.owner p = some (.queue (index k) (k / nQueue / itemsPerPage itemSize)) := by
  have ok := P.pop_queue T (t := t) (k := k) (by rw [ht]; rfl)
  have hplace : s.popped (index k) = k / nQueue :=
    T.pop.place_eq t k (by rw [ht]; rfl)
  rw [hphase] at ok
  obtain rfl : p = _ := ok.pop_ok
  refine P.owner_page ⟨by rw [hplace], ?_⟩
  exact div_lt_reach (itemsPerPage_pos itemSize) (ok.lt (by simp))

omit [DecidableEq τ] [DecidableEq π] in
/-- The addresses of the pages of a push are distinct. -/
theorem Pages.push_distinct (P : Pages itemSize s g) (T : Turns s) {k : ℕ}
    (ht : (s.pc t).stage = .pushes k) :
    QueueOk.Distinct (g.page (index k)) (s.popped (index k) / itemsPerPage itemSize)
      (reach (itemsPerPage itemSize) (k / nQueue) (s.pc t).pushPhase.linkStep) := by
  obtain ⟨hlane, -⟩ := lanes_of_pushes ht
  have hplace : s.pushed (index k) = k / nQueue :=
    T.push.place_eq t k (by rw [ht]; rfl)
  rw [← T.pushPhase_eq hlane, ← hplace]
  exact P.distinct (index k)

omit [DecidableEq τ] [DecidableEq π] in
private theorem popPhase_finalize (itemSize k : ℕ) (p : π) (dst : Option α) :
    (finalize itemSize k p dst).popPhase =
      if k / nQueue % itemsPerPage itemSize = itemsPerPage itemSize - 1 then .taken p
      else .passed := by
  unfold finalize
  rw [pageIndex_eq]
  split <;> rfl

omit [DecidableEq τ] [DecidableEq π] in
private theorem finalize_facts (itemSize k : ℕ) (p : π) {dst : Option α} {n : ℕ}
    {log : List α} (hdst : dst = log[k]? ∧ dst ≠ none) :
    (finalize itemSize k p dst).Fits n log ∧ (finalize itemSize k p dst).opens = none ∧
      (finalize itemSize k p dst).owns = none ∧ finalize itemSize k p dst ≠ .fault := by
  unfold finalize
  split
  · exact ⟨hdst, rfl, rfl, by simp⟩
  · exact ⟨hdst, rfl, rfl, by simp⟩

omit [DecidableEq τ] [DecidableEq π] in
private theorem afterPublish_ne_fault (p : Option π) (dst : Option α) :
    afterPublish p dst ≠ .fault := by
  cases p <;> cases dst <;> simp [afterPublish, afterPop]

/-- The test of `pop` looks at one bit of the mask. -/
theorem mask_and_ne_zero (mask i : ℕ) : mask &&& 1 <<< i ≠ 0 ↔ mask.testBit i = true := by
  rw [Nat.one_shiftLeft, Nat.and_two_pow]
  cases mask.testBit i <;> simp

/-- Every step of a push keeps the invariant of the pages and does not end in `fault`. -/
theorem Pages.step_push (P : Pages itemSize s g) (T : Turns s) {fresh : π} {k : ℕ}
    (hstage : (s.pc t).stage = .pushes k) (hs : s.threadStep itemSize t fresh = some s') :
    s'.pc t ≠ .fault ∧ ∃ g', Pages itemSize s' g' ∧ g'.log = g.log := by
  have T' : s'.pc t ≠ .fault → Turns s' := T.step hs
  have hn := itemsPerPage_pos itemSize
  have hfits := P.fits t
  have ok := P.push_queue T hstage
  have hlanes := lanes_of_pushes hstage
  unfold threadStep at hs
  cases hp : s.pc t with
  | pushLock item k' p =>
    obtain rfl : k' = k := by simpa [hp, Pc.stage] using hstage
    rw [hp] at ok hfits
    simp only [hp, Option.ite_none_right_eq_some, Option.some_inj] at hs
    obtain ⟨-, rfl⟩ := hs
    have T₁ := T' (goto_ne_fault (by simp))
    refine ⟨goto_ne_fault (by simp), g, P.pushStep T T₁ (local_setMicro rfl rfl) hstage rfl ?_ ?_ ?_ ?_ hfits,
      rfl⟩
    · rw [array_setMicro]
      exact ok.congr_micro rfl rfl
    · rw [hp]; rfl
    · rw [hp]; rfl
    · rw [hp]; rfl
  | pushReadTail item k' p =>
    obtain rfl : k' = k := by simpa [hp, Pc.stage] using hstage
    rw [hp] at ok hfits
    simp only [hp, Option.some_inj] at hs
    subst hs
    have T₁ := T' (goto_ne_fault (by simp))
    refine ⟨goto_ne_fault (by simp), g, P.pushStep T T₁ (.refl s g _) hstage rfl ?_ ?_ ?_ ?_ hfits, rfl⟩
    · exact ok.readTail p hfits.2
    · rw [hp]; rfl
    · rw [hp]; rfl
    · rw [hp]; rfl
  | pushLink item k' p q =>
    obtain rfl : k' = k := by simpa [hp, Pc.stage] using hstage
    have hdistinct := P.push_distinct T hstage
    have hchanging := T.popPhase_not_changing hlanes.1 (by rw [hp]; rfl)
    have hopens : s.heap p = some freshPage := P.fresh t p (by rw [hp]; rfl)
    have howner : g.owner p = some (.thread t) := (P.owned_thread p t).mpr (by rw [hp]; rfl)
    rw [hp] at ok hfits hdistinct
    obtain ⟨-, hmod⟩ := hfits
    have hplace : s.pushed (index k') = k' / nQueue :=
      T.push.place_eq t k' (by rw [hstage]; rfl)
    have huse : ∀ x, s.popped (index k') / itemsPerPage itemSize ≤ x →
        x < k' / nQueue / itemsPerPage itemSize → s.InUse (itemsPerPage itemSize) (index k') x :=
      fun x hx hx' => ⟨hx, by rw [hplace]; exact hx'.trans_le div_le_reach⟩
    cases q with
    | some q =>
      simp only [hp, Option.some_inj] at hs
      subst hs
      obtain ⟨hlt, hlast, page, hpage⟩ := ok.linking_alloc
      rw [access_of_some hpage] at T' ⊢
      have hown : s.popped (index k') / itemsPerPage itemSize <
          k' / nQueue / itemsPerPage itemSize := lt_of_le_of_lt (Nat.le_add_right _ _) hlt
      have T₁ := T' (goto_ne_fault (by simp))
      have hqueue : g.owner q = some (.queue (index k')
          (k' / nQueue / itemsPerPage itemSize - 1)) := by
        rw [← hlast]
        exact P.owner_page (huse _ (Nat.le_sub_one_of_lt hown)
          (Nat.sub_one_lt (Nat.ne_of_gt (Nat.zero_lt_of_lt hown))))
      refine ⟨goto_ne_fault (by simp), _, P.link T hp T₁ (local_setPage hqueue hpage) ?_, rfl⟩
      refine ok.linkNext hn hchanging hpage hopens (fun x hx hx' heq => ?_) ?_
      · have hpage' := P.owner_page (huse x hx hx')
        rw [heq, howner] at hpage'
        simp at hpage'
      · simpa [Pc.pushPhase, PushPhase.linkStep, reach_of_mod_eq hmod] using hdistinct
    | none =>
      simp only [hp, Option.some_inj] at hs
      subst hs
      have T₁ := T' (goto_ne_fault (by simp))
      refine ⟨goto_ne_fault (by simp), _, P.link T hp T₁ (local_setMicro rfl rfl) ?_, rfl⟩
      rw [array_setMicro]
      exact ok.linkHead hn hchanging hopens
  | pushSetTail item k' p =>
    obtain rfl : k' = k := by simpa [hp, Pc.stage] using hstage
    rw [hp] at ok hfits
    simp only [hp, Option.some_inj] at hs
    subst hs
    have T₁ := T' (goto_ne_fault (by simp))
    refine ⟨goto_ne_fault (by simp), g, P.pushStep T T₁ (local_setMicro rfl rfl) hstage rfl ?_ ?_ ?_ ?_ hfits,
      rfl⟩
    · rw [array_setMicro]
      exact ok.setTail hn
    · rw [hp]; rfl
    · rw [hp]; rfl
    · rw [hp]; rfl
  | pushUnlock item k' p =>
    obtain rfl : k' = k := by simpa [hp, Pc.stage] using hstage
    rw [hp] at ok hfits
    simp only [hp, Option.some_inj] at hs
    subst hs
    have T₁ := T' (goto_ne_fault (by simp))
    refine ⟨goto_ne_fault (by simp), g, P.pushStep T T₁ (local_setMicro rfl rfl) hstage rfl ?_ ?_ ?_ ?_ hfits,
      rfl⟩
    · rw [array_setMicro]
      exact ok.congr_micro rfl rfl
    · rw [hp]; rfl
    · rw [hp]; rfl
    · rw [hp]; rfl
  | pushLoadTail item k' =>
    obtain rfl : k' = k := by simpa [hp, Pc.stage] using hstage
    rw [hp] at ok hfits
    have htail : (s.choose k').tailPage = _ := ok.tailPage_eq hn hfits.2
    simp only [hp, htail, Option.some_inj] at hs
    subst hs
    set p := g.page (index k') (k' / nQueue / itemsPerPage itemSize) with hpdef
    have T₁ := T' (goto_ne_fault (by simp))
    refine ⟨goto_ne_fault (by simp), g, P.pushStep T T₁ (.refl s g _) hstage rfl ?_ ?_ ?_ ?_ hfits.1, rfl⟩
    · exact ok.loadTail hfits.2
    · rw [hp, reach_of_mod_ne hfits.2, reach_of_mod_ne hfits.2]
    · rw [hp]; rfl
    · rw [hp]; rfl
  | pushCopy item k' p =>
    obtain rfl : k' = k := by simpa [hp, Pc.stage] using hstage
    have howner := P.tailed_owner T hstage (p := p) (Or.inl (by rw [hp]; rfl))
    have hdistinct := P.push_distinct T hstage
    rw [hp] at ok hfits hdistinct
    simp only [hp, Option.some_inj] at hs
    subst hs
    obtain ⟨page, hpage⟩ := ok.tailed_alloc (Or.inl rfl)
    rw [access_of_some hpage, pageIndex_eq] at T' ⊢
    have T₁ := T' (goto_ne_fault (by simp))
    refine ⟨goto_ne_fault (by simp), g, P.pushStep T T₁ (local_setPage howner hpage) hstage rfl ?_ ?_ ?_ ?_
      trivial, rfl⟩
    · refine ok.copy hn hpage ?_ ?_
      · rw [ticket_index]
        exact hfits
      · rwa [← reach_one]
    · rw [hp]; rfl
    · rw [hp]; rfl
    · rw [hp]; rfl
  | pushMask k' p =>
    obtain rfl : k' = k := by simpa [hp, Pc.stage] using hstage
    have howner := P.tailed_owner T hstage (p := p) (Or.inr (by rw [hp]; rfl))
    have hdistinct := P.push_distinct T hstage
    rw [hp] at ok hdistinct
    simp only [hp, Option.some_inj] at hs
    subst hs
    obtain ⟨page, hpage⟩ := ok.tailed_alloc (Or.inr rfl)
    rw [access_of_some hpage, pageIndex_eq] at T' ⊢
    have T₁ := T' (goto_ne_fault (by simp))
    refine ⟨goto_ne_fault (by simp), g, P.pushStep T T₁ (local_setPage howner hpage) hstage rfl ?_ ?_ ?_ ?_
      trivial, rfl⟩
    · exact ok.mark hn hpage (by rwa [← reach_one])
    · rw [hp]; rfl
    · rw [hp]; rfl
    · rw [hp]; rfl
  | pushPublish k' =>
    obtain rfl : k' = k := by simpa [hp, Pc.stage] using hstage
    simp only [hp, Option.some_inj] at hs
    subst hs
    have T₁ := T' (goto_ne_fault (by simp))
    exact ⟨goto_ne_fault (by simp), g, P.publishPush T hp T₁, rfl⟩
  | _ => simp [hp, Pc.stage] at hstage

/-- Every step of a pop that has its turn keeps the invariant of the pages and does not end in
`fault`. -/
theorem Pages.step_pop (P : Pages itemSize s g) (T : Turns s) {fresh : π} {k : ℕ}
    (hturn : (s.pc t).stage.popTurn = some k) (hs : s.threadStep itemSize t fresh = some s') :
    s'.pc t ≠ .fault ∧ ∃ g', Pages itemSize s' g' ∧ g'.log = g.log := by
  have T' : s'.pc t ≠ .fault → Turns s' := T.step hs
  have hn := itemsPerPage_pos itemSize
  have hfits := P.fits t
  have ok := P.pop_queue T hturn
  have hplace : s.popped (index k) = k / nQueue := T.pop.place_eq t k hturn
  have hpush : (s.pc t).pushLane = none := by
    cases hp : s.pc t <;> simp_all [Pc.stage, Stage.popTurn, Pc.pushLane, Stage.pushTurn]
  have hlane : (s.pc t).popLane = some (index k) := by simp [Pc.popLane, hturn]
  unfold threadStep at hs
  cases hp : s.pc t with
  | popFilled k' =>
    obtain rfl : k' = k := by simpa [hp, Pc.stage, Stage.popTurn] using hturn
    rw [hp] at ok
    simp only [hp, Option.ite_none_left_eq_some, Option.some_inj] at hs
    obtain ⟨-, rfl⟩ := hs
    have T₁ := T' (goto_ne_fault (by simp))
    have hlt : k' / nQueue < s.pushed (index k') :=
      T₁.filled t k' (by simp [goto, Pc.stage])
    refine ⟨goto_ne_fault (by simp), g, P.popStep T T₁ (.refl s g _) hturn rfl hpush
      (ok.fill hlt) ?_ ?_ trivial, rfl⟩
    · rw [hp]; rfl
    · rw [hp]; rfl
  | popPage k' =>
    obtain rfl : k' = k := by simpa [hp, Pc.stage, Stage.popTurn] using hturn
    rw [hp] at ok
    have hhead : (s.choose k').headPage = _ := ok.headPage_eq hn
    simp only [hp, hhead, Option.some_inj] at hs
    subst hs
    have T₁ := T' (goto_ne_fault (by simp))
    refine ⟨goto_ne_fault (by simp), g, P.popStep T T₁ (.refl s g _) hturn rfl hpush
      ok.loadHead ?_ ?_ trivial, rfl⟩
    · rw [hp]; rfl
    · rw [hp]; rfl
  | popMask k' p =>
    obtain rfl : k' = k := by simpa [hp, Pc.stage, Stage.popTurn] using hturn
    rw [hp] at ok
    simp only [hp, Option.some_inj] at hs
    subst hs
    obtain ⟨page, hpage⟩ := ok.head_alloc hn (by simp [Pc.popPhase]) ok.pop_ok
    -- the item is marked, so the other branch is not taken
    have hmask : page.mask &&& 1 <<< pageIndex itemSize k' ≠ 0 := by
      rw [mask_and_ne_zero, pageIndex_eq]
      exact ok.marked hpage
    rw [access_of_some hpage, if_pos hmask] at T' ⊢
    have T₁ := T' (goto_ne_fault (by simp))
    refine ⟨goto_ne_fault (by simp), g, P.popStep T T₁ (.refl s g _) hturn rfl hpush
      ok ?_ ?_ trivial, rfl⟩
    · rw [hp]; rfl
    · rw [hp]; rfl
  | popItem k' p =>
    obtain rfl : k' = k := by simpa [hp, Pc.stage, Stage.popTurn] using hturn
    have howner := P.reading_owner T (t := t) (k := k') (p := p) (by rw [hp]; rfl)
      (by rw [hp]; rfl)
    have hdistinct := P.distinct (index k')
    rw [hp] at ok
    simp only [hp, Option.some_inj] at hs
    subst hs
    obtain ⟨page, hpage⟩ := ok.head_alloc hn (by simp [Pc.popPhase]) ok.pop_ok
    -- the item is the one with this ticket
    have hlt : k' < g.log.length := by
      have hhead := ((T.pop.holds_iff k').mp ⟨t, by rw [hp]; rfl⟩).1
      rw [P.log_length]
      exact hhead.trans_le T.head_le
    have hitem : page.items (pageIndex itemSize k') = some g.log[k'] := by
      rw [pageIndex_eq, ok.item_eq hpage, ticket_index, List.getElem?_eq_getElem hlt]
    have hdst : some g.log[k'] = g.log[k']? ∧ some g.log[k'] ≠ none :=
      ⟨(List.getElem?_eq_getElem hlt).symm, by simp⟩
    obtain ⟨hfits', hopens, howns, hne⟩ :=
      finalize_facts itemSize k' p (n := itemsPerPage itemSize) hdst
    rw [access_of_some hpage] at T' ⊢
    simp only [hitem] at T' ⊢
    have T₁ := T' (goto_ne_fault hne)
    refine ⟨goto_ne_fault hne, g, P.popStep T T₁ (local_setPage howner hpage) hturn (by simp)
      hpush ?_ ?_ ?_ hfits', rfl⟩
    · rw [popPhase_finalize, pageIndex_eq]
      exact ok.take hn hpage (hplace ▸ hdistinct)
    · rw [howns, hp]; rfl
    · rw [hopens, hp]; rfl
  | popLock k' p dst =>
    obtain rfl : k' = k := by simpa [hp, Pc.stage, Stage.popTurn] using hturn
    rw [hp] at ok hfits
    simp only [hp, Option.ite_none_right_eq_some, Option.some_inj] at hs
    obtain ⟨-, rfl⟩ := hs
    have T₁ := T' (goto_ne_fault (by simp))
    refine ⟨goto_ne_fault (by simp), g, P.popStep T T₁ (local_setMicro rfl rfl) hturn rfl hpush
      ?_ ?_ ?_ hfits, rfl⟩
    · rw [array_setMicro]
      exact ok.congr_micro rfl rfl
    · rw [hp]; rfl
    · rw [hp]; rfl
  | popReadNext k' p dst =>
    obtain rfl : k' = k := by simpa [hp, Pc.stage, Stage.popTurn] using hturn
    rw [hp] at ok hfits
    simp only [hp, Option.some_inj] at hs
    subst hs
    obtain ⟨page, hpage⟩ := ok.head_alloc hn (by simp [Pc.popPhase]) ok.pop_ok.1
    rw [access_of_some hpage] at T' ⊢
    have T₁ := T' (goto_ne_fault (by simp))
    refine ⟨goto_ne_fault (by simp), g, P.popStep T T₁ (.refl s g _) hturn rfl hpush
      (ok.readNext hn hpage) ?_ ?_ hfits, rfl⟩
    · rw [hp]; rfl
    · rw [hp]; rfl
  | popSetHead k' p q dst =>
    obtain rfl : k' = k := by simpa [hp, Pc.stage, Stage.popTurn] using hturn
    rw [hp] at ok hfits
    simp only [hp, Option.some_inj] at hs
    subst hs
    have T₁ := T' (goto_ne_fault (by simp))
    refine ⟨goto_ne_fault (by simp), g, P.popStep T T₁ (local_setMicro rfl rfl) hturn rfl hpush
      ?_ ?_ ?_ hfits, rfl⟩
    · rw [array_setMicro]
      exact ok.setHead
    · rw [hp]; rfl
    · rw [hp]; rfl
  | popSetTail k' p q dst =>
    obtain rfl : k' = k := by simpa [hp, Pc.stage, Stage.popTurn] using hturn
    have hchanging := T.pushPhase_not_changing hlane (by rw [hp]; rfl)
    rw [hp] at ok hfits
    cases q with
    | some q =>
      simp only [hp, Option.some_inj] at hs
      subst hs
      have T₁ := T' (goto_ne_fault (by simp))
      refine ⟨goto_ne_fault (by simp), g, P.popStep T T₁ (.refl s g _) hturn rfl hpush
        (ok.clearTail hchanging (fun _ => rfl) (by simp)) ?_ ?_ hfits, rfl⟩
      · rw [hp]; rfl
      · rw [hp]; rfl
    | none =>
      simp only [hp, Option.some_inj] at hs
      subst hs
      have T₁ := T' (goto_ne_fault (by simp))
      refine ⟨goto_ne_fault (by simp), g, P.popStep T T₁ (local_setMicro rfl rfl) hturn rfl
        hpush ?_ ?_ ?_ hfits, rfl⟩
      · rw [array_setMicro]
        exact ok.clearTail hchanging (by simp) fun _ => rfl
      · rw [hp]; rfl
      · rw [hp]; rfl
  | popUnlock k' p dst =>
    obtain rfl : k' = k := by simpa [hp, Pc.stage, Stage.popTurn] using hturn
    rw [hp] at ok hfits
    simp only [hp, Option.some_inj] at hs
    subst hs
    have T₁ := T' (goto_ne_fault (by simp))
    refine ⟨goto_ne_fault (by simp), g, P.popStep T T₁ (local_setMicro rfl rfl) hturn rfl hpush
      ?_ ?_ ?_ hfits, rfl⟩
    · rw [array_setMicro]
      exact ok.congr_micro rfl rfl
    · rw [hp]; rfl
    · rw [hp]; rfl
  | popPublish k' p dst =>
    obtain rfl : k' = k := by simpa [hp, Pc.stage, Stage.popTurn] using hturn
    simp only [hp, Option.some_inj] at hs
    subst hs
    have hne := afterPublish_ne_fault p dst
    exact ⟨goto_ne_fault hne, _, P.publishPop T hp (T' (goto_ne_fault hne)), rfl⟩
  | _ => simp [hp, Pc.stage, Stage.popTurn] at hturn

/-- Every step keeps the invariant of the pages and does not end in `fault`. -/
theorem Pages.step (P : Pages itemSize s g) (T : Turns s) {fresh : π}
    (hs : s.threadStep itemSize t fresh = some s') :
    s'.pc t ≠ .fault ∧ ∃ g', Pages itemSize s' g' ∧ g'.log = (s.pc t).logs g.log := by
  cases hstage : (s.pc t).stage with
  | pushes k =>
    obtain ⟨hok, g', hg', hlog⟩ := P.step_push T hstage hs
    refine ⟨hok, g', hg', hlog.trans ?_⟩
    cases hp : s.pc t <;> simp_all [Pc.stage, Pc.logs]
  | popAwaits k =>
    obtain ⟨hok, g', hg', hlog⟩ := P.step_pop T (k := k) (by rw [hstage]; rfl) hs
    refine ⟨hok, g', hg', hlog.trans ?_⟩
    cases hp : s.pc t <;> simp_all [Pc.stage, Pc.logs]
  | pops k =>
    obtain ⟨hok, g', hg', hlog⟩ := P.step_pop T (k := k) (by rw [hstage]; rfl) hs
    refine ⟨hok, g', hg', hlog.trans ?_⟩
    cases hp : s.pc t <;> simp_all [Pc.stage, Pc.logs]
  | _ =>
    have T' : s'.pc t ≠ .fault → Turns s' := T.step hs
    have hfits := P.fits t
    unfold threadStep at hs
    cases hp : s.pc t with
    | idle | returned | fault => simp [hp] at hs
    | fetchTail item =>
      simp only [hp, Option.some_inj] at hs
      subst hs
      have T₁ := T' (goto_ne_fault (by simp))
      exact ⟨goto_ne_fault (by simp), _, P.fetchTail T hp T₁, rfl⟩
    | pushAllocate item k =>
      rw [hp] at hfits
      simp only [hp] at hs
      rw [pageIndex_eq] at hs
      split at hs
      · next hmod =>
        split at hs
        · next hfresh =>
          simp only [Option.some_inj] at hs
          subst hs
          have T₁ := T' (goto_ne_fault (by simp))
          exact ⟨goto_ne_fault (by simp), _, P.allocate T hp hfresh hmod T₁, rfl⟩
        · simp at hs
      · next hmod =>
        simp only [Option.some_inj] at hs
        subst hs
        have T₁ := T' (goto_ne_fault (by simp))
        refine ⟨goto_ne_fault (by simp), g, P.move T T₁ ?_ ?_ ?_ ?_, rfl⟩
        · rw [hp]; exact ⟨rfl, rfl⟩
        · rw [hp]; exact Or.inl ⟨rfl, rfl⟩
        · rw [hp]; exact ⟨rfl, rfl⟩
        · exact ⟨hfits, by simpa using hmod⟩
    | pushTurn item k p =>
      rw [hp] at hfits
      simp only [hp] at hs
      split at hs
      · next hturn =>
        cases p with
        | some p =>
          simp only [Option.some_inj] at hs
          subst hs
          have T₁ := T' (goto_ne_fault (by simp))
          refine ⟨goto_ne_fault (by simp), g, P.move T T₁ ?_ ?_ ?_ ?_, rfl⟩
          · rw [hp]; exact ⟨rfl, rfl⟩
          · rw [hp]; exact Or.inl ⟨rfl, rfl⟩
          · rw [hp]; exact ⟨rfl, rfl⟩
          · exact ⟨hfits.1, hfits.2.mp (by simp)⟩
        | none =>
          simp only [Option.some_inj] at hs
          subst hs
          have T₁ := T' (goto_ne_fault (by simp))
          refine ⟨goto_ne_fault (by simp), g, P.move T T₁ ?_ ?_ ?_ ?_, rfl⟩
          · rw [hp]; exact ⟨rfl, rfl⟩
          · rw [hp]; exact Or.inl ⟨rfl, rfl⟩
          · rw [hp]; exact ⟨rfl, rfl⟩
          · exact ⟨hfits.1, fun hmod => hfits.2.mpr hmod rfl⟩
      · split at hs
        · next hodd =>
          -- the counter is always even
          obtain ⟨c, hc⟩ := T.tail_dvd (index k)
          change (s.array (index k)).tailCounter % 2 = 1 at hodd
          rw [hc] at hodd
          simp only [nQueue] at hodd
          omega
        · simp at hs
    | popHead =>
      simp only [hp, Option.some_inj] at hs
      subst hs
      have T₁ := T' (goto_ne_fault (by simp))
      refine ⟨goto_ne_fault (by simp), g, P.move T T₁ ?_ ?_ ?_ trivial, rfl⟩
      · rw [hp]; exact ⟨rfl, rfl⟩
      · rw [hp]; exact Or.inl ⟨rfl, rfl⟩
      · rw [hp]; exact ⟨rfl, rfl⟩
    | popTail k =>
      simp only [hp] at hs
      split at hs
      all_goals
        simp only [Option.some_inj] at hs
        subst hs
        have T₁ := T' (goto_ne_fault (by simp))
        refine ⟨goto_ne_fault (by simp), g, P.move T T₁ ?_ ?_ ?_ trivial, rfl⟩
        · rw [hp]; exact ⟨rfl, rfl⟩
        · rw [hp]; exact Or.inl ⟨rfl, rfl⟩
        · rw [hp]; exact ⟨rfl, rfl⟩
    | popCas k =>
      simp only [hp] at hs
      split at hs
      · simp only [Option.some_inj] at hs
        subst hs
        have T₁ := T' (goto_ne_fault (by simp))
        refine ⟨goto_ne_fault (by simp), g,
          P.idleStep T T₁ rfl rfl rfl rfl rfl ?_ ?_ ?_ ?_ trivial, rfl⟩
        · rw [hp]; exact ⟨rfl, rfl⟩
        · rw [hp]; exact Or.inl ⟨rfl, rfl⟩
        · rw [hp]; rfl
        · rw [hp]; rfl
      · simp only [Option.some_inj] at hs
        subst hs
        have T₁ := T' (goto_ne_fault (by simp))
        refine ⟨goto_ne_fault (by simp), g, P.move T T₁ ?_ ?_ ?_ trivial, rfl⟩
        · rw [hp]; exact ⟨rfl, rfl⟩
        · rw [hp]; exact Or.inl ⟨rfl, rfl⟩
        · rw [hp]; exact ⟨rfl, rfl⟩
    | popTurn k =>
      simp only [hp, Option.ite_none_right_eq_some, Option.some_inj] at hs
      obtain ⟨-, rfl⟩ := hs
      have T₁ := T' (goto_ne_fault (by simp))
      refine ⟨goto_ne_fault (by simp), g, P.move T T₁ ?_ ?_ ?_ trivial, rfl⟩
      · rw [hp]; exact ⟨rfl, rfl⟩
      · rw [hp]; exact Or.inr ⟨rfl, rfl⟩
      · rw [hp]; exact ⟨rfl, rfl⟩
    | popFree p dst =>
      have hne : s.heap p ≠ none := by
        rw [Ne, P.owned, (P.owned_thread p t).mpr (by rw [hp]; rfl)]
        simp
      obtain ⟨page, hpage⟩ := Option.ne_none_iff_exists'.mp hne
      simp only [hp, Option.some_inj] at hs
      subst hs
      rw [access_of_some hpage] at T' ⊢
      have hfault := afterPublish_ne_fault (none : Option π) dst
      exact ⟨goto_ne_fault hfault, _, P.free T hp (T' (goto_ne_fault hfault)), rfl⟩
    | emptyTail | emptyHead | emptyInvalid =>
      simp only [hp, Option.some_inj] at hs
      subst hs
      have T₁ := T' (goto_ne_fault (by simp))
      refine ⟨goto_ne_fault (by simp), g, P.move T T₁ ?_ ?_ ?_ trivial, rfl⟩
      · rw [hp]; exact ⟨rfl, rfl⟩
      · rw [hp]; exact Or.inl ⟨rfl, rfl⟩
      · rw [hp]; exact ⟨rfl, rfl⟩
    | emptyCheck tc hc =>
      simp only [hp] at hs
      split at hs
      all_goals
        simp only [Option.some_inj] at hs
        subst hs
        have T₁ := T' (goto_ne_fault (by simp))
        refine ⟨goto_ne_fault (by simp), g, P.move T T₁ ?_ ?_ ?_ trivial, rfl⟩
        · rw [hp]; exact ⟨rfl, rfl⟩
        · rw [hp]; exact Or.inl ⟨rfl, rfl⟩
        · rw [hp]; exact ⟨rfl, rfl⟩
    | _ => simp [hp, Pc.stage] at hstage

/-! ## Every reachable state -/

omit [DecidableEq τ] [DecidableEq π] in
theorem turns_start : Turns (start : ConcurrentQueue τ π α) where
  tail_dvd _ := Nat.dvd_zero _
  head_dvd _ := Nat.dvd_zero _
  push := .initial (fun _ => Nat.zero_div _) (fun _ => rfl) fun _ => rfl
  pop := .initial (fun _ => Nat.zero_div _) (fun _ => rfl) fun _ => rfl
  head_le := le_rfl
  filled t k ht := by simp [start, Pc.stage] at ht
  popped_le _ := le_rfl
  snapshot _ := trivial
  mutex i t := by simp [start, Pc.locked]

omit [DecidableEq τ] [DecidableEq π] in
theorem pages_start (page : Fin nQueue → ℕ → π) :
    Pages itemSize (start : ConcurrentQueue τ π α) ⟨[], page, fun _ => none⟩ := by
  have hpush : ∀ i, (start : ConcurrentQueue τ π α).pushPhase i = .before := fun i =>
    roleAt_idle fun t => by simp [start, Pc.pushLane, Pc.stage, Stage.pushTurn]
  have hpop : ∀ i, (start : ConcurrentQueue τ π α).popPhase i = .before := fun i =>
    roleAt_idle fun t => by simp [start, Pc.popLane, Pc.stage, Stage.popTurn]
  have hpushed : ∀ i, (start : ConcurrentQueue τ π α).pushed i = 0 := fun _ => Nat.zero_div _
  have hpopped : ∀ i, (start : ConcurrentQueue τ π α).popped i = 0 := fun _ => Nat.zero_div _
  have hreach : reach (itemsPerPage itemSize) 0 (PushPhase.before : PushPhase π).linkStep = 0 :=
    (reach_of_mod_eq (Nat.zero_mod _)).trans (Nat.zero_div _)
  constructor
  · rfl
  · intro i
    rw [hpush, hpop, hpushed, hpopped]
    refine ⟨⟨?_, ?_, ?_, ?_, ?_, ?_⟩, trivial, trivial, le_rfl, fun h => absurd rfl h⟩
    · simp [start, span, hreach]
    · have htail : (span (itemsPerPage itemSize) 0 0 (PushPhase.before : PushPhase π)
          PopPhase.before).tailTo = 0 := hreach
      simp [start, htail]
    · intro b _ hb
      simp [span, hreach] at hb
    · intro b pg _ hb
      simp [span, hreach] at hb
    · intro j pg _ hj
      simp [span, PushPhase.copyStep] at hj
    · intro j pg _ hj
      simp [span, PushPhase.markStep] at hj
  · exact fun _ => trivial
  · exact fun t p ht => by simp [start, Pc.opens] at ht
  · exact fun _ => by simp [start]
  · intro p i x
    unfold InUse
    rw [hpush, hpushed, hreach]
    simp
  · exact fun p t => by simp [start, Pc.owns, Pc.opens]
  · rfl

/-- The invariant of the queue: the turns, and the pages for some ghosts. -/
def Invariant (itemSize : ℕ) (s : ConcurrentQueue τ π α) (g : Ghost τ π α) : Prop :=
  Turns s ∧ Pages itemSize s g

omit [DecidableEq π] in
/-- A call or a return moves a thread between two points outside of all lanes. -/
theorem Invariant.event {p : Pc π α} (h : Invariant itemSize s g)
    (hstage : (s.pc t).stage = .outside ∧ p.stage = .outside)
    (hlocked : (s.pc t).locked = none ∧ p.locked = none)
    (hsnap : p.Snapshot s.headCounter s.tailCounter)
    (hphase : p.pushPhase = .before ∧ p.popPhase = (s.pc t).popPhase)
    (hpages : p.owns = (s.pc t).owns ∧ p.opens = (s.pc t).opens)
    (hfits : p.Fits (itemsPerPage itemSize) g.log) : Invariant itemSize (s.goto t p) g := by
  have T' := h.1.move (p := p) (t := t) (hstage.2.trans hstage.1.symm)
    (hlocked.2.trans hlocked.1.symm) hsnap
  obtain ⟨hlane, hpopLane⟩ := lanes_of_outside hstage.1
  obtain ⟨-, hpopLane'⟩ := lanes_of_outside hstage.2
  exact ⟨T', h.2.move h.1 T' ⟨hlane, hphase.1⟩ (Or.inl ⟨hpopLane'.trans hpopLane.symm, hphase.2⟩)
    hpages hfits⟩

/-- Whatever is done next keeps the invariant. -/
theorem Invariant.next {l : Label τ π α} (h : Invariant itemSize s g)
    (hs : s.next itemSize l s') : ∃ g', Invariant itemSize s' g' ∧
      g'.log = match l with
        | .event _ => g.log
        | .step t _ => (s.pc t).logs g.log := by
  match l with
  | .event (.call t op) =>
    obtain ⟨hpc, rfl⟩ := hs
    refine ⟨g, h.event ?_ ?_ ?_ ?_ ?_ ?_, rfl⟩
    all_goals
      first
      | rw [hpc]
      | skip
      cases op <;> trivial
  | .event (.ret t r) =>
    obtain ⟨hpc, rfl⟩ := hs
    refine ⟨g, h.event ?_ ?_ ?_ ?_ ?_ ?_, rfl⟩
    all_goals
      first
      | rw [hpc]
      | skip
      trivial
  | .step t fresh =>
    obtain ⟨hok, g', hg', hlog⟩ := h.2.step h.1 hs
    exact ⟨g', ⟨h.1.step hs hok, hg'⟩, hlog⟩

theorem reachable_invariant [Nonempty π] (h : (system τ π α itemSize).Reachable s) :
    ∃ g, Invariant itemSize s g := by
  apply h.invariant (P := fun s => ∃ g, Invariant itemSize s g)
  · rintro _ rfl
    exact ⟨_, turns_start, pages_start fun _ _ => Classical.arbitrary π⟩
  · rintro s l s' - ⟨g, hg⟩ hs
    obtain ⟨g', hg', -⟩ := hg.next hs
    exact ⟨g', hg'⟩

omit [DecidableEq τ] [DecidableEq π] in
theorem Invariant.pc_ne_fault (h : Invariant itemSize s g) (t : τ) : s.pc t ≠ .fault := by
  intro hfault
  have hfits := h.2.fits t
  rw [hfault] at hfits
  exact hfits

/-- No thread accesses a page that is not allocated, an item that is not there or a null
pointer, frees a page twice or throws, in any interleaving of any calls. -/
theorem noFault [Nonempty π] (h : (system τ π α itemSize).Reachable s) (t : τ) :
    s.pc t ≠ .fault := by
  obtain ⟨g, hg⟩ := reachable_invariant h
  exact hg.pc_ne_fault t

/-- A thread pushes the first item, and another one has called `try_pop`. -/
theorem reachable_two : (system (Fin 2) ℕ ℕ 8).Reachable
    ((start.goto 0 (.fetchTail 7)).goto 1 .popHead) := by
  have hstart : (system (Fin 2) ℕ ℕ 8).Reachable start := .start rfl
  have hpush : (system (Fin 2) ℕ ℕ 8).Reachable (start.goto 0 (.fetchTail 7)) :=
    hstart.step (l := .event (.call 0 (.push 7))) ⟨rfl, rfl⟩
  exact hpush.step (l := .event (.call 1 .tryPop)) ⟨rfl, rfl⟩

theorem noFault_two :
    (((start : ConcurrentQueue (Fin 2) ℕ ℕ).goto 0 (.fetchTail 7)).goto 1 .popHead).pc 1 ≠
      .fault :=
  noFault reachable_two 1

end ConcurrentQueue

end StringSampleSort.Tbb
