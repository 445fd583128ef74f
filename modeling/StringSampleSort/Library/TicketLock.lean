import Mathlib.Logic.Function.Basic
import Mathlib.Algebra.Order.Group.Nat
import Mathlib.Tactic.Set

/-!
# Ticket locks

A counter hands out tickets.  The tickets are spread over lanes, and each lane serves the
tickets of its own one after the other: a holder waits until its lane has served all tickets
before its own, then it is in turn, and when it is done the lane serves the next one.

## Main results

- `TicketLock.draw`, `TicketLock.enter`, `TicketLock.serve`: what the holders do
- `TicketLock.exclusive`: at most one holder of a lane is in turn
- `TicketLock.exists_served`: while a lane has waiting holders, one of them may enter
- `roleAt_eq`: what the one thread at a lane does is a function of the lane
-/

namespace StringSampleSort.Library

/-- Tickets, spread over lanes: a ticket is a lane and a place in it. -/
structure Lanes (ι : Type*) where
  lane : ℕ → ι
  place : ℕ → ℕ
  ticket : ι → ℕ → ℕ
  lane_ticket : ∀ i j, lane (ticket i j) = i
  place_ticket : ∀ i j, place (ticket i j) = j
  ticket_lane : ∀ k, ticket (lane k) (place k) = k
  ticket_lt : ∀ i j j', j < j' → ticket i j < ticket i j'

theorem Lanes.ext_ticket {ι : Type*} (L : Lanes ι) {k k' : ℕ} (hlane : L.lane k = L.lane k')
    (hplace : L.place k = L.place k') : k = k' := by
  rw [← L.ticket_lane k, hlane, hplace, L.ticket_lane]

/-- The tickets below `drawn` have been handed out, the first `served i` ones of lane `i` are
done, `holds` says which thread has which of the others and `inTurn` which of them does not
wait any more. -/
structure TicketLock {ι τ : Type*} (L : Lanes ι) (drawn : ℕ) (served : ι → ℕ)
    (holds inTurn : τ → Option ℕ) : Prop where
  holds_iff : ∀ k, (∃ t, holds t = some k) ↔ k < drawn ∧ served (L.lane k) ≤ L.place k
  unique : ∀ t u k, holds t = some k → holds u = some k → t = u
  holds_of_inTurn : ∀ t k, inTurn t = some k → holds t = some k
  place_eq : ∀ t k, inTurn t = some k → served (L.lane k) = L.place k
  lt_drawn : ∀ k, L.place k < served (L.lane k) → k < drawn

namespace TicketLock

variable {ι τ : Type*} {L : Lanes ι} {drawn : ℕ} {served : ι → ℕ}
  {holds inTurn holds' inTurn' : τ → Option ℕ}

/-- No ticket has been drawn. -/
theorem initial (hserved : ∀ i, served i = 0) (hholds : ∀ t, holds t = none)
    (hturn : ∀ t, inTurn t = none) : TicketLock L 0 served holds inTurn where
  holds_iff k := by simp [hholds]
  unique t u k ht := by simp [hholds] at ht
  holds_of_inTurn t k ht := by simp [hturn] at ht
  place_eq t k ht := by simp [hturn] at ht
  lt_drawn k hk := by simp [hserved] at hk

/-- Only the functions `holds` and `inTurn` matter. -/
theorem congr (h : TicketLock L drawn served holds inTurn) (hholds : ∀ t, holds' t = holds t)
    (hturn : ∀ t, inTurn' t = inTurn t) : TicketLock L drawn served holds' inTurn' := by
  rw [funext hholds, funext hturn]
  exact h

/-- Two holders of one lane are not in turn together. -/
theorem exclusive (h : TicketLock L drawn served holds inTurn) {t u : τ} {k k' : ℕ}
    (ht : inTurn t = some k) (hu : inTurn u = some k') (hlane : L.lane k = L.lane k') :
    t = u := by
  have hplace : L.place k = L.place k' := by
    rw [← h.place_eq t k ht, ← h.place_eq u k' hu, hlane]
  obtain rfl := L.ext_ticket hlane hplace
  exact h.unique t u k (h.holds_of_inTurn t k ht) (h.holds_of_inTurn u k hu)

/-- When nobody holds a ticket, all that have been drawn are done. -/
theorem lt_served_iff (h : TicketLock L drawn served holds inTurn) (hidle : ∀ t, holds t = none)
    (k : ℕ) : L.place k < served (L.lane k) ↔ k < drawn := by
  refine ⟨h.lt_drawn k, fun hlt => ?_⟩
  by_contra hnot
  obtain ⟨t, ht⟩ := (h.holds_iff k).mpr ⟨hlt, not_lt.mp hnot⟩
  simp [hidle] at ht

/-- The lane of a waiting holder has a holder that it serves now. -/
theorem exists_served (h : TicketLock L drawn served holds inTurn) {t : τ} {k : ℕ}
    (ht : holds t = some k) :
    ∃ u k', holds u = some k' ∧ L.lane k' = L.lane k ∧ L.place k' = served (L.lane k) := by
  obtain ⟨hlt, hle⟩ := (h.holds_iff k).mp ⟨t, ht⟩
  set k' := L.ticket (L.lane k) (served (L.lane k)) with hk'
  have hlane : L.lane k' = L.lane k := L.lane_ticket _ _
  have hplace : L.place k' = served (L.lane k) := L.place_ticket _ _
  -- the ticket served now is not above `k`
  have hk : k' ≤ k := by
    rcases hle.eq_or_lt with heq | hlt
    · exact (L.ext_ticket hlane (hplace.trans heq)).le
    · calc k' ≤ L.ticket (L.lane k) (L.place k) := (L.ticket_lt _ _ _ hlt).le
        _ = k := L.ticket_lane k
  obtain ⟨u, hu⟩ := (h.holds_iff k').mpr
    ⟨hk.trans_lt hlt, by rw [hlane, hplace]⟩
  exact ⟨u, k', hu, hlane, hplace⟩

/-- Thread `t` keeps its ticket or has none; it may be in turn when its lane serves it. -/
theorem enter (h : TicketLock L drawn served holds inTurn) (t : τ)
    (hholds : holds' = holds) (hother : ∀ u, u ≠ t → inTurn' u = inTurn u)
    (hturn : ∀ k, inTurn' t = some k →
      holds t = some k ∧ served (L.lane k) = L.place k) :
    TicketLock L drawn served holds' inTurn' where
  holds_iff := by rw [hholds]; exact h.holds_iff
  unique := by rw [hholds]; exact h.unique
  holds_of_inTurn u k hu := by
    rw [hholds]
    rcases eq_or_ne u t with rfl | hne
    · exact (hturn k hu).1
    · exact h.holds_of_inTurn u k (hother u hne ▸ hu)
  place_eq u k hu := by
    rcases eq_or_ne u t with rfl | hne
    · exact (hturn k hu).2
    · exact h.place_eq u k (hother u hne ▸ hu)
  lt_drawn := h.lt_drawn

/-- Thread `t` draws the next ticket. -/
theorem draw (h : TicketLock L drawn served holds inTurn) (t : τ) (hnone : holds t = none)
    (hdrawn : holds' t = some drawn) (hother : ∀ u, u ≠ t → holds' u = holds u)
    (hturn : inTurn' t = none) (hturn' : ∀ u, u ≠ t → inTurn' u = inTurn u) :
    TicketLock L (drawn + 1) served holds' inTurn' where
  holds_iff k := by
    constructor
    · rintro ⟨u, hu⟩
      rcases eq_or_ne u t with rfl | hne
      · -- the new ticket is not done, since only drawn ones are
        obtain rfl : drawn = k := by simpa [hdrawn] using hu
        refine ⟨Nat.lt_succ_self _, ?_⟩
        by_contra hlt
        exact absurd (h.lt_drawn _ (not_le.mp hlt)) (lt_irrefl _)
      · obtain ⟨hlt, hle⟩ := (h.holds_iff k).mp ⟨u, hother u hne ▸ hu⟩
        exact ⟨Nat.lt_succ_of_lt hlt, hle⟩
    · rintro ⟨hlt, hle⟩
      rcases (Nat.lt_succ_iff.mp hlt).eq_or_lt with rfl | hlt
      · exact ⟨t, hdrawn⟩
      · obtain ⟨u, hu⟩ := (h.holds_iff k).mpr ⟨hlt, hle⟩
        have hne : u ≠ t := by
          rintro rfl
          simp [hnone] at hu
        exact ⟨u, by rw [hother u hne, hu]⟩
  unique u v k hu hv := by
    -- a ticket held before is below the new one
    have hold : ∀ w, w ≠ t → holds' w = some k → k < drawn := fun w hw hk =>
      ((h.holds_iff k).mp ⟨w, hother w hw ▸ hk⟩).1
    rcases eq_or_ne u t with rfl | hut <;> rcases eq_or_ne v u with rfl | hvu
    · rfl
    · obtain rfl : drawn = k := by simpa [hdrawn] using hu
      exact absurd (hold v hvu hv) (lt_irrefl _)
    · rfl
    · rcases eq_or_ne v t with rfl | hvt
      · obtain rfl : drawn = k := by simpa [hdrawn] using hv
        exact absurd (hold u hut hu) (lt_irrefl _)
      · exact h.unique u v k (hother u hut ▸ hu) (hother v hvt ▸ hv)
  holds_of_inTurn u k hu := by
    rcases eq_or_ne u t with rfl | hne
    · simp [hturn] at hu
    · rw [hother u hne]
      exact h.holds_of_inTurn u k (hturn' u hne ▸ hu)
  place_eq u k hu := by
    rcases eq_or_ne u t with rfl | hne
    · simp [hturn] at hu
    · exact h.place_eq u k (hturn' u hne ▸ hu)
  lt_drawn k hk := Nat.lt_succ_of_lt (h.lt_drawn k hk)

/-- Thread `t` is done: its lane serves the next ticket. -/
theorem serve [DecidableEq ι] (h : TicketLock L drawn served holds inTurn) (t : τ) {k : ℕ}
    (hk : inTurn t = some k) (hdone : holds' t = none)
    (hother : ∀ u, u ≠ t → holds' u = holds u) (hturn : inTurn' t = none)
    (hturn' : ∀ u, u ≠ t → inTurn' u = inTurn u) :
    TicketLock L drawn (Function.update served (L.lane k) (L.place k + 1)) holds' inTurn' where
  holds_iff k' := by
    have hplace := h.place_eq t k hk
    have hheld := h.holds_of_inTurn t k hk
    -- among the tickets not yet done, only `k` itself becomes done
    have hdiff : Function.update served (L.lane k) (L.place k + 1) (L.lane k') ≤ L.place k' ↔
        served (L.lane k') ≤ L.place k' ∧ k' ≠ k := by
      rcases eq_or_ne (L.lane k') (L.lane k) with hlane | hlane
      · have hne : k' ≠ k ↔ L.place k' ≠ L.place k :=
          not_congr ⟨fun heq => by rw [heq], L.ext_ticket hlane⟩
        rw [hlane, Function.update_self, hplace, hne]
        omega
      · have hne : k' ≠ k := fun heq => hlane (by rw [heq])
        simp [Function.update_of_ne hlane, hne]
    rw [hdiff]
    constructor
    · rintro ⟨u, hu⟩
      have hut : u ≠ t := by
        rintro rfl
        simp [hdone] at hu
      rw [hother u hut] at hu
      obtain ⟨hlt, hle⟩ := (h.holds_iff k').mp ⟨u, hu⟩
      refine ⟨hlt, hle, ?_⟩
      rintro rfl
      exact hut (h.unique u t k' hu hheld)
    · rintro ⟨hlt, hle, hne⟩
      obtain ⟨u, hu⟩ := (h.holds_iff k').mpr ⟨hlt, hle⟩
      have hut : u ≠ t := by
        rintro rfl
        exact hne (by simpa [hheld] using hu.symm)
      exact ⟨u, by rw [hother u hut, hu]⟩
  unique u v k' hu hv := by
    have hne : ∀ w, holds' w = some k' → w ≠ t := by
      rintro w hw rfl
      simp [hdone] at hw
    exact h.unique u v k' (hother u (hne u hu) ▸ hu) (hother v (hne v hv) ▸ hv)
  holds_of_inTurn u k' hu := by
    rcases eq_or_ne u t with rfl | hne
    · simp [hturn] at hu
    · rw [hother u hne]
      exact h.holds_of_inTurn u k' (hturn' u hne ▸ hu)
  place_eq u k' hu := by
    rcases eq_or_ne u t with rfl | hne
    · simp [hturn] at hu
    · rw [hturn' u hne] at hu
      have hlane : L.lane k' ≠ L.lane k := fun hlane => hne (h.exclusive hu hk hlane)
      rw [Function.update_of_ne hlane]
      exact h.place_eq u k' hu
  lt_drawn k' hk' := by
    rcases eq_or_ne (L.lane k') (L.lane k) with hlane | hlane
    · rw [hlane, Function.update_self] at hk'
      rcases (Nat.lt_succ_iff.mp hk').eq_or_lt with heq | hlt
      · rw [L.ext_ticket hlane heq]
        exact ((h.holds_iff k).mp ⟨t, h.holds_of_inTurn t k hk⟩).1
      · apply h.lt_drawn
        rw [hlane, h.place_eq t k hk]
        exact hlt
    · rw [Function.update_of_ne hlane] at hk'
      exact h.lt_drawn k' hk'

end TicketLock

/-! ## Roles -/

section Roles

variable {ι τ Φ : Type*} {lane lane' : τ → Option ι} {phase phase' : τ → Φ} {idle : Φ}

open Classical in
/-- What the thread at lane `i` is phase₀, or `idle` when there is none. -/
noncomputable def roleAt (lane : τ → Option ι) (phase : τ → Φ) (idle : Φ) (i : ι) : Φ :=
  if h : ∃ t, lane t = some i then phase h.choose else idle

/-- No two threads are at one lane. -/
def Exclusive (lane : τ → Option ι) : Prop :=
  ∀ t u i, lane t = some i → lane u = some i → t = u

theorem roleAt_eq (hex : Exclusive lane) {t : τ} {i : ι} (ht : lane t = some i) :
    roleAt lane phase idle i = phase t := by
  have h : ∃ t, lane t = some i := ⟨t, ht⟩
  unfold roleAt
  rw [dif_pos h, hex _ _ _ h.choose_spec ht]

theorem roleAt_idle {i : ι} (h : ∀ t, lane t ≠ some i) : roleAt lane phase idle i = idle := by
  unfold roleAt
  rw [dif_neg]
  rintro ⟨t, ht⟩
  exact h t ht

/-- What is not idle is done by a thread. -/
theorem exists_of_roleAt_ne {i : ι} (h : roleAt lane phase idle i ≠ idle) :
    ∃ t, lane t = some i := by
  by_contra hnone
  exact h (roleAt_idle fun t ht => hnone ⟨t, ht⟩)

/-- A lane at which nobody comes, goes or moves. -/
theorem roleAt_congr (hex : Exclusive lane) (hex' : Exclusive lane') {i : ι}
    (hlane : ∀ t, lane' t = some i ↔ lane t = some i)
    (hphase : ∀ t, lane t = some i → phase' t = phase t) :
    roleAt lane' phase' idle i = roleAt lane phase idle i := by
  by_cases h : ∃ t, lane t = some i
  · obtain ⟨t, ht⟩ := h
    rw [roleAt_eq hex ht, roleAt_eq hex' ((hlane t).mpr ht), hphase t ht]
  · rw [roleAt_idle fun t ht => h ⟨t, ht⟩, roleAt_idle fun t ht => h ⟨t, (hlane t).mp ht⟩]

/-! Thread `t` moves from one program point to another. -/

variable {P : Type*} [DecidableEq τ] {lane₀ : P → Option ι} {phase₀ : P → Φ} {pc : τ → P} {t : τ}
  {p : P} {i : ι}

/-- The lane has nothing to do with the move. -/
theorem roleAt_move_other (hex : Exclusive fun u => lane₀ (pc u))
    (hex' : Exclusive fun u => lane₀ (Function.update pc t p u)) (hbefore : lane₀ (pc t) ≠ some i)
    (hafter : lane₀ p ≠ some i) :
    roleAt (fun u => lane₀ (Function.update pc t p u))
        (fun u => phase₀ (Function.update pc t p u)) idle i =
      roleAt (fun u => lane₀ (pc u)) (fun u => phase₀ (pc u)) idle i := by
  apply roleAt_congr hex hex'
  · intro u
    rcases eq_or_ne u t with rfl | hne
    · simp [hbefore, hafter]
    · simp [Function.update_of_ne hne]
  · intro u hu
    have hne : u ≠ t := fun heq => hbefore (heq ▸ hu)
    simp [Function.update_of_ne hne]

/-- The lane is the one at which the thread is now. -/
theorem roleAt_move_self (hex' : Exclusive fun u => lane₀ (Function.update pc t p u))
    (hafter : lane₀ p = some i) :
    roleAt (fun u => lane₀ (Function.update pc t p u))
      (fun u => phase₀ (Function.update pc t p u)) idle i = phase₀ p := by
  rw [roleAt_eq hex' (t := t) (by simpa using hafter)]
  simp

/-- The thread leaves the lane. -/
theorem roleAt_move_left (hex : Exclusive fun u => lane₀ (pc u)) (hbefore : lane₀ (pc t) = some i)
    (hafter : lane₀ p = none) :
    roleAt (fun u => lane₀ (Function.update pc t p u))
      (fun u => phase₀ (Function.update pc t p u)) idle i = idle := by
  apply roleAt_idle
  intro u
  rcases eq_or_ne u t with rfl | hne
  · simp [hafter]
  · intro hu
    simp only [Function.update_of_ne hne] at hu
    exact hne (hex u t i hu hbefore)

/-- The thread enters the lane, and finds it idle. -/
theorem roleAt_move_entered (hex' : Exclusive fun u => lane₀ (Function.update pc t p u))
    (hbefore : lane₀ (pc t) = none) (hafter : lane₀ p = some i) :
    roleAt (fun u => lane₀ (pc u)) (fun u => phase₀ (pc u)) idle i = idle := by
  apply roleAt_idle
  intro u hu
  have hne : u ≠ t := by
    rintro rfl
    simp [hbefore] at hu
  apply hne
  apply hex' u t i
  · simpa [Function.update_of_ne hne] using hu
  · simpa using hafter

end Roles

end StringSampleSort.Library
