import StringSampleSort.Tbb.PageList

/-!
# The protocol on the pages of a micro queue

One push and one pop are in turn at a micro queue.  Their phases say how far each of them
has come, and with the two counters they fix what the fields of the page list hold.  Every
step of the two is shown to lead from one phase to the next, whatever the phase of the other
one is; only between the locked parts the mutex has to keep them apart.

## Main results

- `QueueOk`: the state of a micro queue, given the phases of its push and its pop
- `QueueOk.tailPage_eq`, `QueueOk.headPage_eq`: the pages that they find
- `QueueOk.link`, …, `QueueOk.publishPop`: their steps
-/

namespace StringSampleSort.Tbb

/-! ## Phases -/

/-- How far the push in turn has come. -/
inductive PushPhase (π : Type*) where
  /-- nothing is changed yet, or no push is in turn -/
  | before
  /-- `tail_page` was `q`, and `p` is to be linked -/
  | linking (p : π) (q : Option π)
  /-- `p` is linked, and `tail_page` not yet set -/
  | linked (p : π)
  /-- `p` is the page to write into -/
  | tailed (p : π)
  /-- the item is copied, and not yet marked -/
  | copied (p : π)
  | marked

/-- How far the pop in turn has come. -/
inductive PopPhase (π : Type*) where
  /-- the item may not be there yet, or no pop is in turn -/
  | before
  /-- the item is there -/
  | filled
  /-- `p` is the page to read from -/
  | reading (p : π)
  /-- the last item of `p` has been taken -/
  | taken (p : π)
  /-- `q` is the page behind `p` -/
  | unlinking (p : π) (q : Option π)
  /-- `head_page` is past `p` -/
  | headSet (p : π) (q : Option π)
  /-- `p` is out of the list -/
  | unlinked (p : π)
  /-- an item that is not the last of its page has been taken -/
  | passed

namespace PushPhase

variable {π : Type*}

/-- The page to be linked is linked. -/
def linkStep : PushPhase π → ℕ
  | before | linking _ _ => 0
  | _ => 1

/-- And `tail_page` points to it. -/
def tailStep : PushPhase π → ℕ
  | before | linking _ _ | linked _ => 0
  | _ => 1

def copyStep : PushPhase π → ℕ
  | copied _ | marked => 1
  | _ => 0

def markStep : PushPhase π → ℕ
  | marked => 1
  | _ => 0

/-- The list is being changed, or about to be. -/
def changing : PushPhase π → Bool
  | linking _ _ | linked _ => true
  | _ => false

/-- What the push knows when `t` items have been pushed before. -/
def Ok (n : ℕ) (page : ℕ → π) (t : ℕ) (tailPage : Option π) : PushPhase π → Prop
  | before | marked => True
  | linking _ q => t % n = 0 ∧ q = tailPage
  | linked p => t % n = 0 ∧ p = page (t / n)
  | tailed p | copied p => p = page (t / n)

end PushPhase

namespace PopPhase

variable {π : Type*}

def headStep : PopPhase π → ℕ
  | headSet _ _ | unlinked _ => 1
  | _ => 0

def tailStep : PopPhase π → ℕ
  | unlinked _ => 1
  | _ => 0

def takenStep : PopPhase π → ℕ
  | before | filled | reading _ => 0
  | _ => 1

def changing : PopPhase π → Bool
  | unlinking _ _ | headSet _ _ => true
  | _ => false

/-- What the pop knows when `h` items have been popped before and the pages before number
`l` are linked. -/
def Ok (n : ℕ) (page : ℕ → π) (h l : ℕ) : PopPhase π → Prop
  | before | filled => True
  | reading p => p = page (h / n)
  | taken p | unlinked p => p = page (h / n) ∧ h % n = n - 1
  | unlinking p q | headSet p q => (p = page (h / n) ∧ h % n = n - 1) ∧
    q = if h / n + 1 < l then some (page (h / n + 1)) else none
  | passed => h % n ≠ n - 1

end PopPhase

/-! ## How far the fields have got -/

/-- The end of the pages for `t` items, and for one more if `step` is one. -/
def reach (n t step : ℕ) : ℕ := if t % n = 0 then t / n + step else t / n + 1

/-- What the counters and the phases say about the page list. -/
def span {π : Type*} (n h t : ℕ) (a : PushPhase π) (b : PopPhase π) : Span where
  ownFrom := h / n
  headFrom := h / n + b.headStep
  tailFrom := h / n + b.tailStep
  linkTo := reach n t a.linkStep
  tailTo := reach n t a.tailStep
  takenTo := h + b.takenStep
  copiedTo := t + a.copyStep
  maskFrom := h
  markedTo := t + a.markStep

section Reach

variable {n t : ℕ} (hn : 0 < n)

theorem reach_of_mod_eq {step : ℕ} (h : t % n = 0) : reach n t step = t / n + step := if_pos h

theorem reach_of_mod_ne {step : ℕ} (h : t % n ≠ 0) : reach n t step = t / n + 1 := if_neg h

theorem reach_one : reach n t 1 = t / n + 1 := by
  unfold reach
  split <;> rfl

include hn in
/-- The page of an item before the end is linked. -/
theorem div_lt_reach {j step : ℕ} (h : j < t) : j / n < reach n t step := by
  unfold reach
  split
  · next hmod =>
    have hlt : j / n < t / n := by
      rw [Nat.div_lt_iff_lt_mul hn, Nat.div_mul_cancel (Nat.dvd_of_mod_eq_zero hmod)]
      exact h
    exact hlt.trans_le (Nat.le_add_right _ _)
  · exact Nat.lt_succ_of_le (Nat.div_le_div_right h.le)

theorem reach_mono {step step' : ℕ} (h : step ≤ step') : reach n t step ≤ reach n t step' := by
  unfold reach
  split
  · exact Nat.add_le_add_left h _
  · exact le_rfl

theorem div_le_reach {step : ℕ} : t / n ≤ reach n t step := by
  unfold reach
  split
  · exact Nat.le_add_right _ _
  · exact Nat.le_succ _

include hn in
theorem succ_div_of_mod_ne (h : t % n ≠ n - 1) : (t + 1) / n = t / n := by
  rw [Nat.succ_div, if_neg, Nat.add_zero]
  intro hdvd
  have hmod := Nat.mod_lt t hn
  have hzero : (t % n + 1) % n = 0 := by
    rw [Nat.mod_add_mod]
    exact Nat.mod_eq_zero_of_dvd hdvd
  rw [Nat.mod_eq_of_lt (by omega)] at hzero
  omega

include hn in
theorem succ_div_of_mod_eq (h : t % n = n - 1) : (t + 1) / n = t / n + 1 := by
  rw [Nat.succ_div, if_pos]
  have hzero : (t % n + 1) % n = 0 := by
    rw [h, Nat.sub_add_cancel hn, Nat.mod_self]
  rw [Nat.mod_add_mod] at hzero
  exact Nat.dvd_of_mod_eq_zero hzero

/-- Behind an item, its page is reached. -/
theorem reach_succ : reach n (t + 1) 0 = t / n + 1 := by
  by_cases hmod : (t + 1) % n = 0
  · rw [reach_of_mod_eq hmod, Nat.succ_div, if_pos (Nat.dvd_of_mod_eq_zero hmod)]
  · rw [reach_of_mod_ne hmod, Nat.succ_div, if_neg fun hdvd => hmod (Nat.mod_eq_zero_of_dvd hdvd)]

end Reach

/-! ## The state of a micro queue -/

/-- A micro queue in which `h` items have been popped and `t` items pushed, while its push
and its pop are in the phases `a` and `b`. -/
structure QueueOk {τ π α : Type*} (n : ℕ) (item : ℕ → Option α) (page : ℕ → π)
    (heap : π → Option (Page π α)) (m : MicroQueue τ π) (h t : ℕ) (a : PushPhase π)
    (b : PopPhase π) : Prop where
  list : PageList n m (fun x => heap (page x)) page item (span n h t a b)
  push_ok : a.Ok n page t m.tailPage
  pop_ok : b.Ok n page h (reach n t a.linkStep)
  le : h ≤ t
  lt : b ≠ .before → h < t

namespace QueueOk

variable {τ π α : Type*} {n : ℕ} {item item' : ℕ → Option α} {page : ℕ → π}
  {heap heap' : π → Option (Page π α)} {m : MicroQueue τ π} {h t : ℕ} {a : PushPhase π}
  {b : PopPhase π} {p q : π} {pg : Page π α}

/-! ### The order of the fields -/

section Order

variable (hn : 0 < n)

include hn in
/-- The page of an item that is copied is linked. -/
theorem div_lt_linkTo {j : ℕ} (hj : j < t + a.copyStep) : j / n < reach n t a.linkStep := by
  rcases lt_or_ge j t with hlt | hge
  · exact div_lt_reach hn hlt
  · -- the item that is being pushed, behind the link of its page
    have hstep : a.linkStep = 1 := by
      cases a with
      | copied p => rfl
      | marked => rfl
      | _ => simp only [PushPhase.copyStep, Nat.add_zero] at hj; omega
    have hle : j ≤ t := by
      cases a <;> simp only [PushPhase.copyStep] at hj <;> omega
    rw [hstep, reach_one]
    exact Nat.lt_succ_of_le (Nat.div_le_div_right hle)

theorem markStep_le : a.markStep ≤ a.copyStep := by
  cases a <;> simp [PushPhase.markStep, PushPhase.copyStep]

include hn in
theorem headFrom_le (ok : QueueOk n item page heap m h t a b) :
    h / n + b.headStep ≤ t / n := by
  have hplain : h / n ≤ t / n := Nat.div_le_div_right ok.le
  -- the last item of the page is below the end
  have hlast : b.headStep = 1 → h % n = n - 1 ∧ h < t := by
    intro hb
    have hpop := ok.pop_ok
    cases b with
    | headSet p q => exact ⟨hpop.1.2, ok.lt (by simp)⟩
    | unlinked p => exact ⟨hpop.2, ok.lt (by simp)⟩
    | _ => simp [PopPhase.headStep] at hb
  have hstep : b.headStep = 0 ∨ b.headStep = 1 := by
    cases b <;> simp [PopPhase.headStep]
  rcases hstep with hzero | hone
  · simpa [hzero] using hplain
  · obtain ⟨hmod, hlt⟩ := hlast hone
    rw [hone, ← succ_div_of_mod_eq hn hmod]
    exact Nat.div_le_div_right hlt

theorem tailStep_le : b.tailStep ≤ b.headStep := by
  cases b <;> simp [PopPhase.tailStep, PopPhase.headStep]

theorem tailStep_eq (hb : b.changing = false) : b.tailStep = b.headStep := by
  cases b <;> simp_all [PopPhase.tailStep, PopPhase.headStep, PopPhase.changing]

include hn in
theorem span_ordered : (span n h t a b).Ordered n where
  own_head := Nat.le_add_right _ _
  own_taken := Nat.div_le_div_right (Nat.le_add_right _ _)
  own_mask := le_rfl
  copied_link _ hj := div_lt_linkTo hn hj
  marked_link _ hj := div_lt_linkTo hn (hj.trans_le (Nat.add_le_add_left markStep_le t))

include hn in
/-- The memory of the pages in use is all that matters. -/
theorem congr_heap (ok : QueueOk n item page heap m h t a b)
    (heq : ∀ x, h / n ≤ x → x < reach n t a.linkStep → heap' (page x) = heap (page x)) :
    QueueOk n item page heap' m h t a b :=
  { ok with list := ok.list.congr_cells (span_ordered hn) heq }

theorem congr_item (ok : QueueOk n item page heap m h t a b)
    (heq : ∀ j, h ≤ j → j < t + a.copyStep → item' j = item j) :
    QueueOk n item' page heap m h t a b :=
  { ok with list := ok.list.congr_item fun j hj => heq j ((Nat.le_add_right _ _).trans hj) }

/-- The counters and the mutex do not matter here. -/
theorem congr_micro {m' : MicroQueue τ π} (ok : QueueOk n item page heap m h t a b)
    (hhead : m'.headPage = m.headPage) (htail : m'.tailPage = m.tailPage) :
    QueueOk n item page heap m' h t a b :=
  { ok with
    list := ok.list.congr_micro hhead htail
    push_ok := htail ▸ ok.push_ok }

/-- A page in use is allocated. -/
theorem alloc (ok : QueueOk n item page heap m h t a b) {x : ℕ} (hx : h / n ≤ x)
    (hx' : x < reach n t a.linkStep) : ∃ pg, heap (page x) = some pg :=
  ok.list.alloc x hx hx'

end Order

/-! ### Pushing -/

section Push

variable [DecidableEq π] (hn : 0 < n)

/-- No two pages in use have one address. -/
def Distinct (page : ℕ → π) (l r : ℕ) : Prop :=
  ∀ x y, l ≤ x → x < r → l ≤ y → y < r → page x = page y → x = y

/-- The memory behind a write to page `x₀`. -/
theorem heap_update {x₀ l r : ℕ} {new : Option (Page π α)} (hinj : Distinct page l r)
    (hx₀ : l ≤ x₀) (hx₀' : x₀ < r) {x : ℕ} (hx : l ≤ x) (hx' : x < r) :
    Function.update heap (page x₀) new (page x) =
      Function.update (fun y => heap (page y)) x₀ new x := by
  rcases eq_or_ne x x₀ with rfl | hne
  · rw [Function.update_self, Function.update_self]
  · rw [Function.update_of_ne hne,
      Function.update_of_ne fun heq => hne (hinj x x₀ hx hx' hx₀ hx₀' heq)]

omit [DecidableEq π] in
/-- The push learns where the list ends. -/
theorem readTail (ok : QueueOk n item page heap m h t .before b) (p : π) (hmod : t % n = 0) :
    QueueOk n item page heap m h t (.linking p m.tailPage) b :=
  ⟨ok.list, ⟨hmod, rfl⟩, ok.pop_ok, ok.le, ok.lt⟩

omit [DecidableEq π] in
include hn in
/-- What the pop knows does not depend on the page that is linked. -/
theorem pop_ok_link (ok : QueueOk n item page heap m h t a b) (hb : b.changing = false)
    (hmod : t % n = 0) (p : π) (l : ℕ) : b.Ok n (Function.update page (t / n) p) h l := by
  have hne : b ≠ .before → h / n ≠ t / n := by
    intro hbefore
    have hlt : h / n < reach n t 0 := div_lt_reach hn (ok.lt hbefore)
    rw [reach_of_mod_eq hmod] at hlt
    exact hlt.ne
  have hpop := ok.pop_ok
  cases b with
  | before | filled | passed => exact hpop
  | reading p' =>
    simpa [PopPhase.Ok, Function.update_of_ne (hne (by simp))] using hpop
  | taken p' | unlinked p' =>
    simpa [PopPhase.Ok, Function.update_of_ne (hne (by simp))] using hpop
  | unlinking p' q | headSet p' q => simp [PopPhase.changing] at hb

omit [DecidableEq π] in
/-- The page that a push links is one more. -/
theorem span_link (hmod : t % n = 0) (p : π) (q : Option π) :
    span n h t (.linked p) b = { span n h t (.linking p q) b with linkTo := t / n + 1 } := by
  simp [span, PushPhase.linkStep, PushPhase.tailStep, PushPhase.copyStep,
    PushPhase.markStep, reach_of_mod_eq hmod]

omit [DecidableEq π] in
/-- The page that was last when the push looked is allocated. -/
theorem linking_alloc {q : π} (ok : QueueOk n item page heap m h t (.linking p (some q)) b) :
    h / n + b.tailStep < t / n ∧ page (t / n - 1) = q ∧ ∃ pg, heap q = some pg := by
  obtain ⟨hmod, htail⟩ := ok.push_ok
  have hpage := ok.list.tail_page
  rw [← htail] at hpage
  simp only [span, PushPhase.tailStep, reach_of_mod_eq hmod, Nat.add_zero] at hpage
  split at hpage
  · next hlt =>
    have hown : h / n < t / n := lt_of_le_of_lt (Nat.le_add_right _ _) hlt
    obtain rfl := Option.some_inj.mp hpage
    refine ⟨hlt, rfl, ok.alloc (Nat.le_sub_one_of_lt hown) ?_⟩
    rw [reach_of_mod_eq hmod]
    exact (Nat.sub_one_lt (Nat.ne_of_gt (Nat.zero_lt_of_lt hown))).trans_le
      (Nat.le_add_right _ _)
  · simp at hpage

include hn in
/-- `q->next = p` -/
theorem linkNext (ok : QueueOk n item page heap m h t (.linking p (some q)) b)
    (hb : b.changing = false) (hq : heap q = some pg)
    (hp : heap p = some ConcurrentQueue.freshPage)
    (hfree : ∀ x, h / n ≤ x → x < t / n → page x ≠ p)
    (hinj : Distinct page (h / n) (t / n)) :
    QueueOk n item (Function.update page (t / n) p)
      (Function.update heap q (some { pg with next := some p })) m h t (.linked p) b := by
  obtain ⟨hmod, htail⟩ := ok.push_ok
  have hlink : (span n h t (.linking p (some q)) b).linkTo = t / n := reach_of_mod_eq hmod
  -- the last page is the one at `q`
  obtain ⟨hlt, rfl, -⟩ := ok.linking_alloc
  have hown : h / n < t / n := lt_of_le_of_lt (Nat.le_add_right _ _) hlt
  have hbefore : h / n ≤ t / n - 1 := Nat.le_sub_one_of_lt hown
  have hbefore' : t / n - 1 < t / n := Nat.sub_one_lt (Nat.ne_of_gt (Nat.zero_lt_of_lt hown))
  have hlist := ok.list.linkNext p (by
      rw [hlink]
      change h / n + b.headStep < t / n
      rwa [← tailStep_eq hb]) (by rw [hlink]; exact hq) (reach_mono le_rfl) (span_ordered hn)
  rw [hlink, ← span_link hmod] at hlist
  refine ⟨hlist.congr_cells (span_ordered hn) fun x hx hx' => ?_,
    ⟨hmod, by rw [Function.update_self]⟩, ok.pop_ok_link hn hb hmod p _, ok.le, ok.lt⟩
  -- the new page is as it was set up, the last one has the link, the others are as before
  replace hx' : x < t / n + 1 := by
    rw [span_link hmod p (some (page (t / n - 1)))] at hx'
    exact hx'
  replace hx : h / n ≤ x := hx
  rcases (Nat.lt_succ_iff.mp hx').eq_or_lt with rfl | hlt'
  · rw [Function.update_self, Function.update_self, Function.update_of_ne, hp]
    exact (hfree _ hbefore hbefore').symm
  · rw [Function.update_of_ne hlt'.ne, Function.update_of_ne hlt'.ne]
    exact heap_update hinj hbefore hbefore' hx hlt'

omit [DecidableEq π] in
include hn in
/-- `head_page = p` -/
theorem linkHead (ok : QueueOk n item page heap m h t (.linking p none) b)
    (hb : b.changing = false) (hp : heap p = some ConcurrentQueue.freshPage) :
    QueueOk n item (Function.update page (t / n) p) heap { m with headPage := some p } h t
      (.linked p) b := by
  obtain ⟨hmod, htail⟩ := ok.push_ok
  have hlink : (span n h t (.linking p none) b).linkTo = t / n := reach_of_mod_eq hmod
  -- there is no page
  have hhead : h / n + b.headStep = t / n := by
    have hpage := ok.list.tail_page
    rw [← htail] at hpage
    simp only [span, PushPhase.tailStep, reach_of_mod_eq hmod, Nat.add_zero] at hpage
    split at hpage
    · simp at hpage
    · next hge =>
      rw [tailStep_eq hb] at hge
      exact le_antisymm (ok.headFrom_le hn) (not_lt.mp hge)
  have hlist := ok.list.linkHead p (by rw [hlink]; exact hhead) (reach_mono le_rfl)
    (span_ordered hn)
  rw [hlink, ← span_link hmod] at hlist
  refine ⟨hlist.congr_cells (span_ordered hn) fun x hx hx' => ?_,
    ⟨hmod, by rw [Function.update_self]⟩, ok.pop_ok_link hn hb hmod p _, ok.le, ok.lt⟩
  rcases eq_or_ne x (t / n) with rfl | hne
  · rw [Function.update_self, Function.update_self, hp]
  · rw [Function.update_of_ne hne, Function.update_of_ne hne]

omit [DecidableEq π] in
include hn in
/-- `tail_page = p` -/
theorem setTail (ok : QueueOk n item page heap m h t (.linked p) b) :
    QueueOk n item page heap { m with tailPage := some p } h t (.tailed p) b := by
  obtain ⟨hmod, rfl⟩ := ok.push_ok
  have hlist := ok.list.setTail (by
    change h / n + b.tailStep < reach n t 1
    rw [reach_one]
    exact Nat.lt_succ_of_le
      ((Nat.add_le_add_left tailStep_le _).trans (ok.headFrom_le hn)))
  have hlast : (span n h t (.linked (page (t / n))) b).linkTo - 1 = t / n := by
    change reach n t 1 - 1 = t / n
    rw [reach_one, Nat.add_sub_cancel]
  rw [hlast] at hlist
  exact ⟨hlist, rfl, ok.pop_ok, ok.le, ok.lt⟩

omit [DecidableEq π] in
include hn in
/-- A push that does not open a page finds the page of its item at `tail_page`. -/
theorem tailPage_eq (ok : QueueOk n item page heap m h t .before b) (hmod : t % n ≠ 0) :
    m.tailPage = some (page (t / n)) := by
  have hpage := ok.list.tail_page
  simp only [span, reach_of_mod_ne hmod, Nat.add_sub_cancel] at hpage
  rwa [if_pos (Nat.lt_succ_of_le
    ((Nat.add_le_add_left tailStep_le _).trans (ok.headFrom_le hn)))] at hpage

omit [DecidableEq π] in
/-- `p = tail_page` -/
theorem loadTail (ok : QueueOk n item page heap m h t .before b) (hmod : t % n ≠ 0) :
    QueueOk n item page heap m h t (.tailed (page (t / n))) b := by
  have hspan : span n h t (.tailed (page (t / n))) b = span n h t .before b := by
    simp [span, reach_of_mod_ne hmod, PushPhase.copyStep, PushPhase.markStep]
  have hlink : reach n t (PushPhase.tailed (page (t / n))).linkStep =
      reach n t (PushPhase.before : PushPhase π).linkStep := by
    rw [reach_of_mod_ne hmod, reach_of_mod_ne hmod]
  exact ⟨hspan ▸ ok.list, rfl, hlink ▸ ok.pop_ok, ok.le, ok.lt⟩

omit [DecidableEq π] in
/-- The page that a push writes into is allocated. -/
theorem tailed_alloc (ok : QueueOk n item page heap m h t a b)
    (ha : a = .tailed p ∨ a = .copied p) : ∃ pg, heap p = some pg := by
  have hp : p = page (t / n) := by
    rcases ha with rfl | rfl <;> exact ok.push_ok
  have hstep : a.linkStep = 1 := by
    rcases ha with rfl | rfl <;> rfl
  rw [hp]
  apply ok.alloc (Nat.div_le_div_right ok.le)
  rw [hstep, reach_one]
  exact Nat.lt_succ_self _

include hn in
/-- `copy_item` -/
theorem copy {x : α} (ok : QueueOk n item page heap m h t (.tailed p) b)
    (hpg : heap p = some pg) (hx : item t = some x)
    (hinj : Distinct page (h / n) (t / n + 1)) :
    QueueOk n item page (Function.update heap p (some { pg with
      items := Function.update pg.items (t % n) (some x) })) m h t (.copied p) b := by
  obtain rfl : p = page (t / n) := ok.push_ok
  have hlist : PageList n m _ page item (span n h t (.copied (page (t / n))) b) :=
    ok.list.copy hpg hx
  refine ⟨hlist.congr_cells (span_ordered hn) fun y hy hy' => ?_, rfl, ok.pop_ok, ok.le, ok.lt⟩
  replace hy' : y < t / n + 1 := lt_of_lt_of_eq hy' reach_one
  exact heap_update hinj (Nat.div_le_div_right ok.le) (Nat.lt_succ_self _) hy hy'

include hn in
/-- `p->mask | uintptr_t(1)<<index` -/
theorem mark (ok : QueueOk n item page heap m h t (.copied p) b) (hpg : heap p = some pg)
    (hinj : Distinct page (h / n) (t / n + 1)) :
    QueueOk n item page (Function.update heap p (some { pg with
      mask := pg.mask ||| 1 <<< (t % n) })) m h t .marked b := by
  obtain rfl : p = page (t / n) := ok.push_ok
  have hlist : PageList n m _ page item (span n h t .marked b) := ok.list.mark hpg
  refine ⟨hlist.congr_cells (span_ordered hn) fun y hy hy' => ?_, trivial, ok.pop_ok, ok.le,
    ok.lt⟩
  replace hy' : y < t / n + 1 := lt_of_lt_of_eq hy' reach_one
  exact heap_update hinj (Nat.div_le_div_right ok.le) (Nat.lt_succ_self _) hy hy'

omit [DecidableEq π] in
/-- `tail_counter += n_queue` -/
theorem publishPush (ok : QueueOk n item page heap m h t .marked b) :
    QueueOk n item page heap m h (t + 1) .before b := by
  have hlink : reach n (t + 1) (PushPhase.before : PushPhase π).linkStep =
      reach n t (PushPhase.marked : PushPhase π).linkStep := by
    change reach n (t + 1) 0 = reach n t 1
    rw [reach_succ, reach_one]
  have hspan : span n h (t + 1) .before b = span n h t .marked b := by
    simp only [span, hlink]
    simp [PushPhase.tailStep, PushPhase.copyStep, PushPhase.markStep, reach_succ, reach_one]
  exact ⟨hspan ▸ ok.list, trivial, hlink ▸ ok.pop_ok, Nat.le_succ_of_le ok.le,
    fun hb => Nat.lt_succ_of_lt (ok.lt hb)⟩

end Push

/-! ### Popping -/

section Pop

variable [DecidableEq π] (hn : 0 < n)

omit [DecidableEq π] in
/-- The item is there. -/
theorem fill (ok : QueueOk n item page heap m h t a .before) (hlt : h < t) :
    QueueOk n item page heap m h t a .filled :=
  ⟨ok.list, ok.push_ok, trivial, ok.le, fun _ => hlt⟩

omit [DecidableEq π] in
include hn in
/-- A pop finds the page of its item at `head_page`. -/
theorem headPage_eq (ok : QueueOk n item page heap m h t a .filled) :
    m.headPage = some (page (h / n)) := by
  have hlt : h / n < reach n t a.linkStep := div_lt_reach hn (ok.lt (by simp))
  exact ok.list.head_page.trans (if_pos hlt)

omit [DecidableEq π] in
/-- `page& p = *head_page` -/
theorem loadHead (ok : QueueOk n item page heap m h t a .filled) :
    QueueOk n item page heap m h t a (.reading (page (h / n))) :=
  ⟨ok.list, ok.push_ok, rfl, ok.le, fun _ => ok.lt (by simp)⟩

omit [DecidableEq π] in
include hn in
/-- The page that a pop looks at is allocated. -/
theorem head_alloc (ok : QueueOk n item page heap m h t a b) (hb : b ≠ .before)
    (hp : p = page (h / n)) : ∃ pg, heap p = some pg := by
  rw [hp]
  exact ok.alloc le_rfl (div_lt_reach hn (ok.lt hb))

omit [DecidableEq π] in
/-- The item to pop is marked. -/
theorem marked (ok : QueueOk n item page heap m h t a (.reading p)) (hpg : heap p = some pg) :
    pg.mask.testBit (h % n) = true := by
  obtain rfl : p = page (h / n) := ok.pop_ok
  exact ok.list.masks h pg le_rfl ((ok.lt (by simp)).trans_le (Nat.le_add_right _ _)) hpg

omit [DecidableEq π] in
/-- And it is the right one. -/
theorem item_eq (ok : QueueOk n item page heap m h t a (.reading p)) (hpg : heap p = some pg) :
    pg.items (h % n) = item h := by
  obtain rfl : p = page (h / n) := ok.pop_ok
  exact ok.list.items h pg le_rfl ((ok.lt (by simp)).trans_le (Nat.le_add_right _ _)) hpg

include hn in
/-- `assign_and_destroy_item` -/
theorem take (ok : QueueOk n item page heap m h t a (.reading p)) (hpg : heap p = some pg)
    (hinj : Distinct page (h / n) (reach n t a.linkStep)) :
    QueueOk n item page (Function.update heap p (some { pg with
      items := Function.update pg.items (h % n) none })) m h t a
      (if h % n = n - 1 then .taken p else .passed) := by
  have hlt := ok.lt (by simp)
  obtain rfl : p = page (h / n) := ok.pop_ok
  split
  · next hmod =>
    have hlist : PageList n m _ page item (span n h t a (.taken (page (h / n)))) :=
      ok.list.take hpg
    exact ⟨hlist.congr_cells (span_ordered hn) fun y hy hy' =>
      heap_update hinj le_rfl (div_lt_reach hn hlt) hy hy', ok.push_ok, ⟨rfl, hmod⟩, ok.le,
      fun _ => hlt⟩
  · next hmod =>
    have hlist : PageList n m _ page item (span n h t a .passed) := ok.list.take hpg
    exact ⟨hlist.congr_cells (span_ordered hn) fun y hy hy' =>
      heap_update hinj le_rfl (div_lt_reach hn hlt) hy hy', ok.push_ok, hmod, ok.le,
      fun _ => hlt⟩

omit [DecidableEq π] in
include hn in
/-- `q = p->next` -/
theorem readNext (ok : QueueOk n item page heap m h t a (.taken p)) (hpg : heap p = some pg) :
    QueueOk n item page heap m h t a (.unlinking p pg.next) := by
  obtain ⟨rfl, hmod⟩ := ok.pop_ok
  have hlt := ok.lt (by simp)
  refine ⟨ok.list, ok.push_ok, ⟨⟨rfl, hmod⟩, ?_⟩, ok.le, fun _ => hlt⟩
  exact ok.list.next (h / n) pg le_rfl (div_lt_reach hn hlt) hpg

omit [DecidableEq π] in
/-- `head_page = q` -/
theorem setHead {q : Option π} (ok : QueueOk n item page heap m h t a (.unlinking p q)) :
    QueueOk n item page heap { m with headPage := q } h t a (.headSet p q) := by
  have hlist := ok.list.setHead
  have hq : q = if (span n h t a (.unlinking p q)).headFrom + 1 <
      (span n h t a (.unlinking p q)).linkTo then
      some (page ((span n h t a (.unlinking p q)).headFrom + 1)) else none := ok.pop_ok.2
  rw [← hq] at hlist
  exact ⟨hlist, ok.push_ok, ok.pop_ok, ok.le, fun _ => ok.lt (by simp)⟩

omit [DecidableEq π] in
/-- `tail_page = NULL` behind the last page -/
theorem clearTail {q : Option π} {m' : MicroQueue τ π}
    (ok : QueueOk n item page heap m h t a (.headSet p q)) (ha : a.changing = false)
    (hsome : q ≠ none → m' = m) (hnone : q = none → m' = { m with tailPage := none }) :
    QueueOk n item page heap m' h t a (.unlinked p) := by
  obtain ⟨hp, hq⟩ := ok.pop_ok
  have htail : a.tailStep = a.linkStep := by
    cases a <;> simp_all [PushPhase.changing, PushPhase.tailStep, PushPhase.linkStep]
  have hm : m' = if h / n + 1 < reach n t a.linkStep then m else { m with tailPage := none } := by
    split
    · next hlt => exact hsome (by rw [hq, if_pos hlt]; simp)
    · next hge => exact hnone (by rw [hq, if_neg hge])
  have hlist := ok.list.clearTail (by
    change reach n t a.tailStep = reach n t a.linkStep
    rw [htail]) rfl
  refine ⟨hm ▸ hlist, ?_, hp, ok.le, fun _ => ok.lt (by simp)⟩
  have hpush := ok.push_ok
  cases a with
  | linking | linked => simp [PushPhase.changing] at ha
  | _ => exact hpush

omit [DecidableEq π] in
include hn in
/-- The finalizer stores its ticket into `head_counter`. -/
theorem publishPop (ok : QueueOk n item page heap m h t a b)
    (hb : b = .unlinked p ∨ b = .passed) : QueueOk n item page heap m (h + 1) t a .before := by
  have hlt : h < t := ok.lt (by rcases hb with rfl | rfl <;> simp)
  -- the page that has been taken out is not counted any more
  have hdiv : (h + 1) / n = h / n + b.headStep ∧ b.tailStep = b.headStep := by
    rcases hb with rfl | rfl
    · exact ⟨succ_div_of_mod_eq hn ok.pop_ok.2, rfl⟩
    · exact ⟨succ_div_of_mod_ne hn ok.pop_ok, rfl⟩
  have htaken : b.takenStep = 1 := by
    rcases hb with rfl | rfl <;> rfl
  have hlist := ok.list.drop ((h + 1) / n) (h + 1)
    (Nat.div_le_div_right (Nat.le_succ h)) (Nat.le_succ h)
  have hspan : span n (h + 1) t a .before =
      { span n h t a b with ownFrom := (h + 1) / n, maskFrom := h + 1 } := by
    simp only [span, htaken, hdiv.2, hdiv.1]
    rfl
  rw [← hspan] at hlist
  exact ⟨hlist, ok.push_ok, trivial, hlt, fun hne => absurd rfl hne⟩

end Pop

end QueueOk

end StringSampleSort.Tbb
