import StringSampleSort.Tbb.ConcurrentQueue
import Mathlib.Data.Nat.Bitwise

/-!
# The pages of a micro queue

A micro queue keeps its items in a singly linked list of pages.  Its pushers link pages at
one end and fill them, its poppers take items and then pages from the other end.  Here the
pages are numbered in the order in which they are linked, and a `Span` says how far each
field of the list has got; the two ends move in several steps, so that for a while the
fields disagree.

## Main results

- `PageList`: what the fields of a micro queue and of its pages hold
- `PageList.linkNext`, `PageList.linkHead`, `PageList.setTail`, `PageList.copy`,
  `PageList.mark`: what a push does
- `PageList.take`, `PageList.setHead`, `PageList.clearTail`, `PageList.drop`: what a pop does
-/

namespace StringSampleSort.Tbb

/-- Which pages and items the fields speak of. -/
structure Span where
  /-- the first page that is not given back -/
  ownFrom : ℕ
  /-- the page that `head_page` points to -/
  headFrom : ℕ
  /-- `tail_page` is not null from this page on -/
  tailFrom : ℕ
  /-- the end of the pages that are linked by `next` -/
  linkTo : ℕ
  /-- the page that `tail_page` points to is the one before -/
  tailTo : ℕ
  /-- the first item that has not been moved out -/
  takenTo : ℕ
  /-- the end of the items that are there -/
  copiedTo : ℕ
  /-- the first item whose mark may still be read -/
  maskFrom : ℕ
  /-- the end of the items that are marked -/
  markedTo : ℕ

/-- Only pages in use are spoken of. -/
structure Span.Ordered (n : ℕ) (v : Span) : Prop where
  own_head : v.ownFrom ≤ v.headFrom
  own_taken : v.ownFrom ≤ v.takenTo / n
  own_mask : v.ownFrom ≤ v.maskFrom / n
  copied_link : ∀ j, j < v.copiedTo → j / n < v.linkTo
  marked_link : ∀ j, j < v.markedTo → j / n < v.linkTo

/-- The list of the pages of a micro queue with `n` items in each.  Page `b` has the address
`page b` and the contents `cells b`, and item number `j` is `item j`. -/
structure PageList {τ π α : Type*} (n : ℕ) (m : MicroQueue τ π) (cells : ℕ → Option (Page π α))
    (page : ℕ → π) (item : ℕ → Option α) (v : Span) : Prop where
  head_page : m.headPage = if v.headFrom < v.linkTo then some (page v.headFrom) else none
  tail_page : m.tailPage = if v.tailFrom < v.tailTo then some (page (v.tailTo - 1)) else none
  alloc : ∀ b, v.ownFrom ≤ b → b < v.linkTo → ∃ pg, cells b = some pg
  next : ∀ b pg, v.headFrom ≤ b → b < v.linkTo → cells b = some pg →
    pg.next = if b + 1 < v.linkTo then some (page (b + 1)) else none
  items : ∀ j pg, v.takenTo ≤ j → j < v.copiedTo → cells (j / n) = some pg →
    pg.items (j % n) = item j
  masks : ∀ j pg, v.maskFrom ≤ j → j < v.markedTo → cells (j / n) = some pg →
    pg.mask.testBit (j % n) = true

namespace PageList

variable {τ π α : Type*} {n : ℕ} {m : MicroQueue τ π} {cells cells' : ℕ → Option (Page π α)}
  {page : ℕ → π} {item item' : ℕ → Option α} {v : Span}

/-- Items of one page are told apart by their places. -/
private theorem place_ne {j j' : ℕ} (hne : j' ≠ j) (hdiv : j' / n = j / n) :
    j' % n ≠ j % n := by
  intro hmod
  apply hne
  rw [← Nat.div_add_mod j' n, ← Nat.div_add_mod j n, hdiv, hmod]

/-- Only the pages in use matter. -/
theorem congr_cells (h : PageList n m cells page item v) (hv : v.Ordered n)
    (heq : ∀ b, v.ownFrom ≤ b → b < v.linkTo → cells' b = cells b) :
    PageList n m cells' page item v where
  head_page := h.head_page
  tail_page := h.tail_page
  alloc b hb hb' := by
    rw [heq b hb hb']
    exact h.alloc b hb hb'
  next b pg hb hb' hpg := h.next b pg hb hb' (heq b (hv.own_head.trans hb) hb' ▸ hpg)
  items j pg hj hj' hpg := by
    apply h.items j pg hj hj'
    rw [← hpg]
    exact (heq _ (hv.own_taken.trans (Nat.div_le_div_right hj)) (hv.copied_link j hj')).symm
  masks j pg hj hj' hpg := by
    apply h.masks j pg hj hj'
    rw [← hpg]
    exact (heq _ (hv.own_mask.trans (Nat.div_le_div_right hj)) (hv.marked_link j hj')).symm

/-- Only the items that are there matter. -/
theorem congr_item (h : PageList n m cells page item v)
    (heq : ∀ j, v.takenTo ≤ j → j < v.copiedTo → item' j = item j) :
    PageList n m cells page item' v :=
  { h with items := fun j pg hj hj' hpg => by rw [heq j hj hj', h.items j pg hj hj' hpg] }

/-- The counters and the mutex do not matter. -/
theorem congr_micro {m' : MicroQueue τ π} (h : PageList n m cells page item v)
    (hhead : m'.headPage = m.headPage) (htail : m'.tailPage = m.tailPage) :
    PageList n m' cells page item v :=
  { h with head_page := hhead.trans h.head_page, tail_page := htail.trans h.tail_page }

/-- One page changes where nobody looks. -/
theorem updateCell (h : PageList n m cells page item v) {b₀ : ℕ} {pg : Page π α} (pg' : Page π α)
    (hpg : cells b₀ = some pg) (hnext : pg'.next = pg.next)
    (hitems : ∀ j, v.takenTo ≤ j → j < v.copiedTo → j / n = b₀ →
      pg'.items (j % n) = pg.items (j % n))
    (hmask : ∀ i, pg.mask.testBit i = true → pg'.mask.testBit i = true) :
    PageList n m (Function.update cells b₀ (some pg')) page item v where
  head_page := h.head_page
  tail_page := h.tail_page
  alloc b hb hb' := by
    rcases eq_or_ne b b₀ with rfl | hne
    · exact ⟨pg', Function.update_self ..⟩
    · rw [Function.update_of_ne hne]
      exact h.alloc b hb hb'
  next b pg₁ hb hb' hpg₁ := by
    rcases eq_or_ne b b₀ with rfl | hne
    · rw [Function.update_self, Option.some_inj] at hpg₁
      rw [← hpg₁, hnext, h.next b pg hb hb' hpg]
    · rw [Function.update_of_ne hne] at hpg₁
      exact h.next b pg₁ hb hb' hpg₁
  items j pg₁ hj hj' hpg₁ := by
    rcases eq_or_ne (j / n) b₀ with rfl | hne
    · rw [Function.update_self, Option.some_inj] at hpg₁
      rw [← hpg₁, hitems j hj hj' rfl, h.items j pg hj hj' hpg]
    · rw [Function.update_of_ne hne] at hpg₁
      exact h.items j pg₁ hj hj' hpg₁
  masks j pg₁ hj hj' hpg₁ := by
    rcases eq_or_ne (j / n) b₀ with rfl | hne
    · rw [Function.update_self, Option.some_inj] at hpg₁
      rw [← hpg₁]
      exact hmask _ (h.masks j pg hj hj' hpg)
    · rw [Function.update_of_ne hne] at hpg₁
      exact h.masks j pg₁ hj hj' hpg₁

/-! ## Pushing -/

/-- The new page is linked behind the last one. -/
theorem linkNext (h : PageList n m cells page item v) {pg : Page π α} (p : π)
    (hhead : v.headFrom < v.linkTo) (hlast : cells (v.linkTo - 1) = some pg)
    (htail : v.tailTo ≤ v.linkTo) (hv : v.Ordered n) :
    PageList n m (Function.update (Function.update cells (v.linkTo - 1)
        (some { pg with next := some p })) v.linkTo (some ConcurrentQueue.freshPage))
      (Function.update page v.linkTo p) item { v with linkTo := v.linkTo + 1 } := by
  -- apart from the link of the last page, the pages before are as they were
  have hbefore : ∀ b pg', b < v.linkTo → Function.update (Function.update cells (v.linkTo - 1)
      (some { pg with next := some p })) v.linkTo (some ConcurrentQueue.freshPage) b =
      some pg' → ∃ pg'', cells b = some pg'' ∧ pg'.items = pg''.items ∧
        pg'.mask = pg''.mask ∧ (b + 1 < v.linkTo → pg'.next = pg''.next) := by
    intro b pg' hb hpg'
    rw [Function.update_of_ne hb.ne] at hpg'
    rcases eq_or_ne b (v.linkTo - 1) with rfl | hne
    · rw [Function.update_self, Option.some_inj] at hpg'
      subst hpg'
      exact ⟨pg, hlast, rfl, rfl, fun hlt => by omega⟩
    · rw [Function.update_of_ne hne] at hpg'
      exact ⟨pg', hpg', rfl, rfl, fun _ => rfl⟩
  constructor
  · rw [h.head_page, if_pos hhead, if_pos (Nat.lt_succ_of_lt hhead),
      Function.update_of_ne hhead.ne]
  · rw [h.tail_page]
    apply ite_congr rfl _ fun _ => rfl
    intro (hlt : v.tailFrom < v.tailTo)
    have hne : v.tailTo - 1 ≠ v.linkTo := by omega
    exact congrArg some (Function.update_of_ne hne ..).symm
  · intro b hb hb'
    rcases (Nat.lt_succ_iff.mp hb').eq_or_lt with rfl | hlt
    · exact ⟨_, Function.update_self ..⟩
    · obtain ⟨pg', hpg'⟩ := h.alloc b hb hlt
      rw [Function.update_of_ne hlt.ne]
      rcases eq_or_ne b (v.linkTo - 1) with rfl | hne
      · exact ⟨_, Function.update_self ..⟩
      · exact ⟨pg', by rw [Function.update_of_ne hne, hpg']⟩
  · intro b pg' hb hb' hpg'
    rcases (Nat.lt_succ_iff.mp hb').eq_or_lt with rfl | hlt
    · -- the new page is the last one
      rw [Function.update_self, Option.some_inj] at hpg'
      subst hpg'
      simp [ConcurrentQueue.freshPage]
    · obtain ⟨pg'', hpg'', -, -, hnext⟩ := hbefore b pg' hlt hpg'
      rw [if_pos (Nat.succ_lt_succ hlt)]
      rcases (Nat.succ_le_of_lt hlt).eq_or_lt with heq | hlt'
      · -- the page that was last
        obtain rfl : b = v.linkTo - 1 := by omega
        rw [Function.update_of_ne hlt.ne, Function.update_self, Option.some_inj] at hpg'
        subst hpg'
        have hlast' : v.linkTo - 1 + 1 = v.linkTo := heq
        rw [hlast', Function.update_self]
      · rw [hnext hlt', h.next b pg'' hb hlt hpg'', if_pos hlt',
          Function.update_of_ne hlt'.ne]
  · intro j pg' hj hj' hpg'
    obtain ⟨pg'', hpg'', hitems, -⟩ := hbefore _ pg' (hv.copied_link j hj') hpg'
    rw [hitems, h.items j pg'' hj hj' hpg'']
  · intro j pg' hj hj' hpg'
    obtain ⟨pg'', hpg'', -, hmask, -⟩ := hbefore _ pg' (hv.marked_link j hj') hpg'
    rw [hmask, h.masks j pg'' hj hj' hpg'']

/-- The new page is the only one. -/
theorem linkHead (h : PageList n m cells page item v) (p : π) (hhead : v.headFrom = v.linkTo)
    (htail : v.tailTo ≤ v.linkTo) (hv : v.Ordered n) :
    PageList n { m with headPage := some p }
      (Function.update cells v.linkTo (some ConcurrentQueue.freshPage))
      (Function.update page v.linkTo p) item { v with linkTo := v.linkTo + 1 } where
  head_page := by
    rw [if_pos (hhead ▸ Nat.lt_succ_self _)]
    simp [hhead]
  tail_page := by
    rw [h.tail_page]
    apply ite_congr rfl _ fun _ => rfl
    intro (hlt : v.tailFrom < v.tailTo)
    have hne : v.tailTo - 1 ≠ v.linkTo := by omega
    exact congrArg some (Function.update_of_ne hne ..).symm
  alloc b hb hb' := by
    rcases (Nat.lt_succ_iff.mp hb').eq_or_lt with rfl | hlt
    · exact ⟨_, Function.update_self ..⟩
    · rw [Function.update_of_ne hlt.ne]
      exact h.alloc b hb hlt
  next b pg hb hb' hpg := by
    obtain rfl : b = v.linkTo := le_antisymm (Nat.lt_succ_iff.mp hb') (hhead ▸ hb)
    rw [Function.update_self, Option.some_inj] at hpg
    subst hpg
    simp [ConcurrentQueue.freshPage]
  items j pg hj hj' hpg := by
    rw [Function.update_of_ne (hv.copied_link j hj').ne] at hpg
    exact h.items j pg hj hj' hpg
  masks j pg hj hj' hpg := by
    rw [Function.update_of_ne (hv.marked_link j hj').ne] at hpg
    exact h.masks j pg hj hj' hpg

/-- `tail_page` follows. -/
theorem setTail (h : PageList n m cells page item v) (htail : v.tailFrom < v.linkTo) :
    PageList n { m with tailPage := some (page (v.linkTo - 1)) } cells page item
      { v with tailTo := v.linkTo } :=
  { h with tail_page := by rw [if_pos htail] }

/-- The next item is copied to its place. -/
theorem copy (h : PageList n m cells page item v) {pg : Page π α} {x : α}
    (hpg : cells (v.copiedTo / n) = some pg) (hx : item v.copiedTo = some x) :
    PageList n m (Function.update cells (v.copiedTo / n) (some { pg with
        items := Function.update pg.items (v.copiedTo % n) (some x) })) page item
      { v with copiedTo := v.copiedTo + 1 } := by
  -- the places of the items that are there already stay as they are
  have hold := h.updateCell { pg with
      items := Function.update pg.items (v.copiedTo % n) (some x) } hpg rfl
    (fun j _ hj hdiv => Function.update_of_ne (place_ne hj.ne hdiv) ..) fun _ hi => hi
  refine { hold with items := fun j pg' hj hj' hpg' => ?_ }
  rcases (Nat.lt_succ_iff.mp hj').eq_or_lt with rfl | hlt
  · rw [Function.update_self, Option.some_inj] at hpg'
    rw [← hpg', hx]
    exact Function.update_self ..
  · exact hold.items j pg' hj hlt hpg'

/-- The next item is marked. -/
theorem mark (h : PageList n m cells page item v) {pg : Page π α}
    (hpg : cells (v.markedTo / n) = some pg) :
    PageList n m (Function.update cells (v.markedTo / n) (some { pg with
        mask := pg.mask ||| 1 <<< (v.markedTo % n) })) page item
      { v with markedTo := v.markedTo + 1 } := by
  have hold := h.updateCell { pg with
      mask := pg.mask ||| 1 <<< (v.markedTo % n) } hpg rfl (fun _ _ _ _ => rfl)
    fun i hi => by rw [Nat.testBit_or, hi, Bool.true_or]
  refine { hold with masks := fun j pg' hj hj' hpg' => ?_ }
  rcases (Nat.lt_succ_iff.mp hj').eq_or_lt with rfl | hlt
  · rw [Function.update_self, Option.some_inj] at hpg'
    simp [← hpg', Nat.testBit_shiftLeft]
  · exact hold.masks j pg' hj hlt hpg'

/-! ## Popping -/

/-- The next item is moved out. -/
theorem take (h : PageList n m cells page item v) {pg : Page π α}
    (hpg : cells (v.takenTo / n) = some pg) :
    PageList n m (Function.update cells (v.takenTo / n) (some { pg with
        items := Function.update pg.items (v.takenTo % n) none })) page item
      { v with takenTo := v.takenTo + 1 } := by
  have hrest : PageList n m cells page item { v with takenTo := v.takenTo + 1 } :=
    { h with items := fun j pg' hj => h.items j pg' (Nat.le_of_succ_le hj) }
  refine hrest.updateCell _ hpg rfl (fun j hj _ hdiv => ?_) fun _ hi => hi
  exact Function.update_of_ne (place_ne (Nat.lt_of_succ_le hj).ne' hdiv) ..

/-- `head_page` goes on to the page that `next` of the first one names. -/
theorem setHead (h : PageList n m cells page item v) :
    PageList n { m with headPage :=
        if v.headFrom + 1 < v.linkTo then some (page (v.headFrom + 1)) else none }
      cells page item { v with headFrom := v.headFrom + 1 } :=
  { h with
    head_page := rfl
    next := fun b pg hb => h.next b pg (Nat.le_of_succ_le hb) }

/-- `tail_page` becomes null if no page is left. -/
theorem clearTail (h : PageList n m cells page item v) (htail : v.tailTo = v.linkTo)
    (hhead : v.headFrom = v.tailFrom + 1) :
    PageList n (if v.headFrom < v.linkTo then m else { m with tailPage := none })
      cells page item { v with tailFrom := v.headFrom } := by
  split
  · next hlt =>
    refine { h with tail_page := ?_ }
    rw [h.tail_page, if_pos (by omega)]
    exact (if_pos (htail ▸ hlt)).symm
  · next hge =>
    refine { h with tail_page := ?_ }
    exact (if_neg (htail ▸ hge)).symm

/-- What has been taken need not be kept any more. -/
theorem drop (h : PageList n m cells page item v) (own mask : ℕ) (hown : v.ownFrom ≤ own)
    (hmask : v.maskFrom ≤ mask) :
    PageList n m cells page item { v with ownFrom := own, maskFrom := mask } :=
  { h with
    alloc := fun b hb => h.alloc b (hown.trans hb)
    masks := fun j pg hj => h.masks j pg (hmask.trans hj) }

end PageList

end StringSampleSort.Tbb
