import Mathlib.Data.Nat.Bitwise
import Mathlib.Data.Fin.Basic
import Mathlib.Tactic.IntervalCases

/-!
# Tickets of the concurrent queue

`concurrent_queue` of `minitbb/tbb/internal/_concurrent_queue_impl.h` numbers its items by
tickets and spreads them over eight micro queues, in each of which they fill page after
page.  This module has the arithmetic of tickets and the proof that no two tickets share a
place.  The `size_t` of a ticket is a natural number here: no run has `2^64` pushes.

## Main results

- `Tbb.ticket_index`, `Tbb.index_ticket`: tickets are pairs of a micro queue and a place in
  it
- `Tbb.pageIndex_eq`: the mask of `modulo_power_of_two` computes a remainder
-/

namespace StringSampleSort.Tbb

/-- `n_queue`, "must be power of 2". -/
abbrev nQueue : ℕ := 8

/-- `phi`, "approximately n_queue/golden ratio". -/
abbrev phi : ℕ := 3

/-- `concurrent_queue_rep::index`. -/
def index (k : ℕ) : Fin nQueue := ⟨k * phi % nQueue, Nat.mod_lt _ (by decide)⟩

/-- `k &= -n_queue`, the value that the counters of a micro queue take. -/
def base (k : ℕ) : ℕ := k / nQueue * nQueue

/-- `items_per_page`, chosen by the constructor from the size of an item. -/
def itemsPerPage (itemSize : ℕ) : ℕ :=
  if itemSize ≤ 8 then 32
  else if itemSize ≤ 16 then 16
  else if itemSize ≤ 32 then 8
  else if itemSize ≤ 64 then 4
  else if itemSize ≤ 128 then 2
  else 1

/-- `modulo_power_of_two`. -/
def moduloPowerOfTwo (arg divisor : ℕ) : ℕ := arg &&& (divisor - 1)

/-- The place of a ticket in its page. -/
def pageIndex (itemSize : ℕ) (k : ℕ) : ℕ :=
  moduloPowerOfTwo (k / nQueue) (itemsPerPage itemSize)

/-- The ticket of the `j`-th item of micro queue `i`. -/
def ticket (i : Fin nQueue) (j : ℕ) : ℕ := j * nQueue + i * phi % nQueue

/-! ## A ticket is a micro queue and a place in it -/

@[simp] theorem ticket_div (i : Fin nQueue) (j : ℕ) : ticket i j / nQueue = j := by
  simp only [ticket, nQueue, phi]
  omega

@[simp] theorem index_ticket (i : Fin nQueue) (j : ℕ) : index (ticket i j) = i := by
  apply Fin.ext
  simp only [index, ticket, nQueue, phi]
  omega

/-- Since `phi` is its own inverse modulo `n_queue`, no ticket is left out. -/
@[simp] theorem ticket_index (k : ℕ) : ticket (index k) (k / nQueue) = k := by
  simp only [index, ticket, nQueue, phi]
  omega

theorem ticket_lt_ticket {i : Fin nQueue} {j j' : ℕ} (h : j < j') :
    ticket i j < ticket i j' := by
  simp only [ticket, nQueue, phi]
  omega

/-- The counter of a micro queue has the value awaited by `k` when as many turns as the
place of `k` are over. -/
theorem base_eq_iff {c : ℕ} {k : ℕ} (hc : nQueue ∣ c) :
    c = base k ↔ c / nQueue = k / nQueue := by
  unfold base
  obtain ⟨m, rfl⟩ := hc
  simp only [nQueue]
  omega

@[simp] theorem base_add_div (k : ℕ) : (base k + nQueue) / nQueue = k / nQueue + 1 := by
  simp [base]

theorem dvd_base (k : ℕ) : nQueue ∣ base k := Nat.dvd_mul_left _ _

/-! ## Places in a page -/

theorem itemsPerPage_eq_pow (itemSize : ℕ) : ∃ e ≤ 5, itemsPerPage itemSize = 2 ^ e := by
  unfold itemsPerPage
  split_ifs
  · exact ⟨5, by decide, rfl⟩
  · exact ⟨4, by decide, rfl⟩
  · exact ⟨3, by decide, rfl⟩
  · exact ⟨2, by decide, rfl⟩
  · exact ⟨1, by decide, rfl⟩
  · exact ⟨0, by decide, rfl⟩

theorem itemsPerPage_pos (itemSize : ℕ) : 0 < itemsPerPage itemSize := by
  obtain ⟨e, -, he⟩ := itemsPerPage_eq_pow itemSize
  rw [he]
  exact Nat.two_pow_pos e

theorem pageIndex_eq (itemSize : ℕ) (k : ℕ) :
    pageIndex itemSize k = k / nQueue % itemsPerPage itemSize := by
  obtain ⟨e, -, he⟩ := itemsPerPage_eq_pow itemSize
  rw [pageIndex, moduloPowerOfTwo, he, Nat.and_two_pow_sub_one_eq_mod]

end StringSampleSort.Tbb
