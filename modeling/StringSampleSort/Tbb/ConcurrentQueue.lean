import StringSampleSort.Library.AtomicObject
import StringSampleSort.Tbb.Ticket

/-!
# The concurrent queue

Model of the lock-free queue that holds the jobs: `strict_ppl::concurrent_queue` of
`minitbb/tbb/concurrent_queue.h`, with `concurrent_queue_base_v3`, `micro_queue` and
`micro_queue_pop_finalizer` of `minitbb/tbb/internal/_concurrent_queue_impl.h`.  Any number
of threads call `push`, `try_pop` and `empty`; every access to shared memory is a step of
its own, and the steps of the threads are interleaved in any order.

Memory is explicit: a page is got from an address that is free at that time, possibly one
that another page had before, and an access to a page that is not allocated sends the
thread to the program point `fault`.  Allocation and the copying of items do not fail here.

## Main results

- `ConcurrentQueue.threadStep`: the next access of a thread
- `ConcurrentQueue.system`: all interleavings
- `ConcurrentQueue.fifo`: the queue that the threads are to believe in
-/

namespace StringSampleSort.Tbb

open Library

/-! ## Memory -/

/-- `page`, with the items that follow it.  An item that is not constructed, or has been
destroyed, is `none`. -/
structure Page (π α : Type*) where
  next : Option π
  mask : ℕ
  items : ℕ → Option α

/-- `micro_queue`.  A page pointer is `none` when it is `NULL`, and `page_mutex` has the
thread that holds it. -/
structure MicroQueue (τ π : Type*) where
  headPage : Option π
  headCounter : ℕ
  tailPage : Option π
  tailCounter : ℕ
  pageMutex : Option τ

/-! ## Threads -/

/-- The thread-safe operations. -/
inductive Op (α : Type*) where
  | push (item : α)
  | tryPop
  | empty
  deriving DecidableEq

/-- What they return; `try_pop` returns `false` or assigns an item. -/
inductive Result (α : Type*) where
  | pushed
  | popped (dst : Option α)
  | isEmpty (b : Bool)
  deriving DecidableEq

/-- Program points.  A local variable is an argument: the ticket `k`, the page `p`, the
page `q` read before, the item that has been moved to `*dst`. -/
inductive Pc (π α : Type*) where
  /-- in no call -/
  | idle
  /-- about to return -/
  | returned (r : Result α)
  /-- behind an access to a page that is not there, or behind an exception -/
  | fault
  -- `internal_push`
  | fetchTail (item : α)
  -- `micro_queue::push`
  | pushAllocate (item : α) (k : ℕ)
  | pushTurn (item : α) (k : ℕ) (p : Option π)
  | pushLock (item : α) (k : ℕ) (p : π)
  | pushReadTail (item : α) (k : ℕ) (p : π)
  | pushLink (item : α) (k : ℕ) (p : π) (q : Option π)
  | pushSetTail (item : α) (k : ℕ) (p : π)
  | pushUnlock (item : α) (k : ℕ) (p : π)
  | pushLoadTail (item : α) (k : ℕ)
  | pushCopy (item : α) (k : ℕ) (p : π)
  | pushMask (k : ℕ) (p : π)
  | pushPublish (k : ℕ)
  -- `internal_try_pop`
  | popHead
  | popTail (k : ℕ)
  | popCas (k : ℕ)
  -- `micro_queue::pop`
  | popTurn (k : ℕ)
  | popFilled (k : ℕ)
  | popPage (k : ℕ)
  | popMask (k : ℕ) (p : π)
  | popItem (k : ℕ) (p : π)
  -- `~micro_queue_pop_finalizer`
  | popLock (k : ℕ) (p : π) (dst : Option α)
  | popReadNext (k : ℕ) (p : π) (dst : Option α)
  | popSetHead (k : ℕ) (p : π) (q : Option π) (dst : Option α)
  | popSetTail (k : ℕ) (p : π) (q : Option π) (dst : Option α)
  | popUnlock (k : ℕ) (p : π) (dst : Option α)
  | popPublish (k : ℕ) (p : Option π) (dst : Option α)
  | popFree (p : π) (dst : Option α)
  -- `internal_empty`
  | emptyTail
  | emptyHead (tc : ℕ)
  | emptyCheck (tc hc : ℕ)
  | emptyInvalid (tc hc : ℕ)
  deriving DecidableEq

/-! ## The queue -/

/-- `concurrent_queue_rep`, the memory, and the threads. -/
structure ConcurrentQueue (τ π α : Type*) where
  headCounter : ℕ
  tailCounter : ℕ
  nInvalidEntries : ℤ
  array : Fin nQueue → MicroQueue τ π
  heap : π → Option (Page π α)
  pc : τ → Pc π α

namespace ConcurrentQueue

variable {τ π α : Type*} [DecidableEq τ] [DecidableEq π]

/-- `choose`. -/
def choose (s : ConcurrentQueue τ π α) (k : ℕ) : MicroQueue τ π := s.array (index k)

/-- Thread `t` moves to another program point. -/
def goto (s : ConcurrentQueue τ π α) (t : τ) (p : Pc π α) : ConcurrentQueue τ π α :=
  { s with pc := Function.update s.pc t p }

/-- The micro queue of ticket `k` becomes `m`. -/
def setMicro (s : ConcurrentQueue τ π α) (k : ℕ) (m : MicroQueue τ π) :
    ConcurrentQueue τ π α :=
  { s with array := Function.update s.array (index k) m }

/-- The memory at `p` becomes `page`, or free. -/
def setPage (s : ConcurrentQueue τ π α) (p : π) (page : Option (Page π α)) :
    ConcurrentQueue τ π α :=
  { s with heap := Function.update s.heap p page }

/-- Thread `t` goes on with the page at `p`, unless there is none. -/
def access (s : ConcurrentQueue τ π α) (t : τ) (p : π)
    (f : Page π α → ConcurrentQueue τ π α) : ConcurrentQueue τ π α :=
  match s.heap p with
  | some page => f page
  | none => s.goto t .fault

/-- The finalizer starts: the last item of a page takes the page out. -/
def finalize (itemSize : ℕ) (k : ℕ) (p : π) (dst : Option α) : Pc π α :=
  if pageIndex itemSize k = itemsPerPage itemSize - 1 then .popLock k p dst
  else .popPublish k none dst

/-- `while( !pop(..) )`: without an item, `internal_try_pop` starts again. -/
def afterPop (dst : Option α) : Pc π α :=
  match dst with
  | some item => .returned (.popped (some item))
  | none => .popHead

/-- The finalizer frees the page that it has taken out. -/
def afterPublish (p : Option π) (dst : Option α) : Pc π α :=
  match p with
  | some p => .popFree p dst
  | none => afterPop dst

/-- A page as `push` sets it up. -/
def freshPage : Page π α := { next := none, mask := 0, items := fun _ => none }

/-- The next step of thread `t`, if it does not wait.  A page that it allocates gets the
address `fresh`. -/
def threadStep (itemSize : ℕ) (s : ConcurrentQueue τ π α) (t : τ) (fresh : π) :
    Option (ConcurrentQueue τ π α) :=
  match s.pc t with
  | .idle | .returned _ | .fault => none
  -- ticket k = r.tail_counter++
  | .fetchTail item =>
    some ({ s with tailCounter := s.tailCounter + 1 }.goto t (.pushAllocate item s.tailCounter))
  | .pushAllocate item k =>
    if pageIndex itemSize k = 0 then
      match s.heap fresh with
      | none => some ((s.setPage fresh (some freshPage)).goto t (.pushTurn item k (some fresh)))
      | some _ => none
    else some (s.goto t (.pushTurn item k none))
  -- spin_wait_until_my_turn
  | .pushTurn item k p =>
    if (s.choose k).tailCounter = base k then
      match p with
      | some p => some (s.goto t (.pushLock item k p))
      | none => some (s.goto t (.pushLoadTail item k))
    else if (s.choose k).tailCounter % 2 = 1 then some (s.goto t .fault)
    else none
  | .pushLock item k p =>
    if (s.choose k).pageMutex = none then
      some ((s.setMicro k { s.choose k with pageMutex := some t }).goto t
        (.pushReadTail item k p))
    else none
  | .pushReadTail item k p => some (s.goto t (.pushLink item k p (s.choose k).tailPage))
  | .pushLink item k p (some q) =>
    some (s.access t q fun page =>
      (s.setPage q (some { page with next := some p })).goto t (.pushSetTail item k p))
  | .pushLink item k p none =>
    some ((s.setMicro k { s.choose k with headPage := some p }).goto t (.pushSetTail item k p))
  | .pushSetTail item k p =>
    some ((s.setMicro k { s.choose k with tailPage := some p }).goto t (.pushUnlock item k p))
  | .pushUnlock item k p =>
    some ((s.setMicro k { s.choose k with pageMutex := none }).goto t (.pushCopy item k p))
  | .pushLoadTail item k =>
    match (s.choose k).tailPage with
    | some p => some (s.goto t (.pushCopy item k p))
    | none => some (s.goto t .fault)
  | .pushCopy item k p =>
    some (s.access t p fun page =>
      (s.setPage p (some { page with
        items := Function.update page.items (pageIndex itemSize k) (some item) })).goto t
        (.pushMask k p))
  | .pushMask k p =>
    some (s.access t p fun page =>
      (s.setPage p (some { page with
        mask := page.mask ||| 1 <<< pageIndex itemSize k })).goto t (.pushPublish k))
  | .pushPublish k =>
    some ((s.setMicro k { s.choose k with
      tailCounter := (s.choose k).tailCounter + nQueue }).goto t (.returned .pushed))
  | .popHead => some (s.goto t (.popTail s.headCounter))
  | .popTail k =>
    -- Queue is empty
    if s.tailCounter ≤ k then some (s.goto t (.returned (.popped none)))
    else some (s.goto t (.popCas k))
  | .popCas k =>
    if s.headCounter = k then some ({ s with headCounter := k + 1 }.goto t (.popTurn k))
    -- Another thread snatched the item, retry.
    else some (s.goto t (.popTail s.headCounter))
  | .popTurn k =>
    if (s.choose k).headCounter = base k then some (s.goto t (.popFilled k)) else none
  | .popFilled k =>
    if (s.choose k).tailCounter = base k then none else some (s.goto t (.popPage k))
  | .popPage k =>
    match (s.choose k).headPage with
    | some p => some (s.goto t (.popMask k p))
    | none => some (s.goto t .fault)
  | .popMask k p =>
    some (s.access t p fun page =>
      if page.mask &&& 1 <<< pageIndex itemSize k ≠ 0 then s.goto t (.popItem k p)
      else { s with nInvalidEntries := s.nInvalidEntries - 1 }.goto t
        (finalize itemSize k p none))
  -- assign_and_destroy_item
  | .popItem k p =>
    some (s.access t p fun page =>
      match page.items (pageIndex itemSize k) with
      | some item =>
        (s.setPage p (some { page with
          items := Function.update page.items (pageIndex itemSize k) none })).goto t
          (finalize itemSize k p (some item))
      | none => s.goto t .fault)
  | .popLock k p dst =>
    if (s.choose k).pageMutex = none then
      some ((s.setMicro k { s.choose k with pageMutex := some t }).goto t
        (.popReadNext k p dst))
    else none
  | .popReadNext k p dst =>
    some (s.access t p fun page => s.goto t (.popSetHead k p page.next dst))
  | .popSetHead k p q dst =>
    some ((s.setMicro k { s.choose k with headPage := q }).goto t (.popSetTail k p q dst))
  | .popSetTail k p (some _) dst => some (s.goto t (.popUnlock k p dst))
  | .popSetTail k p none dst =>
    some ((s.setMicro k { s.choose k with tailPage := none }).goto t (.popUnlock k p dst))
  | .popUnlock k p dst =>
    some ((s.setMicro k { s.choose k with pageMutex := none }).goto t
      (.popPublish k (some p) dst))
  | .popPublish k p dst =>
    some ((s.setMicro k { s.choose k with headCounter := base k + nQueue }).goto t
      (afterPublish p dst))
  | .popFree p dst =>
    some (s.access t p fun _ => (s.setPage p none).goto t (afterPop dst))
  | .emptyTail => some (s.goto t (.emptyHead s.tailCounter))
  | .emptyHead tc => some (s.goto t (.emptyCheck tc s.headCounter))
  | .emptyCheck tc hc =>
    if tc = s.tailCounter then some (s.goto t (.emptyInvalid tc hc))
    else some (s.goto t (.returned (.isEmpty false)))
  | .emptyInvalid tc hc =>
    some (s.goto t (.returned (.isEmpty (decide ((tc : ℤ) = hc + s.nInvalidEntries)))))

/-- The first program point of a call. -/
def entry : Op α → Pc π α
  | .push item => .fetchTail item
  | .tryPop => .popHead
  | .empty => .emptyTail

/-- A thread calls, returns, or takes its next step. -/
inductive Label (τ π α : Type*) where
  | event (e : ObjectEvent τ (Op α) (Result α))
  | step (t : τ) (fresh : π)

/-- The calls and returns are what is seen. -/
def Label.visible : Label τ π α → Option (ObjectEvent τ (Op α) (Result α))
  | .event e => some e
  | .step _ _ => none

/-- The queue behind the constructor: all zero. -/
def start : ConcurrentQueue τ π α where
  headCounter := 0
  tailCounter := 0
  nInvalidEntries := 0
  array _ := ⟨none, 0, none, 0, none⟩
  heap _ := none
  pc _ := .idle

/-- What a label does, if it can be taken. -/
def next (itemSize : ℕ) (s : ConcurrentQueue τ π α) :
    Label τ π α → ConcurrentQueue τ π α → Prop
  | .event (.call t op), s' => s.pc t = .idle ∧ s' = s.goto t (entry op)
  | .event (.ret t r), s' => s.pc t = .returned r ∧ s' = s.goto t .idle
  | .step t fresh, s' => s.threadStep itemSize t fresh = some s'

/-- All interleavings of any calls of any threads. -/
def system (τ π α : Type*) [DecidableEq τ] [DecidableEq π] (itemSize : ℕ) :
    Transition (ConcurrentQueue τ π α) (Label τ π α) where
  init s := s = start
  step := next itemSize

/-- The queue as its users see it: a list, the next item to pop first. -/
def fifo (α : Type*) : SequentialObject (List α) (Op α) (Result α) where
  start := []
  apply
    | .push item, items => (.pushed, items ++ [item])
    | .tryPop, items => (.popped items.head?, items.tail)
    | .empty, items => (.isEmpty items.isEmpty, items)

end ConcurrentQueue

end StringSampleSort.Tbb
