/-
# Wait queues at thread-lock granularity

`kernel/thread.c`: `wait_queue_block`, `wait_queue_wake_one`,
`wait_queue_wake_all`, `wait_queue_timeout_handler` and
`thread_unblock_from_wait_queue`, on one `wait_queue_t`.

A blocked thread sits in `wait->list` until a wake-up or its timer takes it off
with a return value; it is then `READY` and goes on only when the scheduler
runs it again, still inside `wait_queue_block`.  Which ready thread runs next
is left open, so the steps of a client (a mutex, a semaphore) interleave in any
order, as on any number of processors.  Threads are numbers; a thread that is
not in the wait code, running or not, is `running` here.

`Waits.Ok` is the invariant every client shares: the list holds each blocked
thread once, `count` is its length, and `P` is the finite set of threads that
were taken off the list and have not run since.
-/

import Mathlib.Algebra.Group.Nat.Defs
import Mathlib.Data.Finset.Card
import Mathlib.Data.List.Nodup

namespace LittleKernel
namespace Kernel

open Function

/-- The `status_t` values of the wait code (`include/err.h`). -/
inductive Status where
  | noError
  | notReady
  | objectDestroyed
  | notBlocked
  | timedOut
  | threadDetached
  deriving DecidableEq

/-- `enum thread_state` (`include/kernel/thread.h`). -/
inductive ThreadState where
  | suspended
  | ready
  | running
  | blocked
  | sleeping
  | death
  deriving DecidableEq

/-- `INFINITE_TIME`, the largest `lk_time_t`. -/
def infiniteTime : ℕ := 2 ^ 32 - 1

/-- The fields of `thread_t` the wait code works on, and whether the timer on
the stack of `wait_queue_block` is armed. -/
structure Waiter where
  state : ThreadState
  waitQueueBlockRet : Status
  timer : Bool
  deriving DecidableEq

/-- One `wait_queue_t` and the threads that may use it. -/
structure Waits where
  list : List ℕ
  count : ℤ
  thr : ℕ → Waiter

/-- `WAIT_QUEUE_INITIAL_VALUE`, with every thread outside. -/
def Waits.init : Waits := ⟨[], 0, fun _ => ⟨.running, .noError, false⟩⟩

/-- `wait_queue_block` up to its `thread_resched`; `none` when the timeout is
zero and the call returns `ERR_TIMED_OUT` at once. -/
def waitQueueBlock (w : Waits) (t timeout : ℕ) : Option Waits :=
  if timeout = 0 then none
  else some
    { list := w.list ++ [t]
      count := w.count + 1
      thr := update w.thr t
        ⟨.blocked, .noError, decide (timeout ≠ infiniteTime)⟩ }

/-- `wait_queue_block` after its `thread_resched`: the timer is cancelled and
the return value read. -/
def waitQueueResume (w : Waits) (t : ℕ) : Waits × Status :=
  ({ w with thr := update w.thr t { w.thr t with state := .running, timer := false } },
    (w.thr t).waitQueueBlockRet)

/-- `wait_queue_wake_one`: the head of the list becomes ready. -/
def waitQueueWakeOne (w : Waits) (err : Status) : Waits × ℕ :=
  match w.list with
  | [] => (w, 0)
  | t :: l =>
    ({ list := l
       count := w.count - 1
       thr := update w.thr t
        { w.thr t with state := .ready, waitQueueBlockRet := err } }, 1)

/-- `thread_unblock_from_wait_queue`. -/
def threadUnblockFromWaitQueue (w : Waits) (t : ℕ) (err : Status) : Waits × Status :=
  if (w.thr t).state ≠ .blocked then (w, .notBlocked)
  else
    ({ list := w.list.erase t
       count := w.count - 1
       thr := update w.thr t
        { w.thr t with state := .ready, waitQueueBlockRet := err } }, .noError)

/-- `wait_queue_timeout_handler` of the timer of `t`, which is a one-shot timer. -/
def waitQueueTimeoutHandler (w : Waits) (t : ℕ) : Waits :=
  let w' := (threadUnblockFromWaitQueue w t .timedOut).1
  { w' with thr := update w'.thr t { w'.thr t with timer := false } }

/-! ### The shared invariant -/

/-- Each blocked thread is queued once, `count` is the length of the list, and
the threads woken and not yet run are those of `P`. -/
structure Waits.Ok (w : Waits) (P : Finset ℕ) : Prop where
  nodup : w.list.Nodup
  mem_list : ∀ t, t ∈ w.list ↔ (w.thr t).state = .blocked
  count_eq : w.count = w.list.length
  mem_pending : ∀ t, t ∈ P ↔ (w.thr t).state = .ready

theorem Waits.ok_init : Waits.init.Ok ∅ := by
  refine ⟨List.nodup_nil, fun t => ?_, rfl, fun t => ?_⟩ <;> simp [Waits.init]

variable {w : Waits} {P : Finset ℕ} {t : ℕ}

/-- Blocking appends the caller to the list and concerns no other thread. -/
theorem Waits.Ok.block (h : w.Ok P) {timeout : ℕ} (ht : (w.thr t).state = .running)
    (h0 : timeout ≠ 0) :
    ∃ w', waitQueueBlock w t timeout = some w' ∧ w'.Ok P ∧ w'.list = w.list ++ [t] ∧
      w'.thr t = ⟨.blocked, .noError, decide (timeout ≠ infiniteTime)⟩ ∧
      ∀ u, u ≠ t → w'.thr u = w.thr u := by
  have htl : t ∉ w.list := fun hm => by simp [(h.mem_list t).1 hm] at ht
  refine ⟨_, if_neg h0, ⟨?_, fun u => ?_, ?_, fun u => ?_⟩, rfl, by simp, fun u hu => by simp [hu]⟩
  · simpa [List.nodup_append, h.nodup] using fun u hu (he : u = t) => htl (he ▸ hu)
  · rcases eq_or_ne u t with rfl | hu
    · simp
    · simp [hu, h.mem_list u]
  · simp [h.count_eq]
  · rcases eq_or_ne u t with rfl | hu
    · simp [h.mem_pending, ht]
    · simp [hu, h.mem_pending u]

/-- Running again takes the thread out of the pending ones. -/
theorem Waits.Ok.resume (h : w.Ok P) (ht : (w.thr t).state = .ready) :
    (waitQueueResume w t).1.Ok (P.erase t) ∧ (waitQueueResume w t).1.list = w.list ∧
      (waitQueueResume w t).1.thr t = { w.thr t with state := .running, timer := false } ∧
      ∀ u, u ≠ t → (waitQueueResume w t).1.thr u = w.thr u := by
  refine ⟨⟨h.nodup, fun u => ?_, h.count_eq, fun u => ?_⟩, rfl, by simp [waitQueueResume],
    fun u hu => by simp [waitQueueResume, hu]⟩
  · rcases eq_or_ne u t with rfl | hu
    · simp [waitQueueResume, h.mem_list, ht]
    · simp [waitQueueResume, hu, h.mem_list u]
  · rcases eq_or_ne u t with rfl | hu
    · simp [waitQueueResume]
    · simp [waitQueueResume, hu, h.mem_pending u]

theorem waitQueueWakeOne_nil (hl : w.list = []) (err : Status) :
    waitQueueWakeOne w err = (w, 0) := by
  rw [waitQueueWakeOne, hl]

/-- Waking one makes the head of the list pending, with the value it is given. -/
theorem Waits.Ok.wakeOne (h : w.Ok P) {l : List ℕ} (hl : w.list = t :: l) (err : Status) :
    (waitQueueWakeOne w err).1.Ok (insert t P) ∧ (waitQueueWakeOne w err).1.list = l ∧
      t ∉ P ∧ (waitQueueWakeOne w err).2 = 1 ∧
      (waitQueueWakeOne w err).1.thr t
        = { w.thr t with state := .ready, waitQueueBlockRet := err } ∧
      ∀ u, u ≠ t → (waitQueueWakeOne w err).1.thr u = w.thr u := by
  have ht : (w.thr t).state = .blocked := (h.mem_list t).1 (by simp [hl])
  have hnd := h.nodup
  rw [hl, List.nodup_cons] at hnd
  rw [waitQueueWakeOne, hl]
  refine ⟨⟨hnd.2, fun u => ?_, ?_, fun u => ?_⟩, rfl, by simp [h.mem_pending, ht], rfl, by simp,
    fun u hu => by simp [hu]⟩
  · rcases eq_or_ne u t with rfl | hu
    · simp [hnd.1]
    · simp [hu, ← h.mem_list u, hl]
  · simp [h.count_eq, hl]
  · rcases eq_or_ne u t with rfl | hu
    · simp
    · simp [hu, h.mem_pending u]

/-- The timer of a thread that is no longer blocked does nothing but disarm. -/
theorem Waits.Ok.timeout_of_ne (h : w.Ok P) (ht : ¬ (w.thr t).state = .blocked) :
    (waitQueueTimeoutHandler w t).Ok P ∧ (waitQueueTimeoutHandler w t).list = w.list ∧
      (waitQueueTimeoutHandler w t).thr t = { w.thr t with timer := false } ∧
      ∀ u, u ≠ t → (waitQueueTimeoutHandler w t).thr u = w.thr u := by
  have he : waitQueueTimeoutHandler w t
      = { w with thr := update w.thr t { w.thr t with timer := false } } := by
    simp [waitQueueTimeoutHandler, threadUnblockFromWaitQueue, ht]
  rw [he]
  refine ⟨⟨h.nodup, fun u => ?_, h.count_eq, fun u => ?_⟩, rfl, by simp, fun u hu => by simp [hu]⟩
  · rcases eq_or_ne u t with rfl | hu
    · simp [h.mem_list]
    · simp [hu, h.mem_list u]
  · rcases eq_or_ne u t with rfl | hu
    · simp [h.mem_pending]
    · simp [hu, h.mem_pending u]

/-- A timer that fires on a blocked thread takes it off the list with
`ERR_TIMED_OUT`. -/
theorem Waits.Ok.timeout (h : w.Ok P) (ht : (w.thr t).state = .blocked) :
    (waitQueueTimeoutHandler w t).Ok (insert t P) ∧
      (waitQueueTimeoutHandler w t).list = w.list.erase t ∧ t ∈ w.list ∧ t ∉ P ∧
      (waitQueueTimeoutHandler w t).thr t = ⟨.ready, .timedOut, false⟩ ∧
      ∀ u, u ≠ t → (waitQueueTimeoutHandler w t).thr u = w.thr u := by
  have hmem : t ∈ w.list := (h.mem_list t).2 ht
  have hlen := List.length_erase_of_mem hmem
  have hpos := List.length_pos_of_mem hmem
  simp only [waitQueueTimeoutHandler, threadUnblockFromWaitQueue, ht, ne_eq, not_true_eq_false,
    if_false]
  refine ⟨⟨h.nodup.erase t, fun u => ?_, ?_, fun u => ?_⟩, trivial, hmem,
    by simp [h.mem_pending, ht], by simp, fun u hu => by simp [hu]⟩
  · rcases eq_or_ne u t with rfl | hu
    · simp [h.nodup.mem_erase_iff]
    · simp [hu, h.nodup.mem_erase_iff, h.mem_list u]
  · simp only [h.count_eq, hlen]; omega
  · rcases eq_or_ne u t with rfl | hu
    · simp
    · simp [hu, h.mem_pending u]

end Kernel
end LittleKernel
