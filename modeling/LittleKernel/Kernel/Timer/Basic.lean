/-
# Timers

`kernel/timer.c`: `timer_set_oneshot`, `timer_set_periodic`, `timer_cancel` and
`timer_tick`, on any number of processors, with one queue for each.

The clock is a natural number of milliseconds of which `current_time` shows the
low 32 bits, as `lk_time_t`, and times are compared by the sign of their
difference (`TIME_GT`, `TIME_LT` of `include/sys/types.h`).

`timer_tick` takes `timer_lock` for each turn of its loop and drops it while a
callback runs, so a tick is a sequence of steps: `enter` and `finish` are the
critical sections, which take the first due timer off the queue, and `call` is
the reading of its callback and the call.  Between these steps the other
processors take theirs.  A processor sets and cancels timers itself from thread
code, when it is in no tick, and from a callback.  The programming of the
hardware timer is left out.
-/

import LittleKernel.Lib.Machine
import LittleKernel.Lib.Word
import Mathlib.Data.List.Nodup
import Mathlib.Logic.Function.Basic

namespace LittleKernel
namespace Timer

open Word Function

/-- `(int32_t)(a - b)`. -/
def timeDiff (a b : ℕ) : ℤ :=
  if sub32 a b < 2 ^ 31 then sub32 a b else (sub32 a b : ℤ) - 2 ^ 32

/-- `TIME_GT`. -/
def TimeGT (a b : ℕ) : Prop := 0 < timeDiff a b

/-- `TIME_LT`. -/
def TimeLT (a b : ℕ) : Prop := timeDiff a b < 0

instance (a b : ℕ) : Decidable (TimeGT a b) := inferInstanceAs (Decidable (0 < timeDiff a b))

instance (a b : ℕ) : Decidable (TimeLT a b) := inferInstanceAs (Decidable (timeDiff a b < 0))

/-- Times less than `2 ^ 31` apart have their own difference, however often the clock
has wrapped. -/
theorem timeDiff_u32 {a b : ℕ} (h₁ : a < b + 2 ^ 31) (h₂ : b < a + 2 ^ 31) :
    timeDiff (u32 a) (u32 b) = (a : ℤ) - b := by
  rcases Nat.lt_or_ge a b with h | h
  · have hsub : sub32 (u32 a) (u32 b) = a + 2 ^ 32 - b := by
      simp only [sub32, u32]
      omega
    rw [timeDiff, hsub, if_neg (by omega)]
    omega
  · have hsub : sub32 (u32 a) (u32 b) = a - b := by
      simp only [sub32, u32]
      omega
    rw [timeDiff, hsub, if_pos (by omega)]
    omega

theorem timeGT_iff {a b : ℕ} (h₁ : a < b + 2 ^ 31) (h₂ : b < a + 2 ^ 31) :
    TimeGT (u32 a) (u32 b) ↔ b < a := by
  rw [TimeGT, timeDiff_u32 h₁ h₂]
  omega

theorem timeLT_iff {a b : ℕ} (h₁ : a < b + 2 ^ 31) (h₂ : b < a + 2 ^ 31) :
    TimeLT (u32 a) (u32 b) ↔ a < b := by
  rw [TimeLT, timeDiff_u32 h₁ h₂]
  omega

/-! ### The data -/

/-- `timer_t`.  `node` is the queue its list node is linked in. -/
structure TimerT (κ : Type) where
  node : Option ℕ
  scheduledTime : ℕ
  periodicTime : ℕ
  callback : Option κ
  arg : ℕ
  deriving DecidableEq

/-- `TIMER_INITIAL_VALUE`. -/
def TimerT.initial {κ : Type} : TimerT κ := ⟨none, 0, 0, none, 0⟩

/-- Where a processor is in `timer_tick`. -/
inductive TickPc (ι κ : Type) where
  | idle
  /-- `timer` is off the queue and the lock is released. -/
  | dequeued (now : ℕ) (timer : ι)
  /-- The callback was called with these values. -/
  | calling (now : ℕ) (timer : ι) (periodic : Bool) (callback : κ) (arg : ℕ)
  deriving DecidableEq

/-- The timer the tick has taken off its queue. -/
def TickPc.timer {ι κ : Type} : TickPc ι κ → Option ι
  | .idle => none
  | .dequeued _ t => some t
  | .calling _ t _ _ _ => some t

/-- The clock, the timers, and each processor's queue and tick. -/
structure Timers (ι κ : Type) where
  time : ℕ
  timer : ι → TimerT κ
  queue : ℕ → List ι
  tick : ℕ → TickPc ι κ

variable {ι κ : Type} [DecidableEq ι]

namespace Timers

/-- `timer_init`, with all timers initialised, at some time. -/
def init (time : ℕ) : Timers ι κ := ⟨time, fun _ => .initial, fun _ => [], fun _ => .idle⟩

/-- `current_time`. -/
def currentTime (s : Timers ι κ) : ℕ := u32 s.time

/-- A store to a timer. -/
def setTimer (s : Timers ι κ) (t : ι) (v : TimerT κ) : Timers ι κ :=
  { s with timer := update s.timer t v }

end Timers

/-- The position `insert_timer_in_queue` finds in the list. -/
def insertSorted (sched : ι → ℕ) (t : ι) : List ι → List ι
  | [] => [t]
  | e :: l => if TimeGT (sched e) (sched t) then t :: e :: l else e :: insertSorted sched t l

/-- `insert_timer_in_queue`. -/
def insertTimerInQueue (s : Timers ι κ) (cpu : ℕ) (t : ι) : Timers ι κ :=
  { s.setTimer t { s.timer t with node := some cpu } with
    queue := update s.queue cpu
      (insertSorted (fun u => (s.timer u).scheduledTime) t (s.queue cpu)) }

/-- `timer_set`; `none` for the panic on a timer that is in a list. -/
def timerSet (s : Timers ι κ) (cpu : ℕ) (t : ι) (delay period : ℕ) (callback : κ) (arg : ℕ) :
    Option (Timers ι κ) :=
  if (s.timer t).node.isSome then none
  else some (insertTimerInQueue
    (s.setTimer t ⟨none, u32 (s.currentTime + delay), period, some callback, arg⟩) cpu t)

/-- `timer_set_oneshot`. -/
def timerSetOneshot (s : Timers ι κ) (cpu : ℕ) (t : ι) (delay : ℕ) (callback : κ) (arg : ℕ) :
    Option (Timers ι κ) :=
  timerSet s cpu t (if delay = 0 then 1 else delay) 0 callback arg

/-- `timer_set_periodic`. -/
def timerSetPeriodic (s : Timers ι κ) (cpu : ℕ) (t : ι) (period : ℕ) (callback : κ) (arg : ℕ) :
    Option (Timers ι κ) :=
  timerSet s cpu t (if period = 0 then 1 else period) (if period = 0 then 1 else period) callback
    arg

/-- `list_delete`, if `list_in_list`. -/
def listDelete (s : Timers ι κ) (t : ι) : Timers ι κ :=
  match (s.timer t).node with
  | none => s
  | some cpu =>
    { s.setTimer t { s.timer t with node := none } with
      queue := update s.queue cpu ((s.queue cpu).erase t) }

/-- `timer_cancel`. -/
def timerCancel (s : Timers ι κ) (t : ι) : Timers ι κ :=
  let s₁ := listDelete s t
  s₁.setTimer t { s₁.timer t with periodicTime := 0, callback := none, arg := 0 }

/-- What a step of `timer_tick` did: it took a due timer off the queue, called its
callback, or left the loop. -/
inductive TickOut (ι κ : Type) where
  | none
  | due (t : ι)
  | called (t : ι) (callback : κ) (arg : ℕ)
  | ends
  deriving DecidableEq

/-- The head of the loop of `timer_tick`, up to `spin_unlock`. -/
def tickLoop (s : Timers ι κ) (cpu now : ℕ) : Timers ι κ × TickOut ι κ :=
  match s.queue cpu with
  | [] => ({ s with tick := update s.tick cpu .idle }, .ends)
  | t :: _ =>
    if TimeLT now (s.timer t).scheduledTime then
      ({ s with tick := update s.tick cpu .idle }, .ends)
    else
      let s₁ := listDelete s t
      ({ s₁ with tick := update s₁.tick cpu (.dequeued now t) }, .due t)

/-- The call of the callback; `none` for a call through `NULL`. -/
def tickCall (s : Timers ι κ) (cpu now : ℕ) (t : ι) : Option (Timers ι κ × TickOut ι κ) :=
  (s.timer t).callback.map fun cb =>
    ({ s with
      tick := update s.tick cpu
        (.calling now t (decide (0 < (s.timer t).periodicTime)) cb (s.timer t).arg) },
      .called t cb (s.timer t).arg)

/-- `timer_tick` from the return of the callback to the next `spin_unlock`. -/
def tickFinish (s : Timers ι κ) (cpu now : ℕ) (t : ι) (periodic : Bool) :
    Timers ι κ × TickOut ι κ :=
  if periodic ∧ (s.timer t).node = none ∧ 0 < (s.timer t).periodicTime then
    tickLoop (insertTimerInQueue (s.setTimer t { s.timer t with
      scheduledTime := u32 (now + (s.timer t).periodicTime) }) cpu t) cpu now
  else tickLoop s cpu now

/-! ### Steps -/

/-- What a processor does next, or the clock. -/
inductive TimerAct (ι κ : Type) where
  | advance (ms : ℕ)
  | setOneshot (cpu : ℕ) (t : ι) (delay : ℕ) (callback : κ) (arg : ℕ)
  | setPeriodic (cpu : ℕ) (t : ι) (period : ℕ) (callback : κ) (arg : ℕ)
  | cancel (cpu : ℕ) (t : ι)
  | enter (cpu : ℕ)
  | call (cpu : ℕ)
  | finish (cpu : ℕ)
  deriving DecidableEq

/-- The processor runs thread code or a callback. -/
def Timers.Free (s : Timers ι κ) (cpu : ℕ) : Prop := ∀ now t, s.tick cpu ≠ .dequeued now t

instance (s : Timers ι κ) (cpu : ℕ) : Decidable (s.Free cpu) :=
  match h : s.tick cpu with
  | .idle => .isTrue fun _ _ => by simp [h]
  | .calling .. => .isTrue fun _ _ => by simp [h]
  | .dequeued now t => .isFalse fun hf => hf now t h

/-- One step. -/
def timerStep (s : Timers ι κ) : TimerAct ι κ → Option (Timers ι κ × TickOut ι κ)
  | .advance ms => some ({ s with time := s.time + ms }, .none)
  | .setOneshot cpu t delay callback arg =>
    if s.Free cpu then (timerSetOneshot s cpu t delay callback arg).map (·, .none) else none
  | .setPeriodic cpu t period callback arg =>
    if s.Free cpu then (timerSetPeriodic s cpu t period callback arg).map (·, .none) else none
  | .cancel cpu t => if s.Free cpu then some (timerCancel s t, .none) else none
  | .enter cpu =>
    match s.tick cpu with
    | .idle => some (tickLoop s cpu s.currentTime)
    | _ => none
  | .call cpu =>
    match s.tick cpu with
    | .dequeued now t => tickCall s cpu now t
    | _ => none
  | .finish cpu =>
    match s.tick cpu with
    | .calling now t periodic _ _ => some (tickFinish s cpu now t periodic)
    | _ => none

/-! ### The list operations -/

section Lists

variable {sched dl : ι → ℕ} {t : ι}

theorem mem_insertSorted {l : List ι} {u : ι} : u ∈ insertSorted sched t l ↔ u = t ∨ u ∈ l := by
  induction l with
  | nil => simp [insertSorted]
  | cons e l ih =>
    unfold insertSorted
    split
    · simp
    · simp only [List.mem_cons, ih]
      tauto

theorem nodup_insertSorted {l : List ι} (hl : l.Nodup) (ht : t ∉ l) :
    (insertSorted sched t l).Nodup := by
  induction l with
  | nil => simp [insertSorted]
  | cons e l ih =>
    obtain ⟨hel, hl⟩ := List.nodup_cons.1 hl
    unfold insertSorted
    split
    · exact List.nodup_cons.2 ⟨ht, List.nodup_cons.2 ⟨hel, hl⟩⟩
    · refine List.nodup_cons.2 ⟨fun hm => ?_, ih hl fun hm => ht (List.mem_cons_of_mem _ hm)⟩
      rcases mem_insertSorted.1 hm with rfl | hm
      · exact ht List.mem_cons_self
      · exact hel hm

/-- The list stays in the order of the deadlines, where the comparison is that of the
deadlines. -/
theorem sorted_insertSorted {l : List ι} (hl : l.Pairwise fun a b => dl a ≤ dl b)
    (hcmp : ∀ e ∈ l, TimeGT (sched e) (sched t) ↔ dl t < dl e) :
    (insertSorted sched t l).Pairwise fun a b => dl a ≤ dl b := by
  induction l with
  | nil => simp [insertSorted]
  | cons e l ih =>
    obtain ⟨he, hl⟩ := List.pairwise_cons.1 hl
    unfold insertSorted
    split
    · rename_i hgt
      have hlt := (hcmp e List.mem_cons_self).1 hgt
      refine List.pairwise_cons.2 ⟨fun u hu => ?_, List.pairwise_cons.2 ⟨he, hl⟩⟩
      rcases List.mem_cons.1 hu with rfl | hu
      · exact hlt.le
      · exact hlt.le.trans (he u hu)
    · rename_i hgt
      have hle := not_lt.1 fun hlt => hgt ((hcmp e List.mem_cons_self).2 hlt)
      refine List.pairwise_cons.2 ⟨fun u hu => ?_,
        ih hl fun u hu => hcmp u (List.mem_cons_of_mem _ hu)⟩
      rcases mem_insertSorted.1 hu with rfl | hu
      · exact hle
      · exact he u hu

/-- `list_delete` leaves a timer alone but for its node. -/
theorem listDelete_timer (s : Timers ι κ) (t : ι) :
    (listDelete s t).timer = update s.timer t { s.timer t with node := none } := by
  unfold listDelete
  split
  · rename_i h
    rw [← h]
    exact (update_eq_self t s.timer).symm
  · rfl

theorem listDelete_tick (s : Timers ι κ) (t : ι) : (listDelete s t).tick = s.tick := by
  unfold listDelete
  split <;> rfl

end Lists

end Timer
end LittleKernel
