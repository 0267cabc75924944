/-
# Cancelling a timer on another processor

`timer_cancel` against `timer_tick` on any number of processors, and the timer
that `wait_queue_block` (`kernel/thread.c`) keeps on its stack.

`timer_tick` takes a timer off its queue, drops `timer_lock`, and only then reads
the callback.  `timer_cancel` unlinks a timer that is in a queue, clears its
fields and returns; it does not wait for a tick that has the timer in flight.
So a cancel from another processor makes the tick call through `NULL`
(`cancel_calls_null`), or returns while the callback runs, and a
`wait_queue_block` that has returned is still pointed to by the tick, which then
ends a later `wait_queue_block` of the thread with `ERR_TIMED_OUT`.

That is the only way it goes wrong: in every run that never cancels a timer
while a tick of another processor has it in flight, cancellation is final
(`cancellation_final`).
-/

import LittleKernel.Kernel.Timer.Basic
import LittleKernel.Kernel.WaitQueue

namespace LittleKernel
namespace Timer

open Word Machine Function
open LittleKernel.Kernel (Status ThreadState infiniteTime)

/-! ### Which setting of a timer is in flight -/

/-- How often each timer was set; for each processor, which setting of the timer its
tick took off the queue; which settings were cancelled, with the processor; which came
due. -/
structure Arms (ι : Type) where
  no : ι → ℕ
  flight : ℕ → ℕ
  cancelled : ι → ℕ → Option ℕ
  due : ι → ℕ → Bool

variable {ι κ : Type} [DecidableEq ι]

namespace Arms

def init : Arms ι := ⟨fun _ => 0, fun _ => 0, fun _ _ => none, fun _ _ => false⟩

def set (A : Arms ι) (t : ι) : Arms ι := { A with no := update A.no t (A.no t + 1) }

def cancel (A : Arms ι) (cpu : ℕ) (t : ι) : Arms ι :=
  { A with
    cancelled := update A.cancelled t
      (update (A.cancelled t) (A.no t) (some cpu)) }

def take (A : Arms ι) (cpu : ℕ) (t : ι) : Arms ι :=
  { A with
    flight := update A.flight cpu (A.no t)
    due := update A.due t (update (A.due t) (A.no t) true) }

/-- The record after a turn of the loop of `timer_tick`. -/
def goOn (A : Arms ι) (cpu : ℕ) : TickOut ι κ → Arms ι
  | .due t => A.take cpu t
  | _ => A

/-- The record after a step. -/
def next (A : Arms ι) : TimerAct ι κ → TickOut ι κ → Arms ι
  | .setOneshot _ t _ _ _, _ => A.set t
  | .setPeriodic _ t _ _ _, _ => A.set t
  | .cancel cpu t, _ => A.cancel cpu t
  | .enter cpu, o => A.goOn cpu o
  | .finish cpu, o => A.goOn cpu o
  | _, _ => A

end Arms

/-- No tick of another processor has the timer in flight. -/
def Settled (s : Timers ι κ) (cpu : ℕ) (t : ι) : Prop :=
  ∀ cpu', cpu' ≠ cpu → (s.tick cpu').timer ≠ some t

/-! ### The queues -/

/-- A timer is in the queue its node says, once. -/
structure Linked (s : Timers ι κ) : Prop where
  mem : ∀ cpu t, t ∈ s.queue cpu ↔ (s.timer t).node = some cpu
  nodup : ∀ cpu, (s.queue cpu).Nodup

section Linked

variable {s : Timers ι κ} {t : ι}

theorem Linked.setTimer (hl : Linked s) {v : TimerT κ} (hv : v.node = (s.timer t).node) :
    Linked (s.setTimer t v) := by
  refine ⟨fun cpu u => ?_, hl.nodup⟩
  rcases eq_or_ne u t with rfl | hne
  · simpa [Timers.setTimer, hv] using hl.mem cpu u
  · simpa [Timers.setTimer, hne] using hl.mem cpu u

theorem Linked.insert (hl : Linked s) (ht : (s.timer t).node = none) (cpu : ℕ) :
    Linked (insertTimerInQueue s cpu t) := by
  have hnot : ∀ c, t ∉ s.queue c := fun c hm => by
    rw [hl.mem, ht] at hm
    cases hm
  constructor
  · intro c u
    have hmem := hl.mem c u
    rcases eq_or_ne c cpu with rfl | hc
    · rcases eq_or_ne u t with rfl | hne
      · simp [insertTimerInQueue, Timers.setTimer, mem_insertSorted]
      · simpa [insertTimerInQueue, Timers.setTimer, mem_insertSorted, hne] using hmem
    · rcases eq_or_ne u t with rfl | hne
      · simpa [insertTimerInQueue, Timers.setTimer, hc, hc.symm] using hnot c
      · simpa [insertTimerInQueue, Timers.setTimer, hne, hc] using hmem
  · intro c
    rcases eq_or_ne c cpu with rfl | hc
    · simpa [insertTimerInQueue] using nodup_insertSorted (hl.nodup c) (hnot c)
    · simpa [insertTimerInQueue, hc] using hl.nodup c

theorem Linked.delete (hl : Linked s) (t : ι) : Linked (listDelete s t) := by
  unfold listDelete
  split
  · exact hl
  · rename_i cpu hnode
    constructor
    · intro c u
      have hmem := hl.mem c u
      rcases eq_or_ne c cpu with rfl | hc
      · rcases eq_or_ne u t with rfl | hne
        · simp [Timers.setTimer, (hl.nodup c).not_mem_erase]
        · simpa [Timers.setTimer, hne, (hl.nodup c).mem_erase_iff] using hmem
      · rcases eq_or_ne u t with rfl | hne
        · have hnot : u ∉ s.queue c := fun hm => hc (by simpa [hnode] using (hmem.1 hm).symm)
          simpa [Timers.setTimer, hc] using hnot
        · simpa [Timers.setTimer, hne, hc] using hmem
    · intro c
      rcases eq_or_ne c cpu with rfl | hc
      · simpa using (hl.nodup c).erase t
      · simpa [hc] using hl.nodup c

end Linked

/-! ### What cancelling keeps -/

/-- The invariant of the timers: a timer in a queue or about to be called has a callback,
a setting that was cancelled is in no queue and in flight only where it was cancelled,
and what is in flight has come due. -/
structure Tidy (s : Timers ι κ) (A : Arms ι) : Prop where
  linked : Linked s
  queued : ∀ t cpu, (s.timer t).node = some cpu → (s.timer t).callback.isSome
  periodic : ∀ t, 0 < (s.timer t).periodicTime → (s.timer t).callback.isSome
  dequeued : ∀ cpu now t, s.tick cpu = .dequeued now t → (s.timer t).callback.isSome
  dead : ∀ t c, A.cancelled t (A.no t) = some c →
    (s.timer t).node = none ∧ (s.timer t).periodicTime = 0
  fresh : ∀ t n, A.no t < n → A.cancelled t n = none
  final : ∀ t n c cpu, A.cancelled t n = some c → (s.tick cpu).timer = some t →
    A.flight cpu = n → cpu = c
  due : ∀ cpu t, (s.tick cpu).timer = some t → A.due t (A.flight cpu) = true

section Tidy

variable {s : Timers ι κ} {A : Arms ι} {t : ι} {cpu : ℕ}

omit [DecidableEq ι] in
theorem tidy_init (now : ℕ) : Tidy (Timers.init now : Timers ι κ) Arms.init := by
  refine ⟨⟨fun cpu t => ?_, fun cpu => ?_⟩, fun t cpu h => ?_, fun t h => ?_, fun cpu now t h => ?_,
    fun t c h => ?_, fun t n h => rfl, fun t n c cpu h => ?_, fun cpu t h => ?_⟩
  · simp [Timers.init, TimerT.initial]
  · simp [Timers.init]
  all_goals simp [Timers.init, Arms.init, TimerT.initial, TickPc.timer] at h

omit [DecidableEq ι] in
theorem Tidy.advance (h : Tidy s A) (time : ℕ) : Tidy { s with time := time } A :=
  ⟨⟨h.linked.mem, h.linked.nodup⟩, h.queued, h.periodic, h.dequeued, h.dead, h.fresh, h.final,
    h.due⟩

/-- A timer is set when it is on no queue, and its setting is a new one. -/
theorem Tidy.set (h : Tidy s A) {delay period : ℕ} {cb : κ} {arg : ℕ} {s' : Timers ι κ}
    (hs : timerSet s cpu t delay period cb arg = some s') : Tidy s' (A.set t) := by
  have hnode : (s.timer t).node = none := by
    by_contra hne
    simp [timerSet, Option.isSome_iff_ne_none.2 hne] at hs
  have hs' : insertTimerInQueue (s.setTimer t
      ⟨none, u32 (s.currentTime + delay), period, some cb, arg⟩) cpu t = s' := by
    simpa [timerSet, hnode] using hs
  have htimer : s'.timer = update s.timer t
      ⟨some cpu, u32 (s.currentTime + delay), period, some cb, arg⟩ := by
    simp [← hs', insertTimerInQueue, Timers.setTimer]
  have htick : s'.tick = s.tick := by
    rw [← hs']
    rfl
  have hcb : (s'.timer t).callback.isSome := by simp [htimer]
  constructor
  · rw [← hs']
    exact (h.linked.setTimer (v := ⟨none, _, _, _, _⟩) hnode.symm).insert
      (by simp [Timers.setTimer]) cpu
  · intro u c hu
    rcases eq_or_ne u t with rfl | hne
    · exact hcb
    · simp only [htimer, update_of_ne hne] at hu ⊢
      exact h.queued u c hu
  · intro u hu
    rcases eq_or_ne u t with rfl | hne
    · exact hcb
    · simp only [htimer, update_of_ne hne] at hu ⊢
      exact h.periodic u hu
  · intro c now u hu
    rcases eq_or_ne u t with rfl | hne
    · exact hcb
    · rw [htick] at hu
      simp only [htimer, update_of_ne hne]
      exact h.dequeued c now u hu
  · intro u c hu
    rcases eq_or_ne u t with rfl | hne
    · simp [Arms.set, h.fresh u (A.no u + 1) (by omega)] at hu
    · simp only [Arms.set, htimer, update_of_ne hne] at hu ⊢
      exact h.dead u c hu
  · intro u n hu
    refine h.fresh u n ?_
    rcases eq_or_ne u t with rfl | hne
    · simp only [Arms.set, update_self] at hu
      omega
    · simpa [Arms.set, hne] using hu
  · rw [htick]
    exact h.final
  · rw [htick]
    exact h.due

/-- `timer_cancel` of a timer that is in flight nowhere else. -/
theorem Tidy.cancel (h : Tidy s A) (hfree : s.Free cpu) (hset : Settled s cpu t) :
    Tidy (timerCancel s t) (A.cancel cpu t) := by
  have htimer : (timerCancel s t).timer = update s.timer t
      { s.timer t with node := none, periodicTime := 0, callback := none, arg := 0 } := by
    simp [timerCancel, Timers.setTimer, listDelete_timer]
  have htick : (timerCancel s t).tick = s.tick := listDelete_tick s t
  have hhere : ∀ c, (s.tick c).timer = some t → c = cpu := fun c hc => by
    by_contra hne
    exact hset c hne hc
  constructor
  · exact (h.linked.delete t).setTimer rfl
  · intro u c hu
    rcases eq_or_ne u t with rfl | hne
    · simp [htimer] at hu
    · simp only [htimer, update_of_ne hne] at hu ⊢
      exact h.queued u c hu
  · intro u hu
    rcases eq_or_ne u t with rfl | hne
    · simp [htimer] at hu
    · simp only [htimer, update_of_ne hne] at hu ⊢
      exact h.periodic u hu
  · intro c now u hu
    rw [htick] at hu
    rcases eq_or_ne u t with rfl | hne
    · obtain rfl := hhere c (by simp [hu, TickPc.timer])
      exact absurd hu (hfree now u)
    · simp only [htimer, update_of_ne hne]
      exact h.dequeued c now u hu
  · intro u c hu
    rcases eq_or_ne u t with rfl | hne
    · simp [htimer]
    · simp only [Arms.cancel, htimer, update_of_ne hne] at hu ⊢
      exact h.dead u c hu
  · intro u n hu
    rcases eq_or_ne u t with rfl | hne
    · have hne : n ≠ A.no u := by
        simp only [Arms.cancel] at hu
        omega
      simpa [Arms.cancel, hne] using h.fresh u n hu
    · simpa [Arms.cancel, hne] using h.fresh u n hu
  · intro u n c c' hu htu hf
    rw [htick] at htu
    rcases eq_or_ne u t with rfl | hne
    · obtain rfl := hhere c' htu
      rcases eq_or_ne n (A.no u) with rfl | hn
      · simpa [Arms.cancel] using hu
      · simp only [Arms.cancel, update_self, update_of_ne hn] at hu
        exact h.final u n c c' hu htu hf
    · simp only [Arms.cancel, update_of_ne hne] at hu
      exact h.final u n c c' hu htu hf
  · rw [htick]
    exact h.due

/-- A periodic timer is put back into the queue after its callback. -/
theorem Tidy.requeue (h : Tidy s A) (hnode : (s.timer t).node = none)
    (hp : 0 < (s.timer t).periodicTime) (cpu time : ℕ) :
    Tidy (insertTimerInQueue (s.setTimer t { s.timer t with scheduledTime := time }) cpu t) A := by
  have htimer : (insertTimerInQueue
      (s.setTimer t { s.timer t with scheduledTime := time }) cpu t).timer =
      update s.timer t { s.timer t with scheduledTime := time, node := some cpu } := by
    simp [insertTimerInQueue, Timers.setTimer]
  have hcb := h.periodic t hp
  constructor
  · exact (h.linked.setTimer (v := { s.timer t with scheduledTime := time }) rfl).insert
      (by simpa [Timers.setTimer] using hnode) cpu
  · intro u c hu
    rcases eq_or_ne u t with rfl | hne
    · simpa [htimer] using hcb
    · simp only [htimer, update_of_ne hne] at hu ⊢
      exact h.queued u c hu
  · intro u hu
    rcases eq_or_ne u t with rfl | hne
    · simpa [htimer] using hcb
    · simp only [htimer, update_of_ne hne] at hu ⊢
      exact h.periodic u hu
  · intro c now u hu
    rcases eq_or_ne u t with rfl | hne
    · simpa [htimer] using hcb
    · simp only [htimer, update_of_ne hne]
      exact h.dequeued c now u hu
  · intro u c hu
    rcases eq_or_ne u t with rfl | hne
    · have := (h.dead u c hu).2
      omega
    · simp only [htimer, update_of_ne hne]
      exact h.dead u c hu
  · exact h.fresh
  · exact h.final
  · exact h.due

omit [DecidableEq ι] in
/-- A processor leaves the loop of `timer_tick`. -/
theorem Tidy.ends (h : Tidy s A) (cpu : ℕ) :
    Tidy { s with tick := update s.tick cpu .idle } A := by
  have htick : ∀ c u, (update s.tick cpu .idle c).timer = some u →
      (s.tick c).timer = some u := by
    intro c u hu
    rcases eq_or_ne c cpu with rfl | hne
    · simp [TickPc.timer] at hu
    · simpa [hne] using hu
  refine ⟨⟨h.linked.mem, h.linked.nodup⟩, h.queued, h.periodic, fun c now u hu => ?_, h.dead,
    h.fresh, fun u n c c' hu htu => h.final u n c c' hu (htick c' u htu),
    fun c u hu => h.due c u (htick c u hu)⟩
  rcases eq_or_ne c cpu with rfl | hne
  · simp at hu
  · simp only [update_of_ne hne] at hu
    exact h.dequeued c now u hu

/-- `timer_tick` takes a timer off its queue. -/
theorem Tidy.take (h : Tidy s A) {c : ℕ} (hnode : (s.timer t).node = some c) (now : ℕ) :
    Tidy { listDelete s t with
      tick := update (listDelete s t).tick cpu (.dequeued now t) } (A.take cpu t) := by
  have hlive : A.cancelled t (A.no t) = none := by
    cases hc : A.cancelled t (A.no t) with
    | none => rfl
    | some d =>
      rw [(h.dead t d hc).1] at hnode
      cases hnode
  have hcb : ∀ u, ((listDelete s t).timer u).callback = (s.timer u).callback := by
    intro u
    rcases eq_or_ne u t with rfl | hne
    · simp [listDelete_timer]
    · simp [listDelete_timer, hne]
  have hper : ∀ u, ((listDelete s t).timer u).periodicTime = (s.timer u).periodicTime := by
    intro u
    rcases eq_or_ne u t with rfl | hne
    · simp [listDelete_timer]
    · simp [listDelete_timer, hne]
  have hnd : ∀ u, ((listDelete s t).timer u).node = none ∨
      ((listDelete s t).timer u).node = (s.timer u).node := by
    intro u
    rcases eq_or_ne u t with rfl | hne
    · simp [listDelete_timer]
    · simp [listDelete_timer, hne]
  have hl := h.linked.delete t
  constructor
  · exact ⟨hl.mem, hl.nodup⟩
  · intro u c' hu
    rw [hcb]
    rcases hnd u with hn | hn
    · rw [hn] at hu
      cases hu
    · exact h.queued u c' (hn ▸ hu)
  · intro u hu
    rw [hper] at hu
    rw [hcb]
    exact h.periodic u hu
  · intro c' now' u hu
    rw [hcb]
    rcases eq_or_ne c' cpu with rfl | hne
    · simp only [update_self, TickPc.dequeued.injEq] at hu
      exact hu.2 ▸ h.queued t c hnode
    · simp only [update_of_ne hne, listDelete_tick] at hu
      exact h.dequeued c' now' u hu
  · intro u c' hu
    obtain ⟨hn, hp⟩ := h.dead u c' hu
    refine ⟨?_, (hper u).trans hp⟩
    rcases hnd u with hn' | hn'
    · exact hn'
    · exact hn'.trans hn
  · exact h.fresh
  · intro u n c' c'' hu htu hf
    rcases eq_or_ne c'' cpu with rfl | hne
    · simp only [update_self, TickPc.timer, Option.some.injEq] at htu
      subst htu
      simp only [Arms.take, update_self] at hf hu
      rw [← hf, hlive] at hu
      cases hu
    · simp only [update_of_ne hne, listDelete_tick] at htu
      simp only [Arms.take, update_of_ne hne] at hf
      exact h.final u n c' c'' hu htu hf
  · intro c' u hu
    rcases eq_or_ne c' cpu with rfl | hne
    · simp only [update_self, TickPc.timer, Option.some.injEq] at hu
      simp [Arms.take, hu]
    · simp only [update_of_ne hne, listDelete_tick] at hu
      have hd := h.due c' u hu
      simp only [Arms.take, update_of_ne hne]
      rcases eq_or_ne u t with rfl | hu'
      · rcases eq_or_ne (A.flight c') (A.no u) with he | he
        · simp [he]
        · simpa [he] using hd
      · simpa [hu'] using hd

omit [DecidableEq ι] in
theorem Tidy.call (h : Tidy s A) {now : ℕ} (hpc : s.tick cpu = .dequeued now t) (p : Bool) (cb : κ)
    (arg : ℕ) : Tidy { s with tick := update s.tick cpu (.calling now t p cb arg) } A := by
  have htick : ∀ c, (update s.tick cpu (.calling now t p cb arg) c).timer =
      (s.tick c).timer := by
    intro c
    rcases eq_or_ne c cpu with rfl | hne
    · simp [hpc, TickPc.timer]
    · simp [hne]
  refine ⟨⟨h.linked.mem, h.linked.nodup⟩, h.queued, h.periodic, fun c now u hu => ?_, h.dead,
    h.fresh, fun u n c c' hu htu => h.final u n c c' hu (htick c' ▸ htu),
    fun c u hu => h.due c u (htick c ▸ hu)⟩
  rcases eq_or_ne c cpu with rfl | hne
  · simp at hu
  · simp only [update_of_ne hne] at hu
    exact h.dequeued c now u hu

/-- `timer_initialize` of a timer in no queue and not in flight. -/
theorem Tidy.reset (h : Tidy s A) (hnode : (s.timer t).node = none)
    (hflight : ∀ c, (s.tick c).timer ≠ some t) : Tidy (s.setTimer t .initial) A := by
  have htimer : (s.setTimer t .initial).timer = update s.timer t .initial := rfl
  constructor
  · exact h.linked.setTimer hnode.symm
  · intro u c hu
    rcases eq_or_ne u t with rfl | hne
    · simp [Timers.setTimer, TimerT.initial] at hu
    · simp only [htimer, update_of_ne hne] at hu ⊢
      exact h.queued u c hu
  · intro u hu
    rcases eq_or_ne u t with rfl | hne
    · simp [Timers.setTimer, TimerT.initial] at hu
    · simp only [htimer, update_of_ne hne] at hu ⊢
      exact h.periodic u hu
  · intro c now u hu
    replace hu : s.tick c = .dequeued now u := hu
    have hne : u ≠ t := by
      rintro rfl
      exact hflight c (by simp [hu, TickPc.timer])
    simp only [htimer, update_of_ne hne]
    exact h.dequeued c now u hu
  · intro u c hu
    rcases eq_or_ne u t with rfl | hne
    · simp [Timers.setTimer, TimerT.initial]
    · simp only [htimer, update_of_ne hne]
      exact h.dead u c hu
  · exact h.fresh
  · exact h.final
  · exact h.due

end Tidy

/-! ### Threads that wait with a timeout -/

/-- A timer object, or the timer of `wait_queue_block` in a stack frame of a thread. -/
inductive TimerId where
  | obj (n : ℕ)
  | stack (thread frame : ℕ)
  deriving DecidableEq

/-- A timer callback. -/
inductive Callback where
  | waitQueueTimeoutHandler
  | user (n : ℕ)
  deriving DecidableEq

/-- The fields of `thread_t` the timeout works on, and the frame of the `wait_queue_block`
with a timer that the thread is in. -/
structure Sleeper where
  state : ThreadState
  waitQueueBlockRet : Status
  frame : Option ℕ
  deriving DecidableEq

/-- The timers, the threads, and for each processor whether the callback it called is done. -/
structure Sleepers where
  timers : Timers TimerId Callback
  thread : ℕ → Sleeper
  done : ℕ → Bool

def Sleepers.init (now : ℕ) : Sleepers :=
  ⟨Timers.init now, fun _ => ⟨.running, .noError, none⟩, fun _ => false⟩

/-- What happens next. -/
inductive SleepAct where
  | timer (a : TimerAct TimerId Callback)
  /-- `wait_queue_block` up to `thread_resched`. -/
  | block (cpu th frame timeout : ℕ)
  /-- A wake-up of the wait queue takes the thread off it. -/
  | wake (th : ℕ) (err : Status)
  /-- `wait_queue_block` from the return of `thread_resched` on. -/
  | resume (cpu th : ℕ)
  /-- `wait_queue_timeout_handler` gets `thread_lock`. -/
  | handler (cpu : ℕ)
  deriving DecidableEq

/-- `wait_queue_timeout_handler` is `static`, and so is each stack timer's use: the other
code sets and cancels timer objects, with callbacks of its own.  The handler returns when
it is done. -/
def Ordinary (s : Sleepers) : TimerAct TimerId Callback → Bool
  | .setOneshot _ (.obj _) _ (.user _) _ => true
  | .setPeriodic _ (.obj _) _ (.user _) _ => true
  | .cancel _ (.obj _) => true
  | .finish cpu =>
    match s.timers.tick cpu with
    | .calling _ _ _ .waitQueueTimeoutHandler _ => s.done cpu
    | _ => true
  | .advance _ | .enter _ | .call _ => true
  | _ => false

/-- `wait_queue_block` up to `thread_resched`, with `thread_lock` held. -/
def waitQueueBlock (s : Sleepers) (cpu th frame timeout : ℕ) : Option Sleepers :=
  if timeout = 0 then some s
  else if timeout = infiniteTime then
    some { s with thread := update s.thread th ⟨.blocked, .noError, none⟩ }
  else
    (timerSetOneshot (s.timers.setTimer (.stack th frame) .initial) cpu (.stack th frame) timeout
      .waitQueueTimeoutHandler th).map fun T =>
        { s with
          timers := T
          thread := update s.thread th ⟨.blocked, .noError, some frame⟩ }

/-- `wait_queue_block` from the return of `thread_resched` on. -/
def waitQueueResume (s : Sleepers) (th : ℕ) : Sleepers :=
  { s with
    timers := match (s.thread th).frame with
      | some frame => timerCancel s.timers (.stack th frame)
      | none => s.timers
    thread := update s.thread th ⟨.running, (s.thread th).waitQueueBlockRet, none⟩ }

/-- `thread_unblock_from_wait_queue`. -/
def threadUnblockFromWaitQueue (s : Sleepers) (th : ℕ) (err : Status) : Sleepers :=
  if (s.thread th).state ≠ .blocked then s
  else { s with thread := update s.thread th ⟨.ready, err, (s.thread th).frame⟩ }

/-- One step. -/
def sleepStep (s : Sleepers) : SleepAct → Option (Sleepers × TickOut TimerId Callback)
  | .timer a =>
    if Ordinary s a then
      (timerStep s.timers a).map fun q =>
        ({ s with
            timers := q.1
            done := match a with
              | .call cpu => update s.done cpu false
              | _ => s.done }, q.2)
    else none
  | .block cpu th frame timeout =>
    if (s.thread th).state = .running ∧ s.timers.tick cpu = .idle then
      (waitQueueBlock s cpu th frame timeout).map (·, .none)
    else none
  | .wake th err =>
    if (s.thread th).state = .blocked ∧ err ≠ .timedOut then
      some (threadUnblockFromWaitQueue s th err, .none)
    else none
  | .resume cpu th =>
    if (s.thread th).state = .ready ∧ s.timers.tick cpu = .idle then
      some (waitQueueResume s th, .none)
    else none
  | .handler cpu =>
    match s.timers.tick cpu with
    | .calling _ _ _ .waitQueueTimeoutHandler arg =>
      if s.done cpu then none
      else
        let s₁ := threadUnblockFromWaitQueue s arg .timedOut
        some ({ s₁ with done := update s₁.done cpu true }, .none)
    | _ => none

/-- The record of the timers after a step of the threads. -/
def Arms.after (A : Arms TimerId) (s : Sleepers) (o : TickOut TimerId Callback) :
    SleepAct → Arms TimerId
  | .timer a => A.next a o
  | .block _ th frame timeout =>
    if timeout = 0 ∨ timeout = infiniteTime then A else A.set (.stack th frame)
  | .resume cpu th => (s.thread th).frame.elim A fun frame => A.cancel cpu (.stack th frame)
  | _ => A

/-- The code and the record. -/
def recordedStep (p : Sleepers × Arms TimerId) (a : SleepAct) :
    Option (Sleepers × Arms TimerId) :=
  (sleepStep p.1 a).map fun q => (q.1, p.2.after p.1 q.2 a)

/-- **Cancellation is final**: no tick is about to call through `NULL`; a setting that was
cancelled is in flight nowhere but in the callback that cancelled it; a timeout of
`wait_queue_block` is due to its own timer; and no callback is called, or about to be,
for a `wait_queue_block` that has returned. -/
structure Final (p : Sleepers × Arms TimerId) : Prop where
  notNull : ∀ cpu now t, p.1.timers.tick cpu = .dequeued now t →
    (p.1.timers.timer t).callback ≠ none
  cancelled : ∀ t n c cpu, p.2.cancelled t n = some c → (p.1.timers.tick cpu).timer = some t →
    p.2.flight cpu = n → cpu = c
  ownTimer : ∀ th, (p.1.thread th).state = .ready →
    (p.1.thread th).waitQueueBlockRet = .timedOut →
      ∃ frame, (p.1.thread th).frame = some frame ∧
        p.2.due (.stack th frame) (p.2.no (.stack th frame)) = true
  inBlock : ∀ cpu th frame, (p.1.timers.tick cpu).timer = some (.stack th frame) →
    (p.1.thread th).frame = some frame ∧ p.2.flight cpu = p.2.no (.stack th frame)

/-- The step does not cancel a timer that a tick of another processor has in flight. -/
def CancelsSettled (p : Sleepers × Arms TimerId) : SleepAct → Prop
  | .timer (.cancel cpu t) => Settled p.1.timers cpu t
  | .resume cpu th => ∀ frame, (p.1.thread th).frame = some frame →
      Settled p.1.timers cpu (.stack th frame)
  | _ => True

/-! ### The invariant of the threads -/

/-- A stack timer in a queue or in flight belongs to the `wait_queue_block` its thread is
in, and only stack timers call the handler. -/
structure Waited (s : Sleepers) (A : Arms TimerId) : Prop where
  tidy : Tidy s.timers A
  outside : ∀ th, (s.thread th).state = .running → (s.thread th).frame = none
  oneshot : ∀ th f, (s.timers.timer (.stack th f)).periodicTime = 0
  queued : ∀ th f cpu, (s.timers.timer (.stack th f)).node = some cpu →
    (s.thread th).frame = some f ∧
      (s.timers.timer (.stack th f)).callback = some .waitQueueTimeoutHandler ∧
      (s.timers.timer (.stack th f)).arg = th
  flight : ∀ cpu th f, (s.timers.tick cpu).timer = some (.stack th f) →
    (s.thread th).frame = some f ∧ A.flight cpu = A.no (.stack th f)
  dequeued : ∀ cpu now th f, s.timers.tick cpu = .dequeued now (.stack th f) →
    (s.timers.timer (.stack th f)).callback = some .waitQueueTimeoutHandler ∧
      (s.timers.timer (.stack th f)).arg = th
  calling : ∀ cpu now t p arg, s.timers.tick cpu = .calling now t p .waitQueueTimeoutHandler arg →
    ∃ f, t = .stack arg f
  user : ∀ n, (s.timers.timer (.obj n)).callback ≠ some .waitQueueTimeoutHandler
  timedOut : ∀ th, (s.thread th).state ≠ .running →
    (s.thread th).waitQueueBlockRet = .timedOut →
      ∃ f, (s.thread th).frame = some f ∧ A.due (.stack th f) (A.no (.stack th f)) = true

variable {T : Timers TimerId Callback}

section Waited

variable {s : Sleepers} {A : Arms TimerId}

theorem Waited.isFinal (h : Waited s A) : Final (s, A) := by
  constructor
  · intro cpu now t ht hnull
    have hsome := h.tidy.dequeued cpu now t ht
    rw [hnull] at hsome
    cases hsome
  · exact h.tidy.final
  · intro th hst hret
    replace hst : (s.thread th).state = .ready := hst
    exact h.timedOut th (by simp [hst]) hret
  · exact h.flight

theorem waited_init (now : ℕ) : Waited (Sleepers.init now) Arms.init := by
  refine ⟨tidy_init now, fun th _ => rfl, fun th f => rfl, fun th f cpu h => ?_,
    fun cpu th f h => ?_, fun cpu now th f h => ?_, fun cpu now t p arg h => ?_, fun n h => ?_,
    fun th h => ?_⟩
  all_goals simp [Sleepers.init, Timers.init, TimerT.initial, TickPc.timer] at h

/-- What happens to timer objects, outside the ticks, is nothing to the threads. -/
theorem Waited.frame (h : Waited s A) {A' : Arms TimerId}
    (done : ℕ → Bool) (hT : Tidy T A') (htick : T.tick = s.timers.tick)
    (hstack : ∀ th f, T.timer (.stack th f) = s.timers.timer (.stack th f))
    (huser : ∀ n, (T.timer (.obj n)).callback ≠ some .waitQueueTimeoutHandler)
    (hno : ∀ th f, A'.no (.stack th f) = A.no (.stack th f)) (hflight : A'.flight = A.flight)
    (hdue : A'.due = A.due) : Waited { s with timers := T, done := done } A' := by
  constructor
  · exact hT
  · exact h.outside
  · intro th f
    simp only [hstack]
    exact h.oneshot th f
  · intro th f cpu
    simp only [hstack]
    exact h.queued th f cpu
  · intro cpu th f
    simp only [htick, hno, hflight]
    exact h.flight cpu th f
  · intro cpu now th f
    simp only [htick, hstack]
    exact h.dequeued cpu now th f
  · simp only [htick]
    exact h.calling
  · exact huser
  · intro th
    simp only [hno, hdue]
    exact h.timedOut th

/-- The threads after a processor leaves the loop of `timer_tick`. -/
theorem Waited.ends (h : Waited s A) (cpu : ℕ) :
    Waited { s with timers := { s.timers with tick := update s.timers.tick cpu .idle } }
      A := by
  have htick : ∀ c pc, update s.timers.tick cpu .idle c = pc → pc ≠ .idle →
      s.timers.tick c = pc := by
    rintro c pc rfl hpc
    rcases eq_or_ne c cpu with rfl | hne
    · simp at hpc
    · simp [hne]
  constructor
  · exact h.tidy.ends cpu
  · exact h.outside
  · exact h.oneshot
  · exact h.queued
  · intro c th f hc
    refine h.flight c th f ?_
    rw [htick c _ rfl]
    · exact hc
    · intro hidle
      simp [hidle, TickPc.timer] at hc
  · exact fun c now th f hc => h.dequeued c now th f (htick c _ hc (by simp))
  · exact fun c now t p arg hc => h.calling c now t p arg (htick c _ hc (by simp))
  · exact h.user
  · exact h.timedOut

/-- The threads after `timer_tick` takes a timer off its queue. -/
theorem Waited.take (h : Waited s A) {t : TimerId} {c : ℕ}
    (hnode : (s.timers.timer t).node = some c) (cpu now : ℕ) :
    Waited { s with timers := { listDelete s.timers t with
        tick := update (listDelete s.timers t).tick cpu (.dequeued now t) } }
      (A.take cpu t) := by
  have hfield : ∀ u, ((listDelete s.timers t).timer u).callback = (s.timers.timer u).callback ∧
      ((listDelete s.timers t).timer u).arg = (s.timers.timer u).arg ∧
      ((listDelete s.timers t).timer u).periodicTime = (s.timers.timer u).periodicTime := by
    intro u
    rcases eq_or_ne u t with rfl | hne
    · simp [listDelete_timer]
    · simp [listDelete_timer, hne]
  have hnd : ∀ u d, ((listDelete s.timers t).timer u).node = some d →
      (s.timers.timer u).node = some d := by
    intro u d hu
    rcases eq_or_ne u t with rfl | hne
    · simp [listDelete_timer] at hu
    · simpa [listDelete_timer, hne] using hu
  have htick : ∀ c', c' ≠ cpu →
      update (listDelete s.timers t).tick cpu (.dequeued now t) c' = s.timers.tick c' := by
    intro c' hne
    rw [update_of_ne hne, listDelete_tick]
  constructor
  · exact h.tidy.take hnode now
  · exact h.outside
  · intro th f
    exact (hfield _).2.2.trans (h.oneshot th f)
  · intro th f d hd
    simp only [(hfield _).1, (hfield _).2.1]
    exact h.queued th f d (hnd _ d hd)
  · intro c' th f hc
    rcases eq_or_ne c' cpu with rfl | hne
    · simp only [update_self, TickPc.timer, Option.some.injEq] at hc
      subst hc
      exact ⟨(h.queued th f c hnode).1, by simp [Arms.take]⟩
    · simp only [htick c' hne] at hc
      simpa [Arms.take, hne] using h.flight c' th f hc
  · intro c' now' th f hc
    simp only [(hfield _).1, (hfield _).2.1]
    rcases eq_or_ne c' cpu with rfl | hne
    · simp only [update_self, TickPc.dequeued.injEq] at hc
      obtain ⟨-, rfl⟩ := hc
      exact (h.queued th f c hnode).2
    · simp only [htick c' hne] at hc
      exact h.dequeued c' now' th f hc
  · intro c' now' u p arg hc
    rcases eq_or_ne c' cpu with rfl | hne
    · simp at hc
    · simp only [htick c' hne] at hc
      exact h.calling c' now' u p arg hc
  · intro n
    simp only [(hfield _).1]
    exact h.user n
  · intro th hst hret
    obtain ⟨f, hf, hdue⟩ := h.timedOut th hst hret
    refine ⟨f, hf, ?_⟩
    rcases eq_or_ne (TimerId.stack th f) t with rfl | hne
    · simp [Arms.take]
    · simpa [Arms.take, hne] using hdue

theorem Waited.tickLoop (h : Waited s A) (cpu now : ℕ) :
    Waited { s with timers := (tickLoop s.timers cpu now).1 }
      (A.goOn cpu (tickLoop s.timers cpu now).2) := by
  unfold Timer.tickLoop
  split
  · exact h.ends cpu
  · rename_i t l hq
    split
    · exact h.ends cpu
    · exact h.take ((h.tidy.linked.mem cpu t).1 (by simp [hq])) cpu now

/-- The threads after a callback returns: a timer that is put back is a timer object. -/
theorem Waited.finish (h : Waited s A) (cpu now : ℕ) (t : TimerId) (periodic : Bool) :
    Waited { s with timers := (tickFinish s.timers cpu now t periodic).1 }
      (A.goOn cpu (tickFinish s.timers cpu now t periodic).2) := by
  unfold tickFinish
  split
  · rename_i hre
    obtain ⟨-, hnode, hp⟩ := hre
    have hT := h.tidy.requeue hnode hp cpu (u32 (now + (s.timers.timer t).periodicTime))
    refine (h.frame s.done hT rfl (fun th f => ?_) (fun n => ?_) (fun _ _ => rfl) rfl
      rfl).tickLoop cpu now
    · have hne : TimerId.stack th f ≠ t := by
        rintro rfl
        have := h.oneshot th f
        omega
      simp [insertTimerInQueue, Timers.setTimer, hne]
    · rcases eq_or_ne (TimerId.obj n) t with rfl | hne
      · simpa [insertTimerInQueue, Timers.setTimer] using h.user n
      · simpa [insertTimerInQueue, Timers.setTimer, hne] using h.user n
  · exact h.tickLoop cpu now

variable {done : ℕ → Bool}

section

variable (h : Waited s A)
include h

/-- The threads after the call of a callback. -/
theorem Waited.call {cpu now : ℕ} {t : TimerId}
    (hpc : s.timers.tick cpu = .dequeued now t) {p : Bool} {cb : Callback}
    (hcb : (s.timers.timer t).callback = some cb) :
    Waited { s with
      timers := { s.timers with
        tick := update s.timers.tick cpu (.calling now t p cb (s.timers.timer t).arg) }
      done := done } A := by
  constructor
  · exact h.tidy.call hpc p cb _
  · exact h.outside
  · exact h.oneshot
  · exact h.queued
  · intro c th f hc
    refine h.flight c th f ?_
    rcases eq_or_ne c cpu with rfl | hne
    · simpa [hpc, TickPc.timer] using hc
    · simpa [hne] using hc
  · intro c now' th f hc
    rcases eq_or_ne c cpu with rfl | hne
    · simp at hc
    · simp only [update_of_ne hne] at hc
      exact h.dequeued c now' th f hc
  · intro c now' u q arg hc
    rcases eq_or_ne c cpu with rfl | hne
    · simp only [update_self, TickPc.calling.injEq] at hc
      obtain ⟨-, rfl, -, rfl, rfl⟩ := hc
      cases t with
      | obj n => exact absurd hcb (h.user n)
      | stack th f => exact ⟨f, by rw [(h.dequeued c now th f hpc).2]⟩
    · simp only [update_of_ne hne] at hc
      exact h.calling c now' u q arg hc
  · exact h.user
  · exact h.timedOut

/-- The threads after a timer object is set. -/
theorem Waited.setObj {cpu n delay period arg k : ℕ}
    (hT : timerSet s.timers cpu (.obj n) delay period (.user k) arg = some T) :
    Waited { s with timers := T, done := done } (A.set (.obj n)) := by
  have htidy := h.tidy.set hT
  simp only [timerSet, Option.ite_none_left_eq_some, Option.some.injEq] at hT
  obtain ⟨-, rfl⟩ := hT
  refine h.frame done htidy rfl (fun th f => ?_) (fun m => ?_) (fun th f => ?_) rfl rfl
  · simp [insertTimerInQueue, Timers.setTimer]
  · rcases eq_or_ne m n with rfl | hne
    · simp [insertTimerInQueue, Timers.setTimer]
    · simpa [insertTimerInQueue, Timers.setTimer, hne] using h.user m
  · simp [Arms.set]

/-- The threads after a timer object is cancelled. -/
theorem Waited.cancelObj {cpu n : ℕ}
    (hfree : s.timers.Free cpu) (hset : Settled s.timers cpu (.obj n)) :
    Waited { s with timers := timerCancel s.timers (.obj n), done := done }
      (A.cancel cpu (.obj n)) := by
  have htimer : (timerCancel s.timers (.obj n)).timer = update s.timers.timer (.obj n)
      { s.timers.timer (.obj n) with node := none, periodicTime := 0, callback := none, arg := 0 } := by
    simp [timerCancel, Timers.setTimer, listDelete_timer]
  refine h.frame done (h.tidy.cancel hfree hset) (listDelete_tick _ _) (fun th f => ?_) (fun m => ?_)
    (fun _ _ => rfl) rfl rfl
  · simp [htimer]
  · rcases eq_or_ne m n with rfl | hne
    · simp [htimer]
    · simpa [htimer, hne] using h.user m

/-- **A timer step.** -/
theorem Waited.timer {a : TimerAct TimerId Callback}
    (hok : CancelsSettled (s, A) (.timer a)) (hord : Ordinary s a) {o : TickOut TimerId Callback}
    (hT : timerStep s.timers a = some (T, o)) :
    Waited { s with timers := T, done := done } (A.next a o) := by
  have hdone : ∀ {T : Timers TimerId Callback} {A'}, Waited { s with timers := T } A' →
      Waited { s with timers := T, done := done } A' := fun h' =>
    ⟨h'.tidy, h'.outside, h'.oneshot, h'.queued, h'.flight, h'.dequeued, h'.calling, h'.user,
      h'.timedOut⟩
  cases a with
  | advance ms =>
    simp only [timerStep, Option.some.injEq, Prod.mk.injEq] at hT
    obtain ⟨rfl, rfl⟩ := hT
    exact h.frame done (h.tidy.advance _) rfl (fun _ _ => rfl) h.user (fun _ _ => rfl) rfl rfl
  | setOneshot cpu t delay cb arg =>
    match t, cb, hord with
    | .obj n, .user k, _ =>
      simp only [timerStep, timerSetOneshot, Option.ite_none_right_eq_some,
        Option.map_eq_some_iff, Prod.mk.injEq] at hT
      obtain ⟨-, T', hset, rfl, rfl⟩ := hT
      exact h.setObj hset
  | setPeriodic cpu t period cb arg =>
    match t, cb, hord with
    | .obj n, .user k, _ =>
      simp only [timerStep, timerSetPeriodic, Option.ite_none_right_eq_some,
        Option.map_eq_some_iff, Prod.mk.injEq] at hT
      obtain ⟨-, T', hset, rfl, rfl⟩ := hT
      exact h.setObj hset
  | cancel cpu t =>
    match t, hord with
    | .obj n, _ =>
      simp only [timerStep, Option.ite_none_right_eq_some, Option.some.injEq,
        Prod.mk.injEq] at hT
      obtain ⟨hfree, rfl, rfl⟩ := hT
      exact h.cancelObj hfree hok
  | enter cpu =>
    simp only [timerStep] at hT
    split at hT
    · simp only [Option.some.injEq] at hT
      have hloop := hdone (h.tickLoop cpu s.timers.currentTime)
      rw [hT] at hloop
      exact hloop
    · cases hT
  | call cpu =>
    simp only [timerStep] at hT
    split at hT
    · rename_i now t hpc
      simp only [tickCall, Option.map_eq_some_iff, Prod.mk.injEq] at hT
      obtain ⟨cb, hcb, rfl, rfl⟩ := hT
      exact h.call hpc hcb
    · cases hT
  | finish cpu =>
    simp only [timerStep] at hT
    split at hT
    · rename_i now t periodic cb arg hpc
      simp only [Option.some.injEq] at hT
      have hfin := hdone (h.finish cpu now t periodic)
      rw [hT] at hfin
      exact hfin
    · cases hT

/-- A thread that is in no `wait_queue_block` has no timer in a queue or in flight. -/
theorem Waited.unused {th : ℕ} (hframe : (s.thread th).frame = none) (f : ℕ) :
    (s.timers.timer (.stack th f)).node = none ∧
      ∀ cpu, (s.timers.tick cpu).timer ≠ some (.stack th f) := by
  constructor
  · by_contra hne
    obtain ⟨cpu, hcpu⟩ := Option.ne_none_iff_exists'.1 hne
    have hf := (h.queued th f cpu hcpu).1
    rw [hframe] at hf
    cases hf
  · intro cpu hcpu
    have hf := (h.flight cpu th f hcpu).1
    rw [hframe] at hf
    cases hf

/-- `wait_queue_block` with a timer. -/
theorem Waited.blockTimed {cpu th f timeout : ℕ} (hrun : (s.thread th).state = .running)
    (hT : timerSetOneshot (s.timers.setTimer (.stack th f) .initial) cpu (.stack th f) timeout
      .waitQueueTimeoutHandler th = some T) :
    Waited { s with
      timers := T
      thread := update s.thread th ⟨.blocked, .noError, some f⟩ } (A.set (.stack th f)) := by
  have hframe := h.outside th hrun
  obtain ⟨hnode, hflight⟩ := h.unused hframe f
  have htidy := (h.tidy.reset hnode hflight).set hT
  simp only [timerSetOneshot, timerSet, Option.ite_none_left_eq_some, Option.some.injEq] at hT
  obtain ⟨-, rfl⟩ := hT
  -- the timers of the other blocks are untouched, and this thread had none
  have hthread : ∀ u g, (s.thread u).frame = some g →
      (update s.thread th ⟨.blocked, .noError, some f⟩ u).frame = some g ∧ u ≠ th := by
    intro u g hu
    have hne : u ≠ th := by
      rintro rfl
      rw [hframe] at hu
      cases hu
    exact ⟨by simpa [hne] using hu, hne⟩
  constructor
  · exact htidy
  · intro u hu
    rcases eq_or_ne u th with rfl | hne
    · simp at hu
    · simp only [update_of_ne hne] at hu ⊢
      exact h.outside u hu
  · intro u g
    rcases eq_or_ne (TimerId.stack u g) (.stack th f) with heq | hne
    · simp [insertTimerInQueue, Timers.setTimer, heq]
    · simpa only [insertTimerInQueue, Timers.setTimer, update_of_ne hne] using
        h.oneshot u g
  · intro u g c hc
    rcases eq_or_ne (TimerId.stack u g) (.stack th f) with heq | hne
    · obtain ⟨rfl, rfl⟩ := TimerId.stack.inj heq
      simp [insertTimerInQueue, Timers.setTimer]
    · simp only [insertTimerInQueue, Timers.setTimer, update_of_ne hne] at hc ⊢
      obtain ⟨hu, hrest⟩ := h.queued u g c hc
      exact ⟨(hthread u g hu).1, hrest⟩
  · intro c u g hc
    obtain ⟨hu, hno⟩ := h.flight c u g hc
    obtain ⟨hu', hne⟩ := hthread u g hu
    exact ⟨hu', by simpa [Arms.set, hne] using hno⟩
  · intro c now u g hc
    have hne : TimerId.stack u g ≠ .stack th f := by
      rintro heq
      rw [heq] at hc
      exact hflight c (by rw [show s.timers.tick c = _ from hc]; rfl)
    simp only [insertTimerInQueue, Timers.setTimer, update_of_ne hne]
    exact h.dequeued c now u g hc
  · exact h.calling
  · intro n
    simpa [insertTimerInQueue, Timers.setTimer] using h.user n
  · intro u hst hret
    rcases eq_or_ne u th with rfl | hne
    · simp at hret
    · simp only [update_of_ne hne] at hst hret ⊢
      obtain ⟨g, hg, hdue⟩ := h.timedOut u hst hret
      exact ⟨g, hg, by simpa [Arms.set, hne] using hdue⟩

/-- A change of a thread that leaves it in the `wait_queue_block` it is in. -/
theorem Waited.setThread {th : ℕ} {v : Sleeper}
    (hframe : v.frame = (s.thread th).frame) (hst : v.state = .running → v.frame = none)
    (hret : v.state ≠ .running → v.waitQueueBlockRet = .timedOut →
      ∃ f, v.frame = some f ∧ A.due (.stack th f) (A.no (.stack th f)) = true) :
    Waited { s with thread := update s.thread th v, done := done } A := by
  have hf : ∀ u, (update s.thread th v u).frame = (s.thread u).frame := by
    intro u
    rcases eq_or_ne u th with rfl | hne
    · simpa using hframe
    · simp [hne]
  constructor
  · exact h.tidy
  · intro u hu
    rcases eq_or_ne u th with rfl | hne
    · simp only [update_self] at hu ⊢
      exact hst hu
    · simp only [update_of_ne hne] at hu ⊢
      exact h.outside u hu
  · exact h.oneshot
  · intro u g c hc
    simp only [hf]
    exact h.queued u g c hc
  · intro c u g hc
    simp only [hf]
    exact h.flight c u g hc
  · exact h.dequeued
  · exact h.calling
  · exact h.user
  · intro u hu hur
    rcases eq_or_ne u th with rfl | hne
    · simp only [update_self] at hu hur ⊢
      exact hret hu hur
    · simp only [update_of_ne hne] at hu hur ⊢
      exact h.timedOut u hu hur

/-- `thread_unblock_from_wait_queue`, with a timeout of the block that the thread is in. -/
theorem Waited.unblock {th : ℕ} {err : Status} (done : ℕ → Bool) (herr : err = .timedOut →
      ∃ f, (s.thread th).frame = some f ∧ A.due (.stack th f) (A.no (.stack th f)) = true) :
    Waited { threadUnblockFromWaitQueue s th err with done := done } A := by
  unfold threadUnblockFromWaitQueue
  split
  · exact ⟨h.tidy, h.outside, h.oneshot, h.queued, h.flight, h.dequeued, h.calling, h.user,
      h.timedOut⟩
  · exact h.setThread rfl (by simp) fun _ => herr

/-- The return of `wait_queue_block`. -/
theorem Waited.resume {cpu th : ℕ} (hidle : s.timers.tick cpu = .idle)
    (hset : ∀ f, (s.thread th).frame = some f → Settled s.timers cpu (.stack th f)) :
    Waited (waitQueueResume s th)
      ((s.thread th).frame.elim A fun f => A.cancel cpu (.stack th f)) := by
  cases hframe : (s.thread th).frame with
  | none =>
    have hs : waitQueueResume s th = { s with
        thread := update s.thread th
          ⟨.running, (s.thread th).waitQueueBlockRet, none⟩ } := by
      simp [waitQueueResume, hframe]
    rw [hs]
    exact h.setThread hframe.symm (fun _ => rfl) (by simp)
  | some f =>
    have hs : waitQueueResume s th = { s with
        timers := timerCancel s.timers (.stack th f)
        thread := update s.thread th
          ⟨.running, (s.thread th).waitQueueBlockRet, none⟩ } := by
      simp [waitQueueResume, hframe]
    have htimer : (timerCancel s.timers (.stack th f)).timer =
        update s.timers.timer (.stack th f) { s.timers.timer (.stack th f) with
          node := none, periodicTime := 0, callback := none, arg := 0 } := by
      simp [timerCancel, Timers.setTimer, listDelete_timer]
    have htick : (timerCancel s.timers (.stack th f)).tick = s.timers.tick :=
      listDelete_tick _ _
    have hfree : s.timers.Free cpu := fun now t => by simp [hidle]
    -- this frame's timer is in flight nowhere, and the thread has no other
    have hgone : ∀ c g, (s.timers.tick c).timer ≠ some (.stack th g) := by
      intro c g hc
      obtain rfl : f = g := by
        have hg := (h.flight c th g hc).1
        simpa [hframe] using hg
      rcases eq_or_ne c cpu with rfl | hne
      · simp [hidle, TickPc.timer] at hc
      · exact hset f hframe c hne hc
    rw [hs]
    constructor
    · exact h.tidy.cancel hfree (hset f hframe)
    · intro u hu
      rcases eq_or_ne u th with rfl | hne
      · simp
      · simp only [update_of_ne hne] at hu ⊢
        exact h.outside u hu
    · intro u g
      rcases eq_or_ne (TimerId.stack u g) (.stack th f) with heq | hne
      · simp [htimer, heq]
      · simpa only [htimer, update_of_ne hne] using h.oneshot u g
    · intro u g c hc
      rcases eq_or_ne (TimerId.stack u g) (.stack th f) with heq | hne
      · simp [htimer, heq] at hc
      · simp only [htimer, update_of_ne hne] at hc ⊢
        obtain ⟨hu, hrest⟩ := h.queued u g c hc
        have hne' : u ≠ th := by
          rintro rfl
          rw [hframe, Option.some.injEq] at hu
          exact hne (by rw [hu])
        exact ⟨by simpa [hne'] using hu, hrest⟩
    · intro c u g hc
      simp only [htick] at hc
      have hne : u ≠ th := by
        rintro rfl
        exact hgone c g hc
      simpa [hne, Arms.cancel] using h.flight c u g hc
    · intro c now u g hc
      simp only [htick] at hc
      have hne : TimerId.stack u g ≠ .stack th f := by
        intro heq
        obtain ⟨rfl, rfl⟩ := TimerId.stack.inj heq
        exact hgone c g (by simp [hc, TickPc.timer])
      simp only [htimer, update_of_ne hne]
      exact h.dequeued c now u g hc
    · simp only [htick]
      exact h.calling
    · intro n
      simpa [htimer] using h.user n
    · intro u hu hur
      rcases eq_or_ne u th with rfl | hne
      · simp at hu
      · simp only [update_of_ne hne] at hu hur ⊢
        exact h.timedOut u hu hur

end

/-- **One step keeps the invariant**, unless it cancels a timer in flight elsewhere. -/
theorem Waited.step {p p' : Sleepers × Arms TimerId} (h : Waited p.1 p.2) {a : SleepAct}
    (hok : CancelsSettled p a) (hstep : recordedStep p a = some p') : Waited p'.1 p'.2 := by
  obtain ⟨s, A⟩ := p
  simp only [recordedStep, Option.map_eq_some_iff] at hstep
  obtain ⟨⟨s', o⟩, hs, rfl⟩ := hstep
  cases a with
  | timer a =>
    simp only [sleepStep, Option.ite_none_right_eq_some, Option.map_eq_some_iff,
      Prod.mk.injEq] at hs
    obtain ⟨hord, ⟨T, o'⟩, hT, rfl, rfl⟩ := hs
    exact h.timer hok hord hT
  | block cpu th f timeout =>
    simp only [sleepStep, Option.ite_none_right_eq_some, Option.map_eq_some_iff,
      Prod.mk.injEq] at hs
    obtain ⟨⟨hrun, -⟩, s'', hb, rfl, rfl⟩ := hs
    simp only [Arms.after]
    unfold waitQueueBlock at hb
    split at hb
    · rename_i h0
      simp only [Option.some.injEq] at hb
      rw [if_pos (.inl h0), ← hb]
      exact h
    · rename_i h0
      split at hb
      · rename_i hinf
        simp only [Option.some.injEq] at hb
        rw [if_pos (.inr hinf), ← hb]
        exact h.setThread (h.outside th hrun).symm (by simp) (by simp)
      · rename_i hinf
        simp only [Option.map_eq_some_iff] at hb
        obtain ⟨T, hT, rfl⟩ := hb
        rw [if_neg (by tauto)]
        exact h.blockTimed hrun hT
  | wake th err =>
    simp only [sleepStep, Option.ite_none_right_eq_some, Option.some.injEq,
      Prod.mk.injEq] at hs
    obtain ⟨⟨-, herr⟩, rfl, rfl⟩ := hs
    exact h.unblock (threadUnblockFromWaitQueue s th err).done fun he => absurd he herr
  | resume cpu th =>
    simp only [sleepStep, Option.ite_none_right_eq_some, Option.some.injEq,
      Prod.mk.injEq] at hs
    obtain ⟨⟨-, hidle⟩, rfl, rfl⟩ := hs
    exact h.resume hidle hok
  | handler cpu =>
    simp only [sleepStep] at hs
    split at hs
    · rename_i now t p arg hpc
      simp only [Option.ite_none_left_eq_some, Option.some.injEq, Prod.mk.injEq] at hs
      obtain ⟨-, rfl, rfl⟩ := hs
      obtain ⟨f, rfl⟩ := h.calling cpu now t p arg hpc
      have hfl : (s.timers.tick cpu).timer = some (.stack arg f) := by simp [hpc, TickPc.timer]
      obtain ⟨hframe, hno⟩ := h.flight cpu arg f hfl
      refine h.unblock _ fun _ => ⟨f, hframe, ?_⟩
      exact hno ▸ h.tidy.due cpu _ hfl
    · cases hs

end Waited

/-! ### Runs -/

/-- **Cancellation is final** in every run that never cancels a timer while a tick of
another processor has it in flight. -/
theorem cancellation_final (now : ℕ) (as : List SleepAct)
    (hok : Along recordedStep CancelsSettled (Sleepers.init now, Arms.init) as) :
    Throughout recordedStep Final (Sleepers.init now, Arms.init) as := by
  have hinv : Throughout recordedStep (fun p => Waited p.1 p.2)
      (Sleepers.init now, Arms.init) as :=
    hok.throughout (fun _ _ _ h hok hstep => Waited.step h hok hstep) (waited_init now)
  exact hinv.imp fun p h => h.isFinal

/-- A thread waits on one processor, its timer expires there, and it goes on on another. -/
def timeoutRun : List SleepAct :=
  [.block 0 5 0 10, .timer (.advance 10), .timer (.enter 0), .timer (.call 0), .handler 0,
    .timer (.finish 0), .resume 1 5]

/-- No callback runs after the cancellation by the thread that went on. -/
theorem cancellation_final_timeoutRun :
    Throughout recordedStep Final (Sleepers.init 0, Arms.init) timeoutRun := by
  refine cancellation_final 0 timeoutRun ?_
  refine ⟨trivial, fun _ h => ?_⟩
  cases h
  refine ⟨trivial, fun _ h => ?_⟩
  cases h
  refine ⟨trivial, fun _ h => ?_⟩
  cases h
  refine ⟨trivial, fun _ h => ?_⟩
  cases h
  refine ⟨trivial, fun _ h => ?_⟩
  cases h
  refine ⟨trivial, fun _ h => ?_⟩
  cases h
  refine ⟨fun f _ c _ hc => ?_, fun _ _ => trivial⟩
  cases c with
  | zero => cases hc
  | succ c => cases hc

/-- **A cancel from another processor.**  The tick of processor 0 has taken the timer of a
waiting thread off its queue; the thread is woken and returns on processor 1, which
cancels the timer; the tick is about to call through `NULL`.  And if the tick has read
the callback before, it runs when the thread waits again, and ends that wait, whose own
timer has not come due. -/
theorem cancel_calls_null :
    (∃ p, run recordedStep (Sleepers.init 0, Arms.init)
        [.block 0 5 0 10, .timer (.advance 10), .timer (.enter 0), .wake 5 .noError, .resume 1 5] =
        some p ∧ sleepStep p.1 (.timer (.call 0)) = none ∧ ¬ Final p) ∧
      ∃ p, run recordedStep (Sleepers.init 0, Arms.init)
        [.block 0 5 0 10, .timer (.advance 10), .timer (.enter 0), .timer (.call 0),
          .wake 5 .noError, .resume 1 5, .block 1 5 0 1000, .handler 0] = some p ∧
        (p.1.thread 5).waitQueueBlockRet = .timedOut ∧ ¬ Final p := by
  refine ⟨⟨_, rfl, rfl, fun h => ?_⟩, _, rfl, rfl, fun h => ?_⟩
  · exact h.notNull 0 10 (.stack 5 0) rfl rfl
  · obtain ⟨f, hf, hdue⟩ := h.ownTimer 5 rfl rfl
    cases hf
    cases hdue

end Timer
end LittleKernel
