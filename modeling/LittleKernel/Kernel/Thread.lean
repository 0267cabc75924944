/-
# Threads, run queues and wait queues on one processor

`kernel/thread.c`, built without SMP: the run queues with their bitmap, the wait
queues, and every operation that moves a thread between them.

A thread is the number of its `thread_t`.  The structures are numbered as they
are initialised and no number is used twice; `magic` is cleared when a structure
is torn down, and reading a torn-down structure is not a step of the machine.
Thread 0 is `_idle_thread`: it runs `kmain` first and idles from
`thread_become_idle` on, and it never sleeps, blocks, joins or exits.

A step is what happens under the thread lock, up to the point where the lock is
free again: `thread_resched` switches to another thread, which goes on after its
own `thread_resched` and finishes what it was doing (`afterResched`).  What a
caller does before and after, holding the lock or not, are other steps, so every
interleaving of callers and interrupts is a sequence of steps.  A timer may fire
whenever it is armed.  The `DEBUG_ASSERT`s are not guards of the steps: what they
assert of the queues follows from the invariant of `Kernel/Scheduler.lean`.
-/

import LittleKernel.Kernel.WaitQueue

namespace LittleKernel
namespace Kernel

open Function

/-- A `wait_queue_t`: of a kernel object, or the `retcode_wait_queue` of a thread. -/
inductive WaitQueueId
  | object (n : ℕ)
  | retcode (t : ℕ)
  deriving DecidableEq

/-- `struct wait_queue`, the list by the threads of its nodes. -/
structure WaitQueue where
  list : List ℕ
  count : ℤ
  deriving DecidableEq

/-- The callback of the timer on a thread's stack. -/
inductive TimerCallback
  | threadSleepHandler
  | waitQueueTimeoutHandler
  deriving DecidableEq

/-- What is left of the call in which a thread gave up the processor: only to
release the lock, or the rest of `wait_queue_block`, in `thread_join(t)` or not. -/
inductive Resume
  | unlock
  | block
  | join (t : ℕ)
  deriving DecidableEq

/-- The fields of `thread_t` that the scheduler works on, the timer on the stack
and the call the thread is in. -/
structure Thread where
  magic : Bool
  priority : Fin 32
  state : ThreadState
  remainingQuantum : ℤ
  detached : Bool
  realTime : Bool
  idle : Bool
  blockingWaitQueue : Option WaitQueueId
  waitQueueBlockRet : Status
  retcode : ℤ
  timer : Option TimerCallback
  resume : Resume
  deriving DecidableEq

/-- The state of the scheduler; `threads` structures have been initialised. -/
structure Sched where
  thread : ℕ → Thread
  threads : ℕ
  current : ℕ
  runQueue : Fin 32 → List ℕ
  runQueueBitmap : BitVec 32
  waitQueue : WaitQueueId → WaitQueue

/-- `_idle_thread`. -/
def idleThread : ℕ := 0

/-- The thread of a new structure (`init_thread_struct` and `thread_create_etc`). -/
def Thread.create (priority : Fin 32) : Thread where
  magic := true
  priority := priority
  state := .suspended
  remainingQuantum := 0
  detached := false
  realTime := false
  idle := false
  blockingWaitQueue := none
  waitQueueBlockRet := .noError
  retcode := 0
  timer := none
  resume := .unlock

/-- Memory that holds no thread yet. -/
def Thread.blank : Thread := { Thread.create 0 with magic := false }

/-- `thread_init_early`: the bootstrap thread runs, nothing is queued. -/
def threadInitEarly : Sched where
  thread := update (fun _ => Thread.blank) idleThread
    { Thread.create 31 with state := .running, detached := true }
  threads := 1
  current := idleThread
  runQueue := fun _ => []
  runQueueBitmap := 0
  waitQueue := fun _ => ⟨[], 0⟩

/-- A change of the structure of thread `t`. -/
def Sched.modify (s : Sched) (t : ℕ) (f : Thread → Thread) : Sched :=
  { s with thread := update s.thread t (f (s.thread t)) }

/-- `insert_in_run_queue_head`. -/
def insertInRunQueueHead (s : Sched) (t : ℕ) : Sched :=
  let p := (s.thread t).priority
  { s with
    runQueue := update s.runQueue p (t :: s.runQueue p)
    runQueueBitmap := s.runQueueBitmap ||| BitVec.twoPow 32 p }

/-- `insert_in_run_queue_tail`. -/
def insertInRunQueueTail (s : Sched) (t : ℕ) : Sched :=
  let p := (s.thread t).priority
  { s with
    runQueue := update s.runQueue p (s.runQueue p ++ [t])
    runQueueBitmap := s.runQueueBitmap ||| BitVec.twoPow 32 p }

/-- The loop of `get_top_thread` over the bits of `local_run_queue_bitmap` below `k`,
from the highest on: the first queue with a thread. -/
def topQueue (s : Sched) : (k : ℕ) → k ≤ 32 → Option (Fin 32 × ℕ × List ℕ)
  | 0, _ => none
  | k + 1, h =>
    if s.runQueueBitmap.getLsbD k then
      match s.runQueue ⟨k, h⟩ with
      | [] => topQueue s k (by omega)
      | t :: l => some (⟨k, h⟩, t, l)
    else topQueue s k (by omega)

/-- The head of run queue `p` is taken off, `l` being the rest. -/
def takeReady (s : Sched) (p : Fin 32) (l : List ℕ) : Sched :=
  { s with
    runQueue := update s.runQueue p l
    runQueueBitmap :=
      if l = [] then s.runQueueBitmap &&& ~~~ BitVec.twoPow 32 p else s.runQueueBitmap }

/-- `get_top_thread`. -/
def getTopThread (s : Sched) : Sched × ℕ :=
  match topQueue s 32 le_rfl with
  | none => (s, idleThread)
  | some (p, t, l) => (takeReady s p l, t)

/-- The structure of a dead thread is taken off the thread list and freed; one that is
gone already cannot be read. -/
def threadTeardown (s : Sched) (t : ℕ) : Option Sched :=
  if (s.thread t).magic then some (s.modify t fun th => { th with magic := false }) else none

/-- What the thread that was switched to does before it releases the lock: it cancels
its timer, and a `thread_join` that was not refused tears the thread down. -/
def afterResched (s : Sched) : Option Sched :=
  let c := s.current
  let s' := s.modify c fun th => { th with timer := none, resume := .unlock }
  match (s.thread c).resume with
  | .unlock => some s
  | .block => some s'
  | .join t => if (s.thread c).waitQueueBlockRet = .noError then threadTeardown s' t else some s'

/-- `thread_resched`, and what the new thread does until the lock is free. -/
def threadResched (s : Sched) : Option Sched :=
  let newthread := (getTopThread s).2
  let s₁ := (getTopThread s).1.modify newthread fun th => { th with state := .running }
  if newthread = s.current then afterResched s₁
  else
    let s₂ := s₁.modify newthread fun th =>
      { th with remainingQuantum := if th.remainingQuantum ≤ 0 then 5 else th.remainingQuantum }
    afterResched { s₂ with current := newthread }

/-- `thread_create`. -/
def threadCreate (s : Sched) (priority : Fin 32) : Sched :=
  { s with
    thread := update s.thread s.threads (Thread.create priority)
    threads := s.threads + 1
    waitQueue := update s.waitQueue (.retcode s.threads) ⟨[], 0⟩ }

/-- `thread_resume` up to its `thread_yield`. -/
def threadResume (s : Sched) (t : ℕ) : Sched :=
  if (s.thread t).state = .suspended then
    insertInRunQueueHead (s.modify t fun th => { th with state := .ready }) t
  else s

/-- `thread_yield`. -/
def threadYield (s : Sched) : Option Sched :=
  let c := s.current
  let s₁ := s.modify c fun th => { th with state := .ready, remainingQuantum := 0 }
  threadResched (if (s.thread c).idle then s₁ else insertInRunQueueTail s₁ c)

/-- `thread_preempt`. -/
def threadPreempt (s : Sched) : Option Sched :=
  let c := s.current
  let s₁ := s.modify c fun th => { th with state := .ready }
  threadResched
    (if (s.thread c).idle then s₁
    else if 0 < (s.thread c).remainingQuantum then insertInRunQueueHead s₁ c
    else insertInRunQueueTail s₁ c)

/-- `thread_timer_tick`. -/
def threadTimerTick (s : Sched) : Sched :=
  let c := s.current
  if (s.thread c).realTime || (s.thread c).idle then s
  else s.modify c fun th => { th with remainingQuantum := th.remainingQuantum - 1 }

/-- `thread_set_real_time`. -/
def threadSetRealTime (s : Sched) (t : ℕ) : Sched := s.modify t fun th => { th with realTime := true }

/-- `thread_sleep`. -/
def threadSleep (s : Sched) : Option Sched :=
  threadResched (s.modify s.current fun th =>
    { th with state := .sleeping, timer := some .threadSleepHandler })

/-- `thread_sleep_handler`. -/
def threadSleepHandler (s : Sched) (t : ℕ) : Sched :=
  insertInRunQueueHead (s.modify t fun th => { th with state := .ready, timer := none }) t

/-- `thread_set_priority`. -/
def threadSetPriority (s : Sched) (priority : ℤ) : Option Sched :=
  let c := s.current
  let p : Fin 32 := ⟨(max 1 (min priority 31)).toNat, by omega⟩
  threadResched
    (insertInRunQueueHead (s.modify c fun th => { th with priority := p, state := .ready }) c)

/-- `thread_become_idle`. -/
def threadBecomeIdle (s : Sched) : Option Sched :=
  threadYield (s.modify s.current fun th => { th with priority := 0, idle := true })

/-- `wait_queue_block` in a call that goes on with `r`; a zero timeout returns
`ERR_TIMED_OUT` at once. -/
def Sched.waitQueueBlock (s : Sched) (q : WaitQueueId) (timeout : ℕ) (r : Resume) :
    Option Sched :=
  if timeout = 0 then some s
  else
    let c := s.current
    let w := s.waitQueue q
    let s₁ : Sched :=
      { s with waitQueue := update s.waitQueue q ⟨w.list ++ [c], w.count + 1⟩ }
    threadResched (s₁.modify c fun th =>
      { th with
        state := .blocked
        blockingWaitQueue := some q
        waitQueueBlockRet := .noError
        timer := if timeout ≠ infiniteTime then some .waitQueueTimeoutHandler else none
        resume := r })

/-- What a thread becomes that is woken with `err`. -/
def Thread.wake (err : Status) (th : Thread) : Thread :=
  { th with state := .ready, waitQueueBlockRet := err, blockingWaitQueue := none }

/-- The head `t` of the list of `q` is taken off it, `l` being the rest. -/
def takeWaiter (s : Sched) (q : WaitQueueId) (err : Status) (t : ℕ) (l : List ℕ) : Sched :=
  let s₁ : Sched :=
    { s with waitQueue := update s.waitQueue q ⟨l, (s.waitQueue q).count - 1⟩ }
  s₁.modify t (Thread.wake err)

/-- The current thread goes to the head of its run queue. -/
def readyCurrent (s : Sched) : Sched :=
  insertInRunQueueHead (s.modify s.current fun th => { th with state := .ready }) s.current

/-- `wait_queue_wake_one`. -/
def Sched.waitQueueWakeOne (s : Sched) (q : WaitQueueId) (reschedule : Bool) (err : Status) :
    Option Sched :=
  match (s.waitQueue q).list with
  | [] => some s
  | t :: l =>
    let s₁ := takeWaiter s q err t l
    if reschedule then threadResched (insertInRunQueueHead (readyCurrent s₁) t)
    else some (insertInRunQueueHead s₁ t)

/-- The loop of `wait_queue_wake_all` over the list of `q`. -/
def wakeLoop (q : WaitQueueId) (err : Status) : List ℕ → Sched → Sched
  | [], s => s
  | t :: l, s => wakeLoop q err l (insertInRunQueueHead (takeWaiter s q err t l) t)

/-- `wait_queue_wake_all`. -/
def waitQueueWakeAll (s : Sched) (q : WaitQueueId) (reschedule : Bool) (err : Status) :
    Option Sched :=
  let w := s.waitQueue q
  let s₁ := if reschedule && decide (0 < w.count) then readyCurrent s else s
  let s₂ := wakeLoop q err w.list s₁
  if reschedule && decide (0 < w.list.length) then threadResched s₂ else some s₂

/-- `list_delete(&t->queue_node)`: the node leaves the list it is on. -/
def listDelete (s : Sched) (t : ℕ) : Sched :=
  { s with
    runQueue := fun p => (s.runQueue p).erase t
    waitQueue := fun q => { s.waitQueue q with list := (s.waitQueue q).list.erase t } }

/-- `t->blocking_wait_queue->count--`. -/
def decrementCount (s : Sched) (q : WaitQueueId) : Sched :=
  { s with
    waitQueue := update s.waitQueue q
      { s.waitQueue q with count := (s.waitQueue q).count - 1 } }

/-- `thread_unblock_from_wait_queue`; a blocked thread without a queue would be a
NULL dereference. -/
def Sched.threadUnblockFromWaitQueue (s : Sched) (t : ℕ) (err : Status) : Option Sched :=
  if (s.thread t).state ≠ .blocked then some s
  else
    match (s.thread t).blockingWaitQueue with
    | none => none
    | some q =>
      some (insertInRunQueueHead ((decrementCount (listDelete s t) q).modify t (Thread.wake err)) t)

/-- `wait_queue_timeout_handler`, of a one-shot timer. -/
def Sched.waitQueueTimeoutHandler (s : Sched) (t : ℕ) : Option Sched :=
  (s.modify t fun th => { th with timer := none }).threadUnblockFromWaitQueue t .timedOut

/-- `thread_join`. -/
def threadJoin (s : Sched) (t timeout : ℕ) : Option Sched :=
  if (s.thread t).detached then some s
  else if (s.thread t).state ≠ .death then s.waitQueueBlock (.retcode t) timeout (.join t)
  else threadTeardown s t

/-- `thread_detach`, up to the `thread_join` it calls on a dead thread. -/
def threadDetach (s : Sched) (t : ℕ) : Option Sched :=
  (waitQueueWakeAll s (.retcode t) false .threadDetached).map fun s₁ =>
    s₁.modify t fun th => { th with detached := decide (th.state ≠ .death) }

/-- `thread_exit`. -/
def threadExit (s : Sched) (retcode : ℤ) : Option Sched :=
  let c := s.current
  let s₁ := s.modify c fun th => { th with state := .death, retcode := retcode }
  if (s.thread c).detached then
    (threadTeardown s₁ c).bind threadResched
  else (waitQueueWakeAll s₁ (.retcode c) false .noError).bind threadResched

/-- The steps: calls of the current thread, or of an interrupt on top of it. -/
inductive Op
  | create (priority : Fin 32)
  | resume (t : ℕ)
  | yield
  | preempt
  | timerTick
  | setRealTime (t : ℕ)
  | sleep
  | sleepTimer (t : ℕ)
  | setPriority (priority : ℤ)
  | becomeIdle
  | block (n timeout : ℕ)
  | wakeOne (n : ℕ) (reschedule : Bool) (err : Status)
  | wakeAll (n : ℕ) (reschedule : Bool) (err : Status)
  | destroy (n : ℕ) (reschedule : Bool)
  | timeout (t : ℕ)
  | join (t timeout : ℕ)
  | detach (t : ℕ)
  | exit (retcode : ℤ)

/-- One step.  The thread a call is given is one whose structure is there, timers
fire when they are armed, and the idle thread only idles. -/
def step (s : Sched) : Op → Option Sched
  | .create priority => some (threadCreate s priority)
  | .resume t => if (s.thread t).magic then some (threadResume s t) else none
  | .yield => threadYield s
  | .preempt => threadPreempt s
  | .timerTick => some (threadTimerTick s)
  | .setRealTime t => if (s.thread t).magic then some (threadSetRealTime s t) else none
  | .sleep => if s.current ≠ idleThread then threadSleep s else none
  | .sleepTimer t =>
    if (s.thread t).timer = some .threadSleepHandler then some (threadSleepHandler s t) else none
  | .setPriority priority => threadSetPriority s priority
  | .becomeIdle => if s.current = idleThread then threadBecomeIdle s else none
  | .block n timeout =>
    if s.current ≠ idleThread then s.waitQueueBlock (.object n) timeout .block else none
  | .wakeOne n reschedule err => s.waitQueueWakeOne (.object n) reschedule err
  | .wakeAll n reschedule err => waitQueueWakeAll s (.object n) reschedule err
  | .destroy n reschedule => waitQueueWakeAll s (.object n) reschedule .objectDestroyed
  | .timeout t =>
    if (s.thread t).timer = some .waitQueueTimeoutHandler then s.waitQueueTimeoutHandler t
    else none
  | .join t timeout =>
    if (s.thread t).magic ∧ s.current ≠ idleThread then threadJoin s t timeout else none
  | .detach t => if (s.thread t).magic then threadDetach s t else none
  | .exit retcode => if s.current ≠ idleThread then threadExit s retcode else none

end Kernel
end LittleKernel
