/-
# The timers of the network stack

`lib/minip/net_timer.c`: `net_timer_set`, `net_timer_cancel` and the worker,
`net_timer_work_routine`, which calls the timers of one queue back from a thread of its own.

The steps are the critical sections of `net_timer_lock` and what lies between them.  A thread in
`net_timer_set` reads the clock before it takes the lock and signals the worker after it; the
worker takes the first due timer off the queue, and reads its callback and calls it with the lock
released.  Every thread, and the callback that runs, may set and cancel timers.  The clock is a
natural number of milliseconds of which the code sees the low 32 bits.

`net_timer_cancel` does not know of the timer that the worker has in hand, and returns while its
callback is still to come (`netTimer_cancelled_is_called`): `arp_get_dest_mac` of `arp.c` then
leaves the stack frame that holds the timer and the flag the callback writes.
`net_timer_set` of that timer makes the worker call the new arming at once, and `TIME_GT` takes
a deadline more than `2 ^ 31` ms after another for an earlier one.
`net_timer_law` says that nothing else goes wrong: in the runs without these steps the queue is
sorted and every arming is called as it should be, and after each such step there is a run in
which this fails.
-/

import LittleKernel.Kernel.Timer.Basic

namespace LittleKernel
namespace NetTimer

open Word Machine Function
open Timer (TimeGT insertSorted mem_insertSorted nodup_insertSorted)

/-! ### The data -/

/-- `net_timer_t`.  `node` is whether it is linked in `net_timer_list`. -/
structure NetTimerT (κ : Type) where
  node : Bool
  schedTime : ℕ
  cb : Option κ
  arg : ℕ
  deriving DecidableEq

/-- Where a thread is in `net_timer_set`: it has read the clock, or has released the lock. -/
inductive SetPc where
  | idle
  | timed (now : ℕ)
  | queued (newlyQueued : Bool)
  deriving DecidableEq

/-- Where the worker is: in `net_timer_work_thread`, before the lock is taken, between the lock
and the callback, in the callback. -/
inductive WorkPc (ι κ : Type) where
  | waiting
  | woken (now : ℕ)
  | dequeued (now : ℕ) (t : ι)
  | calling (now : ℕ) (t : ι) (cb : κ) (arg : ℕ)
  deriving DecidableEq

namespace WorkPc

variable {ι κ : Type}

/-- The clock reading of the pass. -/
def now : WorkPc ι κ → Option ℕ
  | waiting => none
  | woken now => some now
  | dequeued now _ => some now
  | calling now _ _ _ => some now

/-- The timer whose callback has still to be read. -/
def taken : WorkPc ι κ → Option ι
  | dequeued _ t => some t
  | _ => none

/-- The timer whose callback runs. -/
def called : WorkPc ι κ → Option ι
  | calling _ t _ _ => some t
  | _ => none

end WorkPc

/-- The clock, the timers, the queue, the event of the worker, the threads in `net_timer_set`
(`none` is the callback that the worker runs) and the worker. -/
structure NetTimers (ι κ : Type) where
  time : ℕ
  timer : ι → NetTimerT κ
  list : List ι
  event : Bool
  setter : Option ℕ → SetPc
  work : WorkPc ι κ

variable {ι κ : Type} [DecidableEq ι]

namespace NetTimers

/-- All timers zeroed, the worker waiting, at some time. -/
def init (time : ℕ) : NetTimers ι κ :=
  ⟨time, fun _ => ⟨false, 0, none, 0⟩, [], false, fun _ => .idle, .waiting⟩

/-- `current_time`. -/
def currentTime (s : NetTimers ι κ) : ℕ := u32 s.time

/-- A store to a timer. -/
def setTimer (s : NetTimers ι κ) (t : ι) (v : NetTimerT κ) : NetTimers ι κ :=
  { s with timer := update s.timer t v }

/-- A thread goes on in `net_timer_set`. -/
def setPc (s : NetTimers ι κ) (who : Option ℕ) (pc : SetPc) : NetTimers ι κ :=
  { s with setter := update s.setter who pc }

/-- The thread, or the callback if there is one, runs outside `net_timer_set`. -/
def Ready (s : NetTimers ι κ) (who : Option ℕ) : Prop :=
  s.setter who = .idle ∧ (who = none → s.work.called.isSome)

instance (s : NetTimers ι κ) (who : Option ℕ) : Decidable (s.Ready who) :=
  inferInstanceAs (Decidable (_ ∧ _))

end NetTimers

/-! ### The functions -/

/-- `add_to_queue`. -/
def addToQueue (s : NetTimers ι κ) (t : ι) : NetTimers ι κ :=
  { s.setTimer t { s.timer t with node := true } with
    list := insertSorted (fun u => (s.timer u).schedTime) t s.list }

/-- `list_delete`. -/
def listDelete (s : NetTimers ι κ) (t : ι) : NetTimers ι κ :=
  { s.setTimer t { s.timer t with node := false } with list := s.list.erase t }

/-- `net_timer_set` under the lock, with the clock reading `now`. -/
def netTimerSet (s : NetTimers ι κ) (t : ι) (cb : κ) (arg now delay : ℕ) :
    NetTimers ι κ × Bool :=
  let s₁ := if (s.timer t).node then listDelete s t else s
  (addToQueue (s₁.setTimer t
      { s₁.timer t with cb := some cb, arg := arg, schedTime := u32 (now + delay) }) t,
    !(s.timer t).node)

/-- `net_timer_cancel`. -/
def netTimerCancel (s : NetTimers ι κ) (t : ι) : NetTimers ι κ × Bool :=
  if (s.timer t).node then (listDelete s t, true) else (s, false)

/-- `net_timer_work_routine` from `mutex_acquire` to `mutex_release`: it has a due timer to
call, or returns the delay to the next one. -/
def netTimerWorkRoutine (s : NetTimers ι κ) (now : ℕ) : NetTimers ι κ :=
  match s.list with
  | [] => { s with work := .waiting, event := false }
  | t :: _ =>
    if TimeGT (s.timer t).schedTime now then
      { s with
        work := .waiting
        event := if sub32 (s.timer t).schedTime now = 2 ^ 32 - 1 then false else s.event }
    else { listDelete s t with work := .dequeued now t }

/-- What happens next. -/
inductive NetTimerAct (ι κ : Type) where
  | advance (ms : ℕ)
  | readClock (who : Option ℕ)
  | set (who : Option ℕ) (t : ι) (cb : κ) (arg delay : ℕ)
  | signal (who : Option ℕ)
  | cancel (who : Option ℕ) (t : ι)
  | wake
  | enter
  | call
  | finish
  deriving DecidableEq

/-- What a step did: a call that returns a value for a timer, or a callback. -/
inductive NetTimerOut (ι κ : Type) where
  | none
  | returned (t : ι) (value : Bool)
  | called (t : ι) (cb : κ) (arg : ℕ)
  deriving DecidableEq

/-- One step; `none` where it cannot be taken. -/
def netTimerStep (s : NetTimers ι κ) : NetTimerAct ι κ → Option (NetTimers ι κ × NetTimerOut ι κ)
  | .advance ms => some ({ s with time := s.time + ms }, .none)
  | .readClock who =>
    if s.Ready who then some (s.setPc who (.timed s.currentTime), .none) else none
  | .set who t cb arg delay =>
    match s.setter who with
    | .timed now =>
      some ((netTimerSet s t cb arg now delay).1.setPc who
          (.queued (netTimerSet s t cb arg now delay).2),
        .returned t (netTimerSet s t cb arg now delay).2)
    | _ => none
  | .signal who =>
    match s.setter who with
    | .queued _ => some ({ s.setPc who .idle with event := true }, .none)
    | _ => none
  | .cancel who t =>
    if s.Ready who then some ((netTimerCancel s t).1, .returned t (netTimerCancel s t).2)
    else none
  | .wake =>
    match s.work with
    | .waiting => if s.event then some ({ s with work := .woken s.currentTime }, .none) else none
    | _ => none
  | .enter =>
    match s.work with
    | .woken now => some (netTimerWorkRoutine s now, .none)
    | _ => none
  | .call =>
    match s.work with
    | .dequeued now t =>
      (s.timer t).cb.map fun cb =>
        ({ s with work := .calling now t cb (s.timer t).arg }, .called t cb (s.timer t).arg)
    | _ => none
  | .finish =>
    match s.work with
    | .calling now _ _ _ =>
      if s.setter none = .idle then some (netTimerWorkRoutine s now, .none) else none
    | _ => none

/-! ### The armings -/

/-- The armings of each timer, counted from 1: when each one is due, when its callback was
called, whether it was cancelled; the arming whose callback runs; what each thread last read
off the clock. -/
structure Arms (ι : Type) where
  no : ι → ℕ
  deadline : ι → ℕ → ℕ
  called : ι → ℕ → List ℕ
  cancelled : ι → ℕ → Bool
  running : Option (ι × ℕ)
  read : Option ℕ → ℕ

namespace Arms

def init : Arms ι := ⟨fun _ => 0, fun _ _ => 0, fun _ _ => [], fun _ _ => false, none, fun _ => 0⟩

/-- When the timer is due, as it was last set. -/
def due (A : Arms ι) (t : ι) : ℕ := A.deadline t (A.no t)

def set (A : Arms ι) (t : ι) (deadline : ℕ) : Arms ι :=
  { A with
    no := update A.no t (A.no t + 1)
    deadline := update A.deadline t
      (update (A.deadline t) (A.no t + 1) deadline) }

/-- The arming is cancelled.  A callback that cancels its own arming does not count: it cannot
be over when its call returns. -/
def cancel (A : Arms ι) (who : Option ℕ) (t : ι) : Arms ι :=
  if who = none ∧ A.running = some (t, A.no t) then A
  else
    { A with
      cancelled := update A.cancelled t
        (update (A.cancelled t) (A.no t) true) }

/-- The callback that the timer holds is called: that of its last arming. -/
def call (A : Arms ι) (t : ι) (time : ℕ) : Arms ι :=
  { A with
    called := update A.called t
      (update (A.called t) (A.no t) (time :: A.called t (A.no t)))
    running := some (t, A.no t) }

/-- The record after a step from the state `s`. -/
def next (A : Arms ι) (s : NetTimers ι κ) : NetTimerAct ι κ → Arms ι
  | .readClock who => { A with read := update A.read who s.time }
  | .set who t _ _ delay => A.set t (A.read who + delay)
  | .cancel who t => A.cancel who t
  | .call => s.work.taken.elim A fun t => A.call t s.time
  | .finish => { A with running := none }
  | _ => A

end Arms

/-- A step with its record. -/
def recordedStep (p : NetTimers ι κ × Arms ι) (a : NetTimerAct ι κ) :
    Option (NetTimers ι κ × Arms ι) :=
  (netTimerStep p.1 a).map fun q => (q.1, p.2.next p.1 a)

/-- The start, at some time. -/
def start (time : ℕ) : NetTimers ι κ × Arms ι := (.init time, .init)

/-- What is expected of the timers.  The queue holds each timer once, in the order of the
deadlines; the calls return whether they change what is queued; an arming is called back once at
most and no earlier than it is due, and not after it was cancelled. -/
structure Lawful (p : NetTimers ι κ × Arms ι) : Prop where
  sorted : p.1.list.Pairwise fun t u => p.2.due t ≤ p.2.due u
  nodup : p.1.list.Nodup
  returns : ∀ a s' t value, netTimerStep p.1 a = some (s', .returned t value) →
    (value = true ↔ ¬ (t ∈ p.1.list ↔ t ∈ s'.list))
  once : ∀ t n, (p.2.called t n).length ≤ 1
  onTime : ∀ t n, ∀ time ∈ p.2.called t n, p.2.deadline t n ≤ time
  final : ∀ t n, p.2.running = some (t, n) → p.2.cancelled t n = false

/-! ### The steps that are right -/

/-- Every `TIME_GT` that `add_to_queue` evaluates for a deadline `dl` compares as the deadlines
do. -/
def ComparesRight (due : ι → ℕ) (dl : ℕ) : List ι → Prop
  | [] => True
  | e :: l => if TimeGT (u32 (due e)) (u32 dl) then dl ≤ due e else due e ≤ dl ∧
      ComparesRight due dl l

instance decidableComparesRight (due : ι → ℕ) (dl : ℕ) :
    ∀ l : List ι, Decidable (ComparesRight due dl l)
  | [] => .isTrue trivial
  | e :: l =>
    have := decidableComparesRight due dl l
    inferInstanceAs (Decidable (if TimeGT (u32 (due e)) (u32 dl) then dl ≤ due e else
      due e ≤ dl ∧ ComparesRight due dl l))

/-- If the first timer of the queue is not due, `TIME_GT` sees it from the clock reading of the
pass. -/
def HeadCompares (p : NetTimers ι κ × Arms ι) : Prop :=
  ∀ t ∈ p.1.list.head?, ∀ now ∈ p.1.work.now, p.1.time < p.2.due t → TimeGT (u32 (p.2.due t)) now

instance (p : NetTimers ι κ × Arms ι) : Decidable (HeadCompares p) :=
  inferInstanceAs (Decidable (∀ _ ∈ p.1.list.head?, ∀ _ ∈ p.1.work.now, _))

/-- The step neither sets nor cancels the timer that the worker has taken off the queue and not
called yet, does not cancel the arming whose callback runs, unless this callback does, and meets
no comparison that comes out wrong. -/
def Ok (p : NetTimers ι κ × Arms ι) : NetTimerAct ι κ → Prop
  | .set who t _ _ delay => p.1.work.taken ≠ some t ∧
      ComparesRight p.2.due (p.2.read who + delay) (p.1.list.erase t)
  | .cancel who t => p.1.work.taken ≠ some t ∧
      (who ≠ none → p.2.running ≠ some (t, p.2.no t))
  | .enter => HeadCompares p
  | .finish => HeadCompares p
  | _ => True

instance (p : NetTimers ι κ × Arms ι) : ∀ a : NetTimerAct ι κ, Decidable (Ok p a)
  | .set .. => inferInstanceAs (Decidable (_ ∧ _))
  | .cancel .. => inferInstanceAs (Decidable (_ ∧ _))
  | .enter => inferInstanceAs (Decidable (HeadCompares p))
  | .finish => inferInstanceAs (Decidable (HeadCompares p))
  | .advance _ => .isTrue trivial
  | .readClock _ => .isTrue trivial
  | .signal _ => .isTrue trivial
  | .wake => .isTrue trivial
  | .call => .isTrue trivial

/-! ### The queue -/

section Queue

variable {sched due : ι → ℕ} {t : ι} {l : List ι}

/-- The queue is in order after an insertion exactly when the comparisons were right. -/
theorem sorted_insertSorted_iff (hl : l.Pairwise fun a b => due a ≤ due b)
    (ht : sched t = u32 (due t)) (hs : ∀ u ∈ l, sched u = u32 (due u)) :
    (insertSorted sched t l).Pairwise (fun a b => due a ≤ due b) ↔ ComparesRight due (due t) l := by
  induction l with
  | nil => simp [insertSorted, ComparesRight]
  | cons e l ih =>
    obtain ⟨he, hl⟩ := List.pairwise_cons.1 hl
    have hcmp : TimeGT (sched e) (sched t) ↔ TimeGT (u32 (due e)) (u32 (due t)) := by
      rw [hs e List.mem_cons_self, ht]
    unfold insertSorted ComparesRight
    by_cases hgt : TimeGT (sched e) (sched t)
    · rw [if_pos hgt, if_pos (hcmp.1 hgt)]
      constructor
      · intro h
        exact (List.pairwise_cons.1 h).1 e List.mem_cons_self
      · intro hle
        refine List.pairwise_cons.2 ⟨fun u hu => ?_, List.pairwise_cons.2 ⟨he, hl⟩⟩
        rcases List.mem_cons.1 hu with rfl | hu
        · exact hle
        · exact hle.trans (he u hu)
    · rw [if_neg hgt, if_neg (mt hcmp.2 hgt), List.pairwise_cons,
        ih hl fun u hu => hs u (List.mem_cons_of_mem _ hu)]
      refine and_congr_left fun _ => ⟨fun h => h t (mem_insertSorted.2 (.inl rfl)), ?_⟩
      intro hle u hu
      rcases mem_insertSorted.1 hu with rfl | hu
      · exact hle
      · exact he u hu

omit [DecidableEq ι] in
/-- Only the comparisons with timers in the list matter. -/
theorem ComparesRight.congr {due' : ι → ℕ} {dl : ℕ} (h : ∀ u ∈ l, due' u = due u) :
    ComparesRight due' dl l ↔ ComparesRight due dl l := by
  induction l with
  | nil => rfl
  | cons e l ih =>
    unfold ComparesRight
    rw [h e List.mem_cons_self, ih fun u hu => h u (List.mem_cons_of_mem _ hu)]

end Queue

/-! ### The functions on a queue -/

section Functions

variable {s : NetTimers ι κ} {t : ι}

/-- `list_in_list` of a timer's node says whether it is in the queue. -/
def Linked (s : NetTimers ι κ) : Prop := ∀ t, (s.timer t).node = true ↔ t ∈ s.list

theorem netTimerSet_eq (hn : Linked s) (cb : κ) (arg now delay : ℕ) :
    netTimerSet s t cb arg now delay =
      ({ s with
          timer := update s.timer t ⟨true, u32 (now + delay), some cb, arg⟩
          list := insertSorted
            (update (fun u => (s.timer u).schedTime) t (u32 (now + delay))) t
            (s.list.erase t) },
        decide (t ∉ s.list)) := by
  have hsched : ∀ v : NetTimerT κ, (fun u => (update s.timer t v u).schedTime) =
      update (fun u => (s.timer u).schedTime) t v.schedTime := by
    intro v
    funext u
    rcases eq_or_ne u t with rfl | hne
    · simp
    · simp [hne]
  unfold netTimerSet
  by_cases hin : t ∈ s.list
  · simp [(hn t).2 hin, addToQueue, listDelete, NetTimers.setTimer, hsched, hin]
  · have hnode : (s.timer t).node = false := by simpa using mt (hn t).1 hin
    simp [hnode, addToQueue, NetTimers.setTimer, hsched, hin, List.erase_of_not_mem hin]

theorem netTimerCancel_eq (hn : Linked s) :
    netTimerCancel s t = (listDelete s t, decide (t ∈ s.list)) := by
  unfold netTimerCancel
  by_cases hin : t ∈ s.list
  · simp [(hn t).2 hin, hin]
  · have hnode : (s.timer t).node = false := by simpa using mt (hn t).1 hin
    have hv : (⟨false, (s.timer t).schedTime, (s.timer t).cb, (s.timer t).arg⟩ : NetTimerT κ) =
        s.timer t := by rw [← hnode]
    simp [hnode, hin, listDelete, NetTimers.setTimer, List.erase_of_not_mem hin, hv]

/-- **The return values.**  `net_timer_set` and `net_timer_cancel` say whether they change what
is queued. -/
theorem returns_iff (hn : Linked s) (hd : s.list.Nodup) {a : NetTimerAct ι κ}
    {s' : NetTimers ι κ} {value : Bool} (h : netTimerStep s a = some (s', .returned t value)) :
    value = true ↔ ¬ (t ∈ s.list ↔ t ∈ s'.list) := by
  cases a with
  | set who u cb arg delay =>
    simp only [netTimerStep] at h
    split at h
    · rw [netTimerSet_eq hn] at h
      simp only [Option.some.injEq, Prod.mk.injEq, NetTimerOut.returned.injEq] at h
      obtain ⟨rfl, rfl, rfl⟩ := h
      simp [NetTimers.setPc, mem_insertSorted]
    · cases h
  | cancel who u =>
    simp only [netTimerStep] at h
    split at h
    · rw [netTimerCancel_eq hn] at h
      simp only [Option.some.injEq, Prod.mk.injEq, NetTimerOut.returned.injEq] at h
      obtain ⟨rfl, rfl, rfl⟩ := h
      simp [listDelete, hd.not_mem_erase]
    · cases h
  | call =>
    simp only [netTimerStep] at h
    split at h
    · simp at h
    · cases h
  | advance ms => simp [netTimerStep] at h
  | readClock who => simp [netTimerStep] at h
  | signal who =>
    simp only [netTimerStep] at h
    split at h <;> simp at h
  | wake =>
    simp only [netTimerStep] at h
    split at h <;> simp at h
  | enter =>
    simp only [netTimerStep] at h
    split at h <;> simp at h
  | finish =>
    simp only [netTimerStep] at h
    split at h <;> simp at h

end Functions

/-! ### The invariant -/

/-- The queue and the armings.  An arming that is queued, or taken off the queue and not called
yet, was neither called nor cancelled. -/
structure Inv (p : NetTimers ι κ × Arms ι) : Prop where
  linked : Linked p.1
  nodup : p.1.list.Nodup
  sorted : p.1.list.Pairwise fun t u => p.2.due t ≤ p.2.due u
  sched : ∀ t ∈ p.1.list, (p.1.timer t).schedTime = u32 (p.2.due t)
  cb : ∀ t, t ∈ p.1.list ∨ p.1.work.taken = some t → (p.1.timer t).cb.isSome
  pending : ∀ t, t ∈ p.1.list ∨ p.1.work.taken = some t →
    p.2.called t (p.2.no t) = [] ∧ p.2.cancelled t (p.2.no t) = false
  taken : ∀ t, p.1.work.taken = some t → t ∉ p.1.list ∧ p.2.due t ≤ p.1.time
  later : ∀ t n, p.2.no t < n → p.2.called t n = [] ∧ p.2.cancelled t n = false
  once : ∀ t n, (p.2.called t n).length ≤ 1
  onTime : ∀ t n, ∀ time ∈ p.2.called t n, p.2.deadline t n ≤ time
  final : ∀ t n, p.2.running = some (t, n) → p.2.cancelled t n = false
  timed : ∀ who now, p.1.setter who = .timed now → now = u32 (p.2.read who)
  callback : p.1.setter none ≠ .idle → p.1.work.called.isSome

omit [DecidableEq ι] in
theorem inv_start (time : ℕ) : Inv (start time : NetTimers ι κ × Arms ι) := by
  constructor <;> simp [start, NetTimers.init, Arms.init, Linked, WorkPc.taken]

theorem Inv.lawful {p : NetTimers ι κ × Arms ι} (h : Inv p) : Lawful p :=
  ⟨h.sorted, h.nodup, fun _ _ _ _ hs => returns_iff h.linked h.nodup hs, h.once, h.onTime,
    h.final⟩

section Steps

variable {s : NetTimers ι κ} {A : Arms ι} {t : ι}

omit [DecidableEq ι] in
theorem Inv.advance (h : Inv (s, A)) (ms : ℕ) : Inv ({ s with time := s.time + ms }, A) :=
  ⟨h.linked, h.nodup, h.sorted, h.sched, h.cb, h.pending,
    fun u hu => ⟨(h.taken u hu).1, (h.taken u hu).2.trans (Nat.le_add_right _ _)⟩,
    h.later, h.once, h.onTime, h.final, h.timed, h.callback⟩

omit [DecidableEq ι] in
/-- The event is signalled, or not any more. -/
theorem Inv.event (h : Inv (s, A)) (e : Bool) : Inv ({ s with event := e }, A) :=
  ⟨h.linked, h.nodup, h.sorted, h.sched, h.cb, h.pending, h.taken, h.later, h.once, h.onTime,
    h.final, h.timed, h.callback⟩

variable {who : Option ℕ}

omit [DecidableEq ι] in
/-- A thread goes on in `net_timer_set`. -/
theorem Inv.setPc (h : Inv (s, A)) {pc : SetPc} {read : Option ℕ → ℕ}
    (hpc : ∀ now, pc = .timed now → now = u32 (read who)) (hread : ∀ w, w ≠ who → read w = A.read w)
    (hcall : who = none → pc ≠ .idle → s.work.called.isSome) :
    Inv (s.setPc who pc, { A with read := read }) := by
  refine ⟨h.linked, h.nodup, h.sorted, h.sched, h.cb, h.pending, h.taken, h.later, h.once,
    h.onTime, h.final, fun w now hw => ?_, fun hn => ?_⟩
  · rcases eq_or_ne w who with rfl | hne
    · exact hpc now (by simpa [NetTimers.setPc] using hw)
    · have hold := h.timed w now (by simpa [NetTimers.setPc, hne] using hw)
      exact hold.trans (congrArg u32 (hread w hne).symm)
  · rcases eq_or_ne none who with rfl | hne
    · exact hcall rfl (by simpa [NetTimers.setPc] using hn)
    · exact h.callback (by simpa [NetTimers.setPc, hne] using hn)

/-- Taking a timer off the list leaves the callbacks. -/
theorem cb_listDelete (t u : ι) : ((listDelete s t).timer u).cb = (s.timer u).cb := by
  rcases eq_or_ne u t with rfl | hne
  · simp [listDelete, NetTimers.setTimer]
  · simp [listDelete, NetTimers.setTimer, hne]

theorem Inv.delete (h : Inv (s, A)) (t : ι) : Inv (listDelete s t, A) := by
  have hcb := cb_listDelete (s := s) t
  have hmem : ∀ u, u ∈ s.list.erase t → u ∈ s.list := fun u => List.mem_of_mem_erase
  have hsub : (s.list.erase t).Sublist s.list := List.erase_sublist
  constructor
  · intro u
    have hl := h.linked u
    have hd : s.list.Nodup := h.nodup
    rcases eq_or_ne u t with rfl | hne
    · simp [listDelete, NetTimers.setTimer, hd.not_mem_erase]
    · simpa [listDelete, NetTimers.setTimer, hne, hd.mem_erase_iff] using hl
  · exact hsub.nodup h.nodup
  · exact h.sorted.sublist hsub
  · intro u hu
    have hne : u ≠ t := ((List.Nodup.mem_erase_iff h.nodup).1 hu).1
    simpa [listDelete, NetTimers.setTimer, hne] using h.sched u (hmem u hu)
  · intro u hu
    rw [hcb]
    exact h.cb u (hu.imp_left (hmem u))
  · exact fun u hu => h.pending u (hu.imp_left (hmem u))
  · exact fun u hu => ⟨fun hm => (h.taken u hu).1 (hmem u hm), (h.taken u hu).2⟩
  · exact h.later
  · exact h.once
  · exact h.onTime
  · exact h.final
  · exact h.timed
  · exact h.callback

/-- `net_timer_cancel` of a timer that the worker does not have in hand. -/
theorem Inv.cancel (h : Inv (s, A)) (hok : Ok (s, A) (.cancel who t)) :
    Inv (listDelete s t, A.cancel who t) := by
  obtain ⟨htaken, hrunning⟩ := hok
  have hd := h.delete t
  unfold Arms.cancel
  by_cases hself : who = none ∧ A.running = some (t, A.no t)
  · rw [if_pos hself]
    exact hd
  · rw [if_neg hself]
    have hrun : A.running ≠ some (t, A.no t) := fun hr =>
      hrunning (fun hw => hself ⟨hw, hr⟩) hr
    have hgone : t ∉ (listDelete s t).list := List.Nodup.not_mem_erase h.nodup
    refine ⟨hd.linked, hd.nodup, hd.sorted, hd.sched, hd.cb, fun u hu => ?_, hd.taken,
      fun u n hn => ?_, hd.once, hd.onTime, fun u n hr => ?_, hd.timed, hd.callback⟩
    · have hne : u ≠ t := by
        rintro rfl
        exact hu.elim hgone htaken
      simpa [hne] using hd.pending u hu
    · refine ⟨(hd.later u n hn).1, ?_⟩
      rcases eq_or_ne u t with rfl | hne
      · have hn' : n ≠ A.no u := by
          rintro rfl
          exact lt_irrefl _ hn
        simpa [hn'] using (hd.later u n hn).2
      · simpa [hne] using (hd.later u n hn).2
    · replace hr : A.running = some (u, n) := hr
      have hcan := hd.final u n hr
      rcases eq_or_ne u t with rfl | hne
      · have hn' : n ≠ A.no u := by
          rintro rfl
          exact hrun hr
        simpa [hn'] using hcan
      · simpa [hne] using hcan

theorem Arms.due_set_self (A : Arms ι) (t : ι) (dl : ℕ) : (A.set t dl).due t = dl := by
  simp [Arms.set, Arms.due]

theorem Arms.due_set_of_ne (A : Arms ι) {t u : ι} (dl : ℕ) (h : u ≠ t) :
    (A.set t dl).due u = A.due u := by
  simp [Arms.set, Arms.due, h]

variable {now : ℕ}

omit [DecidableEq ι] in
/-- The deadline that is written is that of the arming. -/
theorem Inv.u32_timed (h : Inv (s, A)) (hnow : s.setter who = .timed now) (delay : ℕ) :
    u32 (now + delay) = u32 (A.read who + delay) := by
  rw [h.timed who now hnow]
  simp only [u32]
  omega

variable {cb : κ}

/-- The queue is in order after `net_timer_set` exactly when its comparisons were right. -/
theorem Inv.sorted_set_iff (h : Inv (s, A)) {now delay arg : ℕ}
    (hnow : s.setter who = .timed now) :
    ((netTimerSet s t cb arg now delay).1.list.Pairwise fun u v =>
        (A.set t (A.read who + delay)).due u ≤ (A.set t (A.read who + delay)).due v) ↔
      ComparesRight A.due (A.read who + delay) (s.list.erase t) := by
  have hnot : t ∉ s.list.erase t := List.Nodup.not_mem_erase h.nodup
  have hdue : ∀ u ∈ s.list.erase t, (A.set t (A.read who + delay)).due u = A.due u :=
    fun u hu => A.due_set_of_ne _ (ne_of_mem_of_not_mem hu hnot)
  rw [netTimerSet_eq h.linked, sorted_insertSorted_iff, Arms.due_set_self,
    ComparesRight.congr hdue]
  · refine (h.delete t).sorted.imp_of_mem fun {u v} hu hv huv => ?_
    rw [hdue u hu, hdue v hv]
    exact huv
  · rw [update_self, Arms.due_set_self, h.u32_timed hnow]
  · intro u hu
    rw [update_of_ne (ne_of_mem_of_not_mem hu hnot), hdue u hu]
    exact h.sched u (List.mem_of_mem_erase hu)

/-- `net_timer_set` of a timer that the worker has not taken, with right comparisons. -/
theorem Inv.set (h : Inv (s, A)) {now delay arg : ℕ}
    (hnow : s.setter who = .timed now) (hok : Ok (s, A) (.set who t cb arg delay)) :
    Inv ((netTimerSet s t cb arg now delay).1, A.set t (A.read who + delay)) := by
  obtain ⟨htaken, hcmp⟩ := hok
  replace htaken : s.work.taken ≠ some t := htaken
  have hd := h.delete t
  have hsched := h.u32_timed hnow delay
  have hnot : t ∉ s.list.erase t := List.Nodup.not_mem_erase h.nodup
  have hdue : ∀ u, u ≠ t → (A.set t (A.read who + delay)).due u = A.due u :=
    fun u hne => A.due_set_of_ne _ hne
  have hmem : ∀ u, u ∈ s.list.erase t → u ≠ t ∧ u ∈ s.list := fun u hu =>
    ⟨ne_of_mem_of_not_mem hu hnot, List.mem_of_mem_erase hu⟩
  have hdeadline : ∀ u n, n ≤ A.no u →
      (A.set t (A.read who + delay)).deadline u n = A.deadline u n := by
    intro u n hn
    rcases eq_or_ne u t with rfl | hne
    · have hn' : n ≠ A.no u + 1 := by omega
      simp [Arms.set, hn']
    · simp [Arms.set, hne]
  have hsorted := (@Inv.sorted_set_iff _ _ _ s A t who cb h now delay arg hnow).2 hcmp
  rw [netTimerSet_eq h.linked]
  constructor
  · intro u
    have hl := h.linked u
    have hds : s.list.Nodup := h.nodup
    rcases eq_or_ne u t with rfl | hne
    · simp [mem_insertSorted]
    · simpa [mem_insertSorted, hne, hds.mem_erase_iff] using hl
  · exact nodup_insertSorted hd.nodup hnot
  · rw [netTimerSet_eq h.linked] at hsorted
    exact hsorted
  · intro u hu
    rcases mem_insertSorted.1 hu with rfl | hu
    · simp [Arms.due_set_self, hsched]
    · simpa [hdue u (hmem u hu).1, (hmem u hu).1] using h.sched u (hmem u hu).2
  · intro u hu
    rcases eq_or_ne u t with rfl | hne
    · simp
    · have hu' : u ∈ s.list ∨ s.work.taken = some u := hu.imp_left fun hm =>
        (hmem u ((mem_insertSorted.1 hm).resolve_left hne)).2
      simpa [hne] using h.cb u hu'
  · intro u hu
    rcases eq_or_ne u t with rfl | hne
    · simpa [Arms.set] using h.later u (A.no u + 1) (Nat.lt_succ_self _)
    · have hu' : u ∈ s.list ∨ s.work.taken = some u := hu.imp_left fun hm =>
        (hmem u ((mem_insertSorted.1 hm).resolve_left hne)).2
      simpa [Arms.set, hne] using h.pending u hu'
  · intro u hu
    have hne : u ≠ t := by
      rintro rfl
      exact htaken hu
    obtain ⟨hq, hle⟩ := h.taken u hu
    refine ⟨fun hm => hq (hmem u ((mem_insertSorted.1 hm).resolve_left hne)).2, ?_⟩
    rw [hdue u hne]
    exact hle
  · intro u n hn
    refine h.later u n ?_
    rcases eq_or_ne u t with rfl | hne
    · simp only [Arms.set, update_self] at hn
      exact lt_trans (Nat.lt_succ_self _) hn
    · simpa [Arms.set, hne] using hn
  · exact h.once
  · intro u n time hm
    have hn : n ≤ A.no u := by
      by_contra hlt
      have hnil := (h.later u n (not_le.1 hlt)).1
      replace hm : time ∈ A.called u n := hm
      rw [hnil] at hm
      cases hm
    rw [hdeadline u n hn]
    exact h.onTime u n time hm
  · exact h.final
  · exact h.timed
  · exact h.callback

/-- The worker looks at the head of the queue with the time it has read, and takes the timer off if
it is due. -/
theorem Inv.routine (h : Inv (s, A)) (hwork : s.work.now = some now)
    (hset : s.setter none = .idle) (hok : HeadCompares (s, A))
    (running : Option (ι × ℕ)) (hrun : running = none ∨ running = A.running) :
    Inv (netTimerWorkRoutine s now, { A with running := running }) := by
  have hfinal : ∀ t n, running = some (t, n) → A.cancelled t n = false := by
    rintro t n rfl
    rcases hrun with hr | hr
    · cases hr
    · exact h.final t n hr.symm
  -- the worker waits: nothing of the queue changes
  have hwait : ∀ e, Inv ({ s with work := .waiting, event := e },
      { A with running := running }) := by
    intro e
    refine ⟨h.linked, h.nodup, h.sorted, h.sched, fun u hu => h.cb u (.inl ?_),
      fun u hu => h.pending u (.inl ?_), fun u hu => ?_, h.later, h.once, h.onTime, hfinal,
      h.timed, fun hn => absurd hset hn⟩
    · exact hu.resolve_right (by simp [WorkPc.taken])
    · exact hu.resolve_right (by simp [WorkPc.taken])
    · simp [WorkPc.taken] at hu
  unfold netTimerWorkRoutine
  split
  · exact hwait false
  · rename_i t l hq
    have ht : t ∈ s.list := by simp [hq]
    have hs : (s.timer t).schedTime = u32 (A.due t) := h.sched t ht
    split
    · exact hwait _
    · rename_i hgt
      have hdue : A.due t ≤ s.time := by
        by_contra hlt
        exact hgt (hs ▸ hok t (by simp [hq]) now (by simp [hwork]) (not_le.1 hlt))
      have hd := h.delete t
      have hcb := cb_listDelete (s := s) t
      refine ⟨hd.linked, hd.nodup, hd.sorted, hd.sched, fun u hu => ?_, fun u hu => ?_,
        fun u hu => ?_, h.later, h.once, h.onTime, hfinal, h.timed, fun hn => absurd hset hn⟩
      · rcases hu with hu | hu
        · exact hd.cb u (.inl hu)
        · obtain rfl : t = u := by simpa [WorkPc.taken] using hu
          exact (hcb t).symm ▸ h.cb t (.inl ht)
      · rcases hu with hu | hu
        · exact hd.pending u (.inl hu)
        · obtain rfl : t = u := by simpa [WorkPc.taken] using hu
          exact h.pending t (.inl ht)
      · obtain rfl : t = u := by simpa [WorkPc.taken] using hu
        exact ⟨List.Nodup.not_mem_erase h.nodup, hdue⟩

/-- The callback of the timer that the worker has taken is called. -/
theorem Inv.call (h : Inv (s, A)) (hwork : s.work = .dequeued now t) (cb : κ)
    (arg : ℕ) : Inv ({ s with work := .calling now t cb arg }, A.call t s.time) := by
  have htaken : s.work.taken = some t := by simp [hwork, WorkPc.taken]
  obtain ⟨hq, hdue⟩ := h.taken t htaken
  obtain ⟨hcalled, hcancelled⟩ := h.pending t (.inr htaken)
  refine ⟨h.linked, h.nodup, h.sorted, h.sched, fun u hu => h.cb u (.inl ?_), fun u hu => ?_,
    fun u hu => ?_, fun u n hn => ?_, fun u n => ?_, fun u n time hm => ?_, fun u n hr => ?_,
    h.timed, fun _ => rfl⟩
  · exact hu.resolve_right (by simp [WorkPc.taken])
  · have hu' : u ∈ s.list := hu.resolve_right (by simp [WorkPc.taken])
    have hne : u ≠ t := ne_of_mem_of_not_mem hu' hq
    simpa [Arms.call, hne] using h.pending u (.inl hu')
  · simp [WorkPc.taken] at hu
  · have hl := h.later u n hn
    rcases eq_or_ne u t with rfl | hne
    · have hn' : n ≠ A.no u := by
        rintro rfl
        exact lt_irrefl _ hn
      simpa [Arms.call, hn'] using hl
    · simpa [Arms.call, hne] using hl
  · rcases eq_or_ne u t with rfl | hne
    · rcases eq_or_ne n (A.no u) with rfl | hn'
      · simpa [Arms.call] using hcalled
      · simpa [Arms.call, hn'] using h.once u n
    · simpa [Arms.call, hne] using h.once u n
  · rcases eq_or_ne u t with rfl | hne
    · rcases eq_or_ne n (A.no u) with rfl | hn'
      · replace hcalled : A.called u (A.no u) = [] := hcalled
        obtain rfl : time = s.time := by simpa [Arms.call, hcalled] using hm
        exact hdue
      · exact h.onTime u n time (by simpa [Arms.call, hn'] using hm)
    · exact h.onTime u n time (by simpa [Arms.call, hne] using hm)
  · obtain ⟨rfl, rfl⟩ : t = u ∧ A.no t = n := by simpa [Arms.call] using hr
    exact hcancelled

/-- **One step** that is right keeps the invariant. -/
theorem Inv.step {p p' : NetTimers ι κ × Arms ι} (h : Inv p) {a : NetTimerAct ι κ} (hok : Ok p a)
    (hstep : recordedStep p a = some p') : Inv p' := by
  obtain ⟨s, A⟩ := p
  simp only [recordedStep, Option.map_eq_some_iff] at hstep
  obtain ⟨⟨s', o⟩, hs, rfl⟩ := hstep
  cases a with
  | advance ms =>
    simp only [netTimerStep, Option.some.injEq, Prod.mk.injEq] at hs
    obtain ⟨rfl, -⟩ := hs
    exact h.advance ms
  | readClock who =>
    simp only [netTimerStep, Option.ite_none_right_eq_some, Option.some.injEq,
      Prod.mk.injEq] at hs
    obtain ⟨hready, rfl, -⟩ := hs
    refine h.setPc (fun now hnow => ?_) (fun w hne => by simp [hne]) fun hw _ => hready.2 hw
    obtain rfl : s.currentTime = now := by simpa using hnow
    simp [NetTimers.currentTime]
  | set who t cb arg delay =>
    simp only [netTimerStep] at hs
    split at hs
    · rename_i now hpc
      simp only [Option.some.injEq, Prod.mk.injEq] at hs
      obtain ⟨rfl, -⟩ := hs
      have hcall : who = none → s.work.called.isSome := by
        rintro rfl
        exact h.callback (by simp [hpc])
      have hwork : (netTimerSet s t cb arg now delay).1.work = s.work := by
        rw [netTimerSet_eq h.linked]
      refine (h.set hpc hok).setPc (by simp) (fun _ _ => rfl) fun hw _ => ?_
      rw [hwork]
      exact hcall hw
    · cases hs
  | signal who =>
    simp only [netTimerStep] at hs
    split at hs
    · simp only [Option.some.injEq, Prod.mk.injEq] at hs
      obtain ⟨rfl, -⟩ := hs
      have hidle : Inv (s.setPc who .idle, A) := h.setPc (by simp) (fun _ _ => rfl) (by simp)
      exact hidle.event true
    · cases hs
  | cancel who t =>
    simp only [netTimerStep, Option.ite_none_right_eq_some, Option.some.injEq,
      Prod.mk.injEq] at hs
    obtain ⟨-, rfl, -⟩ := hs
    rw [netTimerCancel_eq h.linked]
    exact h.cancel hok
  | wake =>
    simp only [netTimerStep] at hs
    split at hs
    · rename_i hwork
      simp only [Option.ite_none_right_eq_some, Option.some.injEq, Prod.mk.injEq] at hs
      obtain ⟨-, rfl, -⟩ := hs
      have hidle : s.setter none = .idle := by
        by_contra hne
        simpa [hwork, WorkPc.called] using h.callback hne
      refine ⟨h.linked, h.nodup, h.sorted, h.sched, fun u hu => h.cb u (.inl ?_),
        fun u hu => h.pending u (.inl ?_), fun u hu => ?_, h.later, h.once, h.onTime, h.final,
        h.timed, fun hn => absurd hidle hn⟩
      · exact hu.resolve_right (by simp [WorkPc.taken])
      · exact hu.resolve_right (by simp [WorkPc.taken])
      · simp [WorkPc.taken] at hu
    · cases hs
  | enter =>
    simp only [netTimerStep] at hs
    split at hs
    · rename_i now hwork
      simp only [Option.some.injEq, Prod.mk.injEq] at hs
      obtain ⟨rfl, -⟩ := hs
      have hidle : s.setter none = .idle := by
        by_contra hne
        simpa [hwork, WorkPc.called] using h.callback hne
      exact h.routine (by simp [hwork, WorkPc.now]) hidle hok A.running (.inr rfl)
    · cases hs
  | call =>
    simp only [netTimerStep] at hs
    split at hs
    · rename_i now t hwork
      simp only [Option.map_eq_some_iff, Prod.mk.injEq] at hs
      obtain ⟨cb, -, rfl, -⟩ := hs
      have hnext : A.next s (.call : NetTimerAct ι κ) = A.call t s.time := by
        simp [Arms.next, hwork, WorkPc.taken]
      rw [hnext]
      exact h.call hwork cb _
    · cases hs
  | finish =>
    simp only [netTimerStep] at hs
    split at hs
    · rename_i now t cb arg hwork
      simp only [Option.ite_none_right_eq_some, Option.some.injEq, Prod.mk.injEq] at hs
      obtain ⟨hidle, rfl, -⟩ := hs
      exact h.routine (by simp [hwork, WorkPc.now]) hidle hok none (.inl rfl)
    · cases hs

/-! ### The steps that are wrong -/

omit [DecidableEq ι] in
theorem Inv.dequeued {p : NetTimers ι κ × Arms ι} (h : Inv p) (ht : p.1.work.taken = some t) :
    ∃ now cb, p.1.work = .dequeued now t ∧ (p.1.timer t).cb = some cb := by
  obtain ⟨cb, hcb⟩ := Option.isSome_iff_exists.1 (h.cb t (.inr ht))
  cases hw : p.1.work with
  | dequeued now u =>
    obtain rfl : u = t := by simpa [hw, WorkPc.taken] using ht
    exact ⟨now, cb, rfl, hcb⟩
  | waiting => simp [hw, WorkPc.taken] at ht
  | woken now => simp [hw, WorkPc.taken] at ht
  | calling now u cb' arg => simp [hw, WorkPc.taken] at ht

/-- The worker calls the timer that it has taken. -/
theorem recordedStep_call (hwork : s.work = .dequeued now t) (hcb : (s.timer t).cb = some cb) :
    recordedStep (s, A) (.call : NetTimerAct ι κ) = some
      ({ s with work := .calling now t cb (s.timer t).arg }, A.call t s.time) := by
  simp [recordedStep, netTimerStep, hwork, hcb, Arms.next, WorkPc.taken]

/-- The call of a timer that was cancelled since the worker took it. -/
theorem not_throughout_call (hwork : s.work = .dequeued now t)
    (hcb : (s.timer t).cb = some cb) (hc : A.cancelled t (A.no t) = true) :
    ¬ Throughout recordedStep Lawful (s, A) [.call] := by
  intro h
  have hfinal := (h.2 _ (recordedStep_call hwork hcb)).final t (A.no t) rfl
  simp [Arms.call, hc] at hfinal

/-- Once a thread has set the timer that the worker has taken, it may cancel it: the worker
calls it still. -/
theorem not_throughout_set {th now : ℕ} {newlyQueued : Bool} (hl : Linked s)
    (hpc : s.setter (some th) = .queued newlyQueued) (hwork : s.work = .dequeued now t)
    (hcb : (s.timer t).cb = some cb) :
    ¬ Throughout recordedStep Lawful (s, A) [.signal (some th), .cancel (some th) t, .call] := by
  intro h
  let s₁ : NetTimers ι κ := { s.setPc (some th) .idle with event := true }
  have hl₁ : Linked s₁ := hl
  have hready : s₁.Ready (some th) := ⟨by simp [s₁, NetTimers.setPc], by simp⟩
  have hsignal : recordedStep (s, A) (.signal (some th) : NetTimerAct ι κ) = some (s₁, A) := by
    simp [recordedStep, netTimerStep, hpc, Arms.next, s₁]
  have hcancel : recordedStep (s₁, A) (.cancel (some th) t : NetTimerAct ι κ) =
      some (listDelete s₁ t, A.cancel (some th) t) := by
    simp [recordedStep, netTimerStep, hready, netTimerCancel_eq hl₁, Arms.next]
  have hwork₁ : (listDelete s₁ t).work = .dequeued now t := hwork
  refine @not_throughout_call _ _ _ _ _ t now cb hwork₁ ?_ ?_ ((h.2 _ hsignal).2 _ hcancel)
  · simpa [listDelete, NetTimers.setTimer, s₁, NetTimers.setPc] using hcb
  · simp [Arms.cancel]

/-- The call of a timer that is not due. -/
theorem not_throughout_early (hwork : s.work = .dequeued now t)
    (hcb : (s.timer t).cb = some cb) (hdue : s.time < A.due t) :
    ¬ Throughout recordedStep Lawful (s, A) [.call] := by
  intro h
  have hle := (h.2 _ (recordedStep_call hwork hcb)).onTime t (A.no t) s.time (by simp [Arms.call])
  replace hle : A.due t ≤ s.time := hle
  omega

/-- After a turn of the loop with a wrong comparison, the timer that the worker has taken is
called too early. -/
theorem Inv.routine_lost (h : Inv (s, A)) (hwork : s.work.now = some now)
    (hbad : ¬ HeadCompares (s, A)) (running : Option (ι × ℕ)) :
    ¬ Throughout recordedStep Lawful
      (netTimerWorkRoutine s now, { A with running := running }) [.call] := by
  unfold HeadCompares at hbad
  push Not at hbad
  obtain ⟨t, hhead, now', hnow', hlt, hgt⟩ := hbad
  obtain rfl : now = now' := by simpa [hwork] using hnow'
  obtain ⟨l, hq⟩ : ∃ l, s.list = t :: l := by
    cases hq : s.list with
    | nil => simp [hq] at hhead
    | cons u l =>
      obtain rfl : u = t := by simpa [hq] using hhead
      exact ⟨l, rfl⟩
  have ht : t ∈ s.list := by simp [hq]
  have hs : (s.timer t).schedTime = u32 (A.due t) := h.sched t ht
  have hloop : netTimerWorkRoutine s now = { listDelete s t with work := .dequeued now t } := by
    unfold netTimerWorkRoutine
    rw [hq]
    exact if_neg (hs ▸ hgt)
  obtain ⟨cb, hcb⟩ := Option.isSome_iff_exists.1 (h.cb t (.inl ht))
  rw [hloop]
  refine @not_throughout_early _ _ _ _ _ t now cb rfl ?_ hlt
  simpa [listDelete, NetTimers.setTimer] using hcb

/-- **After a step that is wrong** there are steps to a state that breaks the law. -/
theorem Inv.lost {p p' : NetTimers ι κ × Arms ι} (h : Inv p) {a : NetTimerAct ι κ}
    (hbad : ¬ Ok p a) (hstep : recordedStep p a = some p') :
    ∃ bs, ¬ Throughout recordedStep Lawful p' bs := by
  obtain ⟨s, A⟩ := p
  simp only [recordedStep, Option.map_eq_some_iff] at hstep
  obtain ⟨⟨s', o⟩, hs, rfl⟩ := hstep
  cases a with
  | set who t cb arg delay =>
    simp only [netTimerStep] at hs
    split at hs
    · rename_i now hpc
      simp only [Option.some.injEq, Prod.mk.injEq] at hs
      obtain ⟨rfl, -⟩ := hs
      by_cases htaken : s.work.taken = some t
      · -- the worker has the timer: it is cancelled again, and called
        obtain ⟨now', cb', hwork, -⟩ := h.dequeued htaken
        replace hwork : s.work = .dequeued now' t := hwork
        obtain ⟨th, rfl⟩ : ∃ th, who = some th := by
          cases who with
          | some th => exact ⟨th, rfl⟩
          | none => simpa [hwork, WorkPc.called] using h.callback (by simp [hpc])
        have hl : Linked (netTimerSet s t cb arg now delay).1 := by
          intro u
          rw [netTimerSet_eq h.linked]
          have hlu := h.linked u
          have hds : s.list.Nodup := h.nodup
          rcases eq_or_ne u t with rfl | hne
          · simp [mem_insertSorted]
          · simpa [mem_insertSorted, hne, hds.mem_erase_iff] using hlu
        have hset := netTimerSet_eq h.linked cb arg now delay (t := t)
        refine ⟨[.signal (some th), .cancel (some th) t, .call],
          @not_throughout_set _ _ _ _ _ t cb th now' (netTimerSet s t cb arg now delay).2 hl
            ?_ ?_ ?_⟩
        · exact update_self ..
        · rw [hset]
          exact hwork
        · rw [hset]
          simp [NetTimers.setPc]
      · refine ⟨[], fun hall => hbad ⟨htaken, ?_⟩⟩
        exact (h.sorted_set_iff hpc).1 hall.here.sorted
    · cases hs
  | cancel who t =>
    simp only [netTimerStep, Option.ite_none_right_eq_some, Option.some.injEq,
      Prod.mk.injEq] at hs
    obtain ⟨hready, rfl, -⟩ := hs
    rw [netTimerCancel_eq h.linked]
    by_cases htaken : s.work.taken = some t
    · obtain ⟨now, cb, hwork, hcb⟩ := h.dequeued htaken
      replace hwork : (listDelete s t).work = .dequeued now t := hwork
      have hwho : who ≠ none := by
        rintro rfl
        have hcalled := hready.2 rfl
        rw [show s.work = .dequeued now t from hwork] at hcalled
        cases hcalled
      refine ⟨[.call], @not_throughout_call _ _ _ _ _ t now cb hwork ?_ ?_⟩
      · simpa [listDelete, NetTimers.setTimer] using hcb
      · simp [Arms.next, Arms.cancel, hwho]
    · obtain ⟨hwho, hrunning⟩ : who ≠ none ∧ A.running = some (t, A.no t) := by
        by_contra hne
        exact hbad ⟨htaken, fun hw hr => hne ⟨hw, hr⟩⟩
      have hcancel : A.cancel who t = { A with
          cancelled := update A.cancelled t
            (update (A.cancelled t) (A.no t) true) } :=
        if_neg fun hself => hwho hself.1
      refine ⟨[], fun hall => ?_⟩
      have hfinal := (Throughout.here hall).final t (A.no t)
      simp only [Arms.next, hcancel, hrunning, update_self] at hfinal
      cases hfinal trivial
  | enter =>
    simp only [netTimerStep] at hs
    split at hs
    · rename_i now hwork
      simp only [Option.some.injEq, Prod.mk.injEq] at hs
      obtain ⟨rfl, -⟩ := hs
      exact ⟨[.call], h.routine_lost (by simp [hwork, WorkPc.now]) hbad A.running⟩
    · cases hs
  | finish =>
    simp only [netTimerStep] at hs
    split at hs
    · rename_i now t cb arg hwork
      simp only [Option.ite_none_right_eq_some, Option.some.injEq, Prod.mk.injEq] at hs
      obtain ⟨-, rfl, -⟩ := hs
      exact ⟨[.call], h.routine_lost (by simp [hwork, WorkPc.now]) hbad none⟩
    · cases hs
  | advance ms => exact absurd trivial hbad
  | readClock who => exact absurd trivial hbad
  | signal who => exact absurd trivial hbad
  | wake => exact absurd trivial hbad
  | call => exact absurd trivial hbad

end Steps

/-! ### Runs -/

/-- **The network timer law.**  In every run of any threads, callbacks and worker passes whose
steps are all right, the timers are as expected in every state; and after a run of right steps,
one that is not right can be followed by steps to a state in which they are not. -/
theorem net_timer_law (time : ℕ) (as : List (NetTimerAct ι κ))
    (hok : Along recordedStep Ok (start time) as) :
    Throughout recordedStep Lawful (start time) as ∧
      ∀ a p p', run recordedStep (start time) as = some p → recordedStep p a = some p' →
        ¬ Ok p a → ∃ bs, ¬ Throughout recordedStep Lawful (start time) (as ++ a :: bs) := by
  constructor
  · have hinv : Throughout recordedStep Inv (start time) as :=
      hok.throughout (fun _ _ _ h hok hstep => Inv.step h hok hstep) (inv_start time)
    exact hinv.imp fun p h => h.lawful
  · intro a p p' hrun hstep hbad
    have hp : Inv p :=
      run_inv_along (fun _ _ _ h hok hstep => Inv.step h hok hstep) as _ _ (inv_start time) hok hrun
    obtain ⟨bs, hbs⟩ := hp.lost hbad hstep
    exact ⟨bs, fun hall => hbs ((hall.after hrun).2 p' hstep)⟩

/-- The delay of a call of `net_timer_set`. -/
def NetTimerAct.delay : NetTimerAct ι κ → ℕ
  | set _ _ _ _ delay => delay
  | _ => 0

/-- A timer of 100 ms is set by thread 0, comes due and is called; meanwhile thread 1 cancels
another one, and the callback sets its own timer again. -/
def retransmitRun : List (NetTimerAct ℕ ℕ) :=
  [.readClock (some 0), .set (some 0) 1 10 7 100, .signal (some 0),
    .readClock (some 1), .set (some 1) 2 20 8 50, .signal (some 1), .cancel (some 1) 2,
    .advance 100, .wake, .enter, .call, .readClock none, .set none 1 10 7 100, .signal none, .finish]

/-- The timer that is called was due, and the cancelled one is not called. -/
theorem net_timer_law_retransmitRun :
    Throughout recordedStep Lawful (start 0) retransmitRun :=
  (net_timer_law 0 retransmitRun (by decide)).1

/-- `arp_get_dest_mac`: the answer comes in when the worker has taken the timer, whose flag is
then written after `net_timer_cancel` has returned. -/
def answeredRun : List (NetTimerAct ℕ ℕ) :=
  [.readClock (some 0), .set (some 0) 1 10 7 100, .signal (some 0), .advance 100, .wake, .enter,
    .cancel (some 0) 1, .call]

/-- The timer that the worker has taken is set anew, and called 5000 ms before it is due. -/
def rearmedRun : List (NetTimerAct ℕ ℕ) :=
  [.readClock (some 0), .set (some 0) 1 10 7 100, .signal (some 0), .advance 100, .wake, .enter,
    .readClock (some 0), .set (some 0) 1 10 7 5000, .call]

/-- A delay below `2 ^ 31` with another timer 5 ms overdue: it goes in front of it. -/
def overdueRun : List (NetTimerAct ℕ ℕ) :=
  [.readClock (some 0), .set (some 0) 1 10 7 0, .signal (some 0), .advance 5,
    .readClock (some 0), .set (some 0) 2 10 7 (2 ^ 31 - 1)]

/-- A callback that runs for 10 ms sets a timer with a delay below `2 ^ 31`: the worker, with the
clock reading from before, calls it at once. -/
def longPassRun : List (NetTimerAct ℕ ℕ) :=
  [.readClock (some 0), .set (some 0) 1 10 7 0, .signal (some 0), .wake, .enter, .call,
    .advance 10, .readClock none, .set none 2 20 8 (2 ^ 31 - 5), .signal none, .finish, .call]

/-- **Where the law fails**, with delays below `2 ^ 31`. -/
theorem netTimer_cancelled_is_called :
    (∀ as ∈ [answeredRun, rearmedRun, overdueRun, longPassRun], ∀ a ∈ as, a.delay < 2 ^ 31) ∧
      ¬ Throughout recordedStep Lawful (start 0) answeredRun ∧
      ¬ Throughout recordedStep Lawful (start 0) rearmedRun ∧
      ¬ Throughout recordedStep Lawful (start 0) overdueRun ∧
      ¬ Throughout recordedStep Lawful (start 0) longPassRun := by
  refine ⟨by decide, fun h => ?_, fun h => ?_, fun h => ?_, fun h => ?_⟩
  · have hfinal := (h.last rfl).final 1 1 rfl
    cases hfinal
  · have hearly := (h.last rfl).onTime 1 2 100
      List.mem_cons_self
    revert hearly
    decide
  · have hsorted := (h.last rfl).sorted
    revert hsorted
    decide
  · have hearly := (h.last rfl).onTime 2 1 10
      List.mem_cons_self
    revert hearly
    decide

end NetTimer
end LittleKernel
